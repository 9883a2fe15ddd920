import MaxIOFS.Listing
import MaxIOFS.Pagination
import MaxIOFS.ManagerRuns

/-! The versions of a bucket, page after page. Entries are sorted by key and then newest
first, while a marker is compared with the identifiers of its key as texts. What is listed is what
JSON has kept of the records. -/
namespace MaxIOFS.VersionPages
open OrderedStore ByteString MetadataStore Records Handler VersionHistory Pagination ManagerRuns Runs List OrderDual List.Pairwise
open JsonRecords (unmarshalled readBack)
open Utf8 (Text coerced coercedText)
variable {a b : ObjectVersion}

def strays (db : Database) (bucket start : Bytes) : List ObjectVersion :=
  ((db.objects.scan (objectSpace bucket)).filter
    (fun e => start <+: e.2.key ∧ (view bucket db e.2.key).versions e.2.versionID = none)).map (fun e => plainVersion e.2)

def storedVersions (db : Database) (bucket start : Bytes) : List ObjectVersion := db.versionEntries bucket start ++ strays db bucket start

def precedes (a b : ObjectVersion) : Bool := decide (a.key < b.key ∨ a.key = b.key ∧ b.lastModified < a.lastModified)

def tied (a b : ObjectVersion) : Bool := decide (a.key = b.key ∧ a.lastModified = b.lastModified)

def mayStand (l : List ObjectVersion) (x : ObjectVersion) (i : Nat) : Prop :=
  (l.filter (precedes · x)).length ≤ i ∧ i < (l.filter (precedes · x)).length + (l.filter (tied · x)).length

structure Aligned (n : Nat) (db : Database) (bucket start : Bytes) : Prop where
  few : (storedVersions db bucket start).length ≤ n * 10
  unmixed : ∀ v ∈ strays db bucket start, ∀ w ∈ db.versionEntries bucket start, w.key ≠ v.key
  boundary : ∀ x ∈ storedVersions db bucket start, ∀ j, mayStand (storedVersions db bucket start) x ((j + 1) * n) →
    ∀ e ∈ storedVersions db bucket start, e.key = x.key → (e.versionID < shownID x.versionID ↔ x.lastModified < e.lastModified)

/-! The order of a page, and the one that settles equal times by the identifier. -/

def rank (v : ObjectVersion) : Lex (Bytes × OrderDual Int) := toLex (v.key, toDual v.lastModified)

def place (v : ObjectVersion) : Lex (Lex (Bytes × OrderDual Int) × OrderDual Bytes) := toLex (rank v, toDual (shownID v.versionID))

theorem rankLt : rank a < rank b ↔ precedes a b = true := by
  rw [rank,rank,Prod.Lex.toLex_lt_toLex,precedes,decide_eq_true_eq]
  rfl

theorem rankEq : rank a = rank b ↔ tied a b = true := by
  rw [rank,rank,toLex_inj,Prod.mk.injEq,tied,decide_eq_true_eq]
  rfl

theorem rankLe : rank a ≤ rank b ↔ a.key < b.key ∨ a.key = b.key ∧ b.lastModified ≤ a.lastModified := by
  rw [rank,rank,Prod.Lex.toLex_le_toLex]
  rfl

theorem placeLe : place a ≤ place b ↔ rank a < rank b ∨ rank a = rank b ∧ shownID b.versionID ≤ shownID a.versionID := by
  rw [place,place,Prod.Lex.toLex_le_toLex]
  rfl

theorem placeRank (order : place a ≤ place b) : rank a ≤ rank b := by
  rcases placeLe.mp order with less | ⟨same,_⟩
  · exact less.le
  · exact same.le

def Distinct (l : List ObjectVersion) : Prop := l.Pairwise (fun a b => a.key = b.key → shownID a.versionID ≠ shownID b.versionID)

def Strict (l : List ObjectVersion) : Prop := l.Pairwise (fun a b => place a < place b)

theorem distinctPerm {l l'} (perm : l.Perm l') (distinct : Distinct l) : Distinct l' :=
  perm.pairwise distinct fun away same => (away same.symm).symm

theorem distinctNodup {l} (distinct : Distinct l) : l.Nodup :=
  distinct.imp fun away same => away (congrArg _ same) (congrArg (fun v => shownID v.versionID) same)

theorem distinctEq {l} (distinct : Distinct l) (memA : a ∈ l) (memB : b ∈ l)
    (named : a.key = b.key) (same : shownID a.versionID = shownID b.versionID) : a = b := by
  by_contra other
  have symmetric : Std.Symm (fun a b : ObjectVersion => a.key = b.key → shownID a.versionID ≠ shownID b.versionID) :=
    ⟨fun _ _ away same => (away same.symm).symm⟩
  exact List.Pairwise.forall distinct memA memB other named same

theorem strictRanked {l} (strict : Strict l) : l.Pairwise (fun a b => rank a ≤ rank b) := strict.imp fun less => placeRank less.le

def latestFirst : ListingSort where
  sort versions := versions.insertionSort (fun a b => place a ≤ place b)
  perm versions := perm_insertionSort _ versions
  ordered versions := by
    have total : Std.Total (fun a b : ObjectVersion => place a ≤ place b) := ⟨fun a b => le_total _ _⟩
    have trans : IsTrans ObjectVersion (fun a b => place a ≤ place b) := ⟨fun _ _ _ => le_trans⟩
    exact (pairwise_insertionSort _ versions).imp fun order => rankLe.mp (placeRank order)

theorem latestStrict {l} (distinct : Distinct l) : Strict (latestFirst.sort l) := by
  have away := distinctPerm (latestFirst.perm l).symm distinct
  refine (pairwise_insertionSort (fun a b => place a ≤ place b) l).imp₂ (fun a b order away => lt_of_le_of_ne order fun same => ?_) away
  have parts := Prod.mk.inj (toLex_inj.mp same)
  exact away (Prod.mk.inj (toLex_inj.mp parts.1)).1 (toDual_inj.mp parts.2)

section
variable (db : Database) (bucket start : Bytes) (limit : Nat)
variable {v : ObjectVersion}

def collected : List ObjectVersion :=
  let versions := (db.versionEntries bucket start).take limit
  if versions.length < limit then
    versions ++ (((db.objects.scan (objectSpace bucket)).filter
      (fun e => e.2.key ∉ versions.map ObjectVersion.key ∧ start <+: e.2.key)).map (fun e => plainVersion e.2)).take (limit - versions.length)
  else versions

theorem upToCollected (sorting : ListingSort) : db.listAllObjectVersions sorting bucket start limit =
    sorting.sort (collected db bucket start limit) := by
  exact (apply_ite sorting.sort ..).symm

theorem takeAll (short : ((db.versionEntries bucket start).take limit).length < limit) :
    (db.versionEntries bucket start).take limit = db.versionEntries bucket start := by
  rw [length_take] at short
  exact take_of_length_le (by omega)

def plains : List ObjectVersion :=
  ((db.objects.scan (objectSpace bucket)).filter
    (fun e => e.2.key ∉ (db.versionEntries bucket start).map ObjectVersion.key ∧ start <+: e.2.key)).map (fun e => plainVersion e.2)

theorem collectedCases : (db.versionEntries bucket start).length < limit ∧ collected db bucket start limit = db.versionEntries bucket start ++
      (plains db bucket start).take (limit - (db.versionEntries bucket start).length) ∨
    limit ≤ (db.versionEntries bucket start).length ∧ collected db bucket start limit = (db.versionEntries bucket start).take limit := by
  unfold collected
  by_cases short : ((db.versionEntries bucket start).take limit).length < limit
  · have all := takeAll db bucket start limit short
    rw [all] at short
    refine .inl ⟨short,?_⟩
    simp only [all,if_pos short]
    rfl
  · rw [if_neg short,length_take] at *
    exact .inr ⟨by omega,rfl⟩

theorem collectedLength : (collected db bucket start limit).length ≤ limit := by
  rcases collectedCases db bucket start limit with ⟨_,same⟩ | ⟨_,same⟩
  · rw [same,length_append,length_take]
    omega
  · rw [same,length_take]
    omega

theorem plainStray {obj : ObjectMetadata} (absent : obj.key ∉ (db.versionEntries bucket start).map ObjectVersion.key)
    (inside : start <+: obj.key) : (view bucket db obj.key).versions obj.versionID = none := by
  refine Option.eq_none_iff_forall_ne_some.mpr fun other found => absent ?_
  obtain ⟨stored,named⟩ := versionsInIff.mp found
  have scanned : (objectVersionKey bucket obj.key obj.versionID, other) ∈ db.versions.scan (versionSpace bucket) :=
    Store.memScan.mpr ⟨stored,inVersionSpace ..⟩
  refine mem_map.mpr ⟨versionOf other,mem_map.mpr ⟨_,mem_filter.mpr ⟨scanned,decide_eq_true ?_⟩,rfl⟩,named⟩
  exact named.symm ▸ inside

theorem plainsSublist : (plains db bucket start).Sublist (strays db bucket start) := by
  refine List.Sublist.map _ (monotone_filter_right _ fun e plain => ?_)
  obtain ⟨absent,inside⟩ := of_decide_eq_true plain
  exact decide_eq_true ⟨inside,plainStray db bucket start absent inside⟩

theorem collectedStored : (collected db bucket start limit).Sublist (storedVersions db bucket start) := by
  rcases collectedCases db bucket start limit with ⟨_,same⟩ | ⟨_,same⟩
  · rw [same]
    exact (List.Sublist.refl _).append ((take_sublist ..).trans (plainsSublist db bucket start))
  · rw [same]
    exact (take_sublist ..).trans (sublist_append_left ..)

theorem plainsUnmixed (unmixed : ∀ v ∈ strays db bucket start, ∀ w ∈ db.versionEntries bucket start, w.key ≠ v.key) :
    plains db bucket start = strays db bucket start := by
  refine congrArg (List.map _) (filter_congr fun e scanned => decide_eq_decide.mpr ⟨fun plain => ?_,fun stray => ?_⟩)
  · exact ⟨plain.2,plainStray db bucket start plain.1 plain.2⟩
  refine ⟨fun listed => ?_,stray.1⟩
  obtain ⟨w,among,same⟩ := mem_map.mp listed
  exact unmixed (plainVersion e.2) (mem_map.mpr ⟨e,mem_filter.mpr ⟨scanned,decide_eq_true stray⟩,rfl⟩) w among same

variable {db bucket start limit}

theorem strayID (mem : v ∈ strays db bucket start) : v.versionID = [] := by
  obtain ⟨_,_,rfl⟩ := mem_map.mp mem
  rfl

theorem entryID (filed : Filed bucket db) (mem : v ∈ db.versionEntries bucket start) : v.versionID ≠ [] := by
  obtain ⟨e,scanned,rfl⟩ := mem_map.mp mem
  obtain ⟨stored,inside⟩ := Store.memScan.mp (mem_filter.mp scanned).1
  exact (filed.versions e.1 e.2 stored inside).2.1

theorem storedKey (filed : Filed bucket db) (mem : v ∈ storedVersions db bucket start) : v.key ≠ [] := by
  rcases mem_append.mp mem with version | stray
  · obtain ⟨e,scanned,rfl⟩ := mem_map.mp version
    obtain ⟨stored,inside⟩ := Store.memScan.mp (mem_filter.mp scanned).1
    exact (filed.versions e.1 e.2 stored inside).1.key
  obtain ⟨e,scanned,rfl⟩ := mem_map.mp stray
  obtain ⟨stored,inside⟩ := Store.memScan.mp (mem_filter.mp scanned).1
  exact (filed.objects e.1 e.2 stored inside).1.key

theorem collectedWhole (few : (storedVersions db bucket start).length ≤ limit)
    (unmixed : ∀ v ∈ strays db bucket start, ∀ w ∈ db.versionEntries bucket start, w.key ≠ v.key) :
    collected db bucket start limit = storedVersions db bucket start := by
  have total : (db.versionEntries bucket start).length + (strays db bucket start).length ≤ limit := by
    simpa [storedVersions] using few
  rcases collectedCases db bucket start limit with ⟨_,same⟩ | ⟨_,same⟩
  · rw [same,plainsUnmixed db bucket start unmixed,take_of_length_le (by omega),storedVersions]
  · have none : strays db bucket start = [] := length_eq_zero_iff.mp (by omega)
    rw [same,take_of_length_le (by omega),storedVersions,none,append_nil]

theorem collectedUnmixed (filed : Filed bucket db) (whole : storedVersions db bucket start ⊆ collected db bucket start limit)
    {w} (stray : v ∈ strays db bucket start) (among : w ∈ db.versionEntries bucket start) : w.key ≠ v.key := by
  have found := whole (mem_append_right _ stray)
  have plain : v ∉ db.versionEntries bucket start := fun version => entryID filed version (strayID stray)
  rcases collectedCases db bucket start limit with ⟨_,same⟩ | ⟨_,same⟩
  · rw [same] at found
    have late := mem_of_mem_take ((mem_append.mp found).resolve_left plain)
    obtain ⟨_,scanned,rfl⟩ := mem_map.mp late
    intro named
    exact (of_decide_eq_true (mem_filter.mp scanned).2).1 (mem_map.mpr ⟨w,among,named⟩)
  · rw [same] at found
    exact absurd (mem_of_mem_take found) plain

theorem wholeIff (filed : Filed bucket db) (distinct : (storedVersions db bucket start).Nodup) :
    storedVersions db bucket start ⊆ collected db bucket start limit ↔ (storedVersions db bucket start).length ≤ limit ∧
      ∀ v ∈ strays db bucket start, ∀ w ∈ db.versionEntries bucket start, w.key ≠ v.key := by
  constructor
  · intro whole
    refine ⟨((subperm_of_subset distinct whole).length_le).trans (collectedLength ..),fun v stray w among => ?_⟩
    exact collectedUnmixed filed whole stray among
  rintro ⟨few,unmixed⟩
  rw [collectedWhole few unmixed]
  exact List.Subset.refl _

theorem storedDistinct (filed : Filed bucket db) (real : ∀ v ∈ db.versionEntries bucket start, v.versionID ≠ nullVersion) :
    Distinct (storedVersions db bucket start) := by
  have shownReal v (mem : v ∈ db.versionEntries bucket start) : shownID v.versionID = v.versionID := if_neg (entryID filed mem)
  refine pairwise_append.mpr ⟨?_,?_,fun v version w stray _ same => ?_⟩
  · refine imp_of_mem (R := fun a b => a.key = b.key → a.versionID ≠ b.versionID)
      (fun {a b} memA memB away named => by rw [shownReal a memA,shownReal b memB]; exact away named) ?_
    refine pairwise_map.mpr ((filter _ (filter _ db.versions.sorted)).imp_of_mem fun {a b} memA memB less named same => ?_)
    obtain ⟨storedA,insideA⟩ := Store.memScan.mp (mem_filter.mp memA).1
    obtain ⟨storedB,insideB⟩ := Store.memScan.mp (mem_filter.mp memB).1
    rw [(filed.versions a.1 a.2 storedA insideA).2.2,(filed.versions b.1 b.2 storedB insideB).2.2] at less
    have address : objectVersionKey bucket a.2.key a.2.versionID = objectVersionKey bucket b.2.key b.2.versionID :=
      congrArg₂ (objectVersionKey bucket) named same
    exact less.ne address
  · refine pairwise_map.mpr ((filter _ (filter _ db.objects.sorted)).imp_of_mem fun {a b} memA memB less named => ?_)
    obtain ⟨storedA,insideA⟩ := Store.memScan.mp (mem_filter.mp memA).1
    obtain ⟨storedB,insideB⟩ := Store.memScan.mp (mem_filter.mp memB).1
    rw [(filed.objects a.1 a.2 storedA insideA).2,(filed.objects b.1 b.2 storedB insideB).2] at less
    exact absurd (congrArg (objectKey bucket) named) less.ne
  · rw [shownReal v version,strayID stray] at same
    exact real v version same

theorem storedReal (real : ∀ v ∈ db.versionEntries bucket start, v.versionID ≠ nullVersion) (v : ObjectVersion)
    (mem : v ∈ storedVersions db bucket start) : v.versionID ≠ nullVersion := by
  rcases mem_append.mp mem with version | stray
  · exact real v version
  · rw [strayID stray]
    decide

theorem storedAlone (filed : Filed bucket db) (distinct : Distinct (storedVersions db bucket start))
    (unmixed : ∀ v ∈ strays db bucket start, ∀ w ∈ db.versionEntries bucket start, w.key ≠ v.key) {w}
    (memV : v ∈ storedVersions db bucket start) (memW : w ∈ storedVersions db bucket start) (same : v.key = w.key) (plain : v.versionID = []) :
    v = w := by
  have stray : v ∈ strays db bucket start := (mem_append.mp memV).resolve_left fun version => entryID filed version plain
  have stray' : w ∈ strays db bucket start := (mem_append.mp memW).resolve_left fun version => unmixed v stray w version same.symm
  exact distinctEq distinct memV memW same (by rw [plain,strayID stray'])

end

theorem maxVersionsPos (maxKeys : Option Int) : 0 < maxVersions maxKeys := by
  unfold maxVersions
  split
  · split
    · omega
    split
    · omega
    · omega
  · omega

def answered (item : ObjectVersion) : ObjectVersion := if emptyVersion item then item else versionEntry item

def shown (ver : ObjectVersion) : ObjectVersion := answered (versionItem ver)

def marked (x : ObjectVersion) : Bytes × Bytes := (x.key, shownID x.versionID)

def readVersions (db : Database) (sorting : ListingSort) (bucket start : Bytes) (maxKeys : Option Int) (m : Bytes × Bytes) :
    List ObjectVersion × Option (Bytes × Bytes) :=
  let page := listBucketVersions db sorting bucket start maxKeys m.1 m.2
  (page.versions ++ page.deleteMarkers, if page.isTruncated then some (page.nextKeyMarker, page.nextVersionIdMarker) else none)

def entryOf (item : ObjectVersion) : ObjectVersion := { item with versionID := if item.versionID = nullVersion then [] else item.versionID }

theorem entryOfItem {ver} (real : ver.versionID ≠ nullVersion) : entryOf (versionItem ver) = ver := by
  obtain ⟨versionID,_⟩ := ver
  by_cases plain : versionID = []
  · subst plain
    rfl
  · simp [entryOf,versionItem,shownID,plain,real]

def unified (sorting : ListingSort) (all : List ObjectVersion) (m : Bytes × Bytes) : List ObjectVersion :=
  (sorting.sort (((sorting.sort all).filter (fun ver => !skipped m.1 m.2 ver)).map versionItem)).map entryOf

def readUnified (sorting : ListingSort) (all : List ObjectVersion) (n : Nat) (m : Bytes × Bytes) :
    List ObjectVersion × Option (Bytes × Bytes) :=
  ((unified sorting all m).take n, (unified sorting all m)[n]?.map marked)

theorem splitPerm (page : List ObjectVersion) :
    ((page.filter (fun item => !emptyVersion item)).map versionEntry ++ page.filter emptyVersion).Perm (page.map answered) := by
  have parts := (filter_append_perm (fun item => !emptyVersion item) page).map answered
  rw [map_append] at parts
  refine (List.Perm.of_eq ?_).trans parts
  congr 1
  · exact map_congr_left fun item mem => by
      have filled : emptyVersion item = false := by simpa using (mem_filter.mp mem).2
      simp [answered,filled]
  simp only [Bool.not_not]
  refine (map_id _).symm.trans (map_congr_left fun item mem => ?_)
  simp [answered,(mem_filter.mp mem).2]

section
variable {sorting : ListingSort} {all : List ObjectVersion} (real : ∀ v ∈ all, v.versionID ≠ nullVersion)

include real in
theorem unifiedItems (m : Bytes × Bytes) : (unified sorting all m).map versionItem =
    sorting.sort (((sorting.sort all).filter (fun ver => !skipped m.1 m.2 ver)).map versionItem) := by
  unfold unified
  rw [map_map]
  refine (map_congr_left fun item mem => ?_).trans (map_id _)
  obtain ⟨ver,kept,rfl⟩ := mem_map.mp ((sorting.perm _).subset mem)
  have among := (sorting.perm all).subset (mem_of_mem_filter kept)
  rw [Function.comp_apply,entryOfItem (real ver among),id]

include real in
theorem unifiedPerm (m : Bytes × Bytes) : (unified sorting all m).Perm (all.filter (fun ver => !skipped m.1 m.2 ver)) := by
  have sorted := (sorting.perm (((sorting.sort all).filter (fun ver => !skipped m.1 m.2 ver)).map versionItem)).map entryOf
  refine (sorted.trans (List.Perm.of_eq ?_)).trans ((sorting.perm all).filter _)
  rw [map_map]
  refine (map_congr_left fun ver kept => ?_).trans (map_id _)
  exact entryOfItem (real ver ((sorting.perm all).subset (mem_of_mem_filter kept)))

theorem unifiedRanked (m : Bytes × Bytes) : (unified sorting all m).Pairwise (fun a b => rank a ≤ rank b) :=
  pairwise_map.mpr ((sorting.ordered _).imp fun order => rankLe.mpr order)

end

section
variable {db} {bucket start} {maxKeys} (sorting : ListingSort)

theorem pageRead (real : ∀ v ∈ collected db bucket start (maxVersions maxKeys * 10), v.versionID ≠ nullVersion) (m : Bytes × Bytes) :
    (readVersions db sorting bucket start maxKeys m).2 =
      (readUnified sorting (collected db bucket start (maxVersions maxKeys * 10)) (maxVersions maxKeys) m).2 ∧
    (readVersions db sorting bucket start maxKeys m).1.Perm
      ((readUnified sorting (collected db bucket start (maxVersions maxKeys * 10)) (maxVersions maxKeys) m).1.map shown) := by
  unfold readVersions listBucketVersions readUnified
  simp only [upToCollected,← unifiedItems real m]
  generalize unified sorting (collected db bucket start (maxVersions maxKeys * 10)) m = left
  constructor
  · rw [length_map,List.getElem?_map]
    cases found : left[maxVersions maxKeys]? with
    | none => rw [decide_eq_false (by simpa using found),if_neg (by simp),Option.map_none]
    | some x =>
      rw [decide_eq_true (List.getElem?_eq_some_iff.mp found).1]
      rfl
  · refine (splitPerm _).trans (List.Perm.of_eq ?_)
    rw [← map_take,map_map]
    rfl

end

def keeps (x e : ObjectVersion) : Bool := !skipped x.key (shownID x.versionID) e

theorem shownIDPresent (versionID : Bytes) : shownID versionID ≠ [] := by
  unfold shownID
  split
  · decide
  · assumption

theorem keepsIff {x e} (named : x.key ≠ []) : keeps x e = true ↔ x.key < e.key ∨ x.key = e.key ∧ shownID x.versionID ≤ e.versionID := by
  simp only [keeps,skipped,Bool.not_eq_true',Bool.or_eq_false_iff,decide_eq_false_iff_not,not_and,not_lt]
  constructor
  · rintro ⟨above,within⟩
    rcases (above named).lt_or_eq with more | same
    · exact .inl more
    · exact .inr ⟨same,within same (shownIDPresent _)⟩
  · rintro (more | ⟨same,order⟩)
    · exact ⟨fun _ => more.le,fun same => absurd same more.ne⟩
    · exact ⟨fun _ => same.le,fun _ _ => order⟩

theorem shownIDLe {a b} (order : shownID a ≤ b) : shownID b = b := by
  refine if_neg fun absent => shownIDPresent a ?_
  subst absent
  exact le_antisymm order (nilLe _)

theorem keepsChain {x y e} (named : x.key ≠ []) (named' : y.key ≠ []) (first : keeps x y = true) (second : keeps y e = true) :
    keeps x e = true := by
  rw [keepsIff named] at first ⊢
  rw [keepsIff named'] at second
  rcases first with more | ⟨same,order⟩
  · rcases second with more' | ⟨same',_⟩
    · exact .inl (more.trans more')
    · exact .inl (same' ▸ more)
  rcases second with more' | ⟨same',order'⟩
  · exact .inl (same ▸ more')
  · refine .inr ⟨same.trans same',order.trans ?_⟩
    rwa [shownIDLe order] at order'

section
variable {l : List ObjectVersion} {n : Nat} {x : ObjectVersion}
variable {i : Nat} {e : ObjectVersion}

theorem untied (distinct : Distinct l) (alone : ∀ a ∈ l, ∀ b ∈ l, a.key = b.key → a.versionID = [] → a = b) (named : x.key ≠ [])
    (mem : x ∈ l) (among : e ∈ l) (same : rank e = rank x) (kept : keeps x e = true ↔ place x ≤ place e) : e = x := by
  have key : x.key = e.key := (congrArg Prod.fst (toLex_inj.mp same)).symm
  rw [keepsIff named,placeLe,same] at kept
  simp only [key,lt_irrefl,false_or,true_and] at kept
  by_cases order : shownID x.versionID ≤ e.versionID
  · have below := kept.mp order
    rw [shownIDLe order] at below
    exact distinctEq distinct among mem key.symm (by rw [shownIDLe order]; exact le_antisymm below order)
  have above := not_le.mp (kept.not.mp order)
  have plain : e.versionID = [] := by
    by_contra present
    rw [show shownID e.versionID = e.versionID from if_neg present] at above
    exact order above.le
  exact alone e among x mem key.symm plain

theorem filterIff {p q} : l.filter p = l.filter q ↔ ∀ e ∈ l, (p e = true ↔ q e = true) := by
  refine ⟨fun same e mem => ?_,fun same => filter_congr fun e mem => Bool.eq_iff_iff.mpr (same e mem)⟩
  have both : e ∈ l.filter p ↔ e ∈ l.filter q := same ▸ Iff.rfl
  simpa [mem] using both

theorem keepsSharp (distinct : Distinct l) (alone : ∀ a ∈ l, ∀ b ∈ l, a.key = b.key → a.versionID = [] → a = b) (named : x.key ≠ [])
    (mem : x ∈ l) : (∀ e ∈ l, (keeps x e = true ↔ place x ≤ place e)) ↔
      (∀ e ∈ l, e.key = x.key → (e.versionID < shownID x.versionID ↔ x.lastModified < e.lastModified)) ∧ ∀ e ∈ l, rank e = rank x → e = x := by
  have order {e} (other : rank e ≠ rank x) : place x ≤ place e ↔ rank x ≤ rank e := by
    rw [placeLe]
    exact ⟨fun less => less.elim le_of_lt fun both => absurd both.1.symm other,fun less => .inl (lt_of_le_of_ne less other.symm)⟩
  constructor
  · intro sharp
    have only : ∀ e ∈ l, rank e = rank x → e = x := fun e among same => untied distinct alone named mem among same (sharp e among)
    refine ⟨fun e among named' => ?_,only⟩
    have kept := sharp e among
    rw [keepsIff named,named'] at kept
    simp only [lt_irrefl,false_or,true_and] at kept
    rw [← not_le,kept]
    by_cases same : rank e = rank x
    · cases only e among same
      simp
    · rw [order same,rankLe,named']
      simp only [lt_irrefl,false_or,true_and,not_le]
  · rintro ⟨aligned,only⟩ e among
    by_cases same : rank e = rank x
    · cases only e among same
      have self := (aligned x mem rfl).not.mpr (lt_irrefl _)
      exact iff_of_true ((keepsIff named).mpr (.inr ⟨rfl,not_lt.mp self⟩)) le_rfl
    rw [order same,keepsIff named,rankLe]
    refine or_congr_right (and_congr_right fun named' => ?_)
    rw [← not_lt,← not_lt,not_iff_not]
    exact aligned e among named'.symm

theorem takeRanked {y} (strict : Strict l) (found : l[i]? = some y) (mem : e ∈ l.take (i + 1)) : rank e ≤ rank y := by
  rw [take_add_one,found,mem_append] at mem
  rcases mem with early | here
  · obtain ⟨fits,same⟩ := List.getElem?_eq_some_iff.mp found
    have split : l = l.take i ++ y :: l.drop (i + 1) := by
      rw [← same,← drop_eq_getElem_cons fits,take_append_drop]
    exact placeRank ((pairwise_append.mp (split ▸ strict)).2.2 e early y mem_cons_self).le
  · exact (congrArg rank (mem_singleton.mp here)).le

theorem standsAt (strict : Strict l) (found : l[i]? = some x) : mayStand l x i := by
  have count := (dropFrom strict found).2
  constructor
  · rw [← count]
    refine (monotone_filter_right l fun e before => decide_eq_true ?_).length_le
    exact not_le.mp fun order => absurd (placeRank order) (not_le.mpr (rankLt.mpr before))
  obtain ⟨_,_⟩ := List.getElem?_eq_some_iff.mp found
  have parts := length_eq_length_filter_add (l := l.take (i + 1)) (precedes · x)
  rw [length_take] at parts
  have before := ((take_sublist (i + 1) l).filter (precedes · x)).length_le
  have beside : ((l.take (i + 1)).filter (fun e => !precedes e x)).length ≤ (l.filter (tied · x)).length := by
    rw [filter_congr fun e mem => ?_]
    · exact ((take_sublist (i + 1) l).filter _).length_le
    · rw [Bool.eq_iff_iff,Bool.not_eq_true',← rankEq,Bool.eq_false_iff,Ne,← rankLt,not_lt]
      exact ⟨le_antisymm (takeRanked strict found mem),fun same => same.ge⟩
  omega

theorem standsTied (tie : rank e = rank x) (stands : mayStand l x i) : mayStand l e i := by
  have before : (precedes · e) = (precedes · x) := funext fun a => Bool.eq_iff_iff.mpr (by rw [← rankLt,← rankLt,tie])
  have beside : (tied · e) = (tied · x) := funext fun a => Bool.eq_iff_iff.mpr (by rw [← rankEq,← rankEq,tie])
  unfold mayStand
  rw [before,beside]
  exact stands

theorem standsOnce {y} (strict : Strict l) (found : l[i]? = some y) (only : ∀ e ∈ l, rank e = rank y → e = y)
    (mem : x ∈ l) (stands : mayStand l x i) : x = y := by
  obtain ⟨_,_⟩ := stands
  rcases lt_trichotomy (rank x) (rank y) with before | same | behind
  · have under := (standsAt strict found).1
    have parts := length_eq_length_filter_add (l := l.filter (precedes · y)) (precedes · x)
    have first : l.filter (precedes · x) = (l.filter (precedes · y)).filter (precedes · x) := by
      rw [filter_filter]
      refine filter_congr fun e _ => Bool.eq_iff_iff.mpr ?_
      rw [Bool.and_eq_true,← rankLt,← rankLt]
      exact ⟨fun less => ⟨less,less.trans before⟩,And.left⟩
    have second : (l.filter (tied · x)).length ≤ ((l.filter (precedes · y)).filter (fun e => !precedes e x)).length := by
      rw [filter_filter]
      refine (monotone_filter_right l fun e tie => ?_).length_le
      have same := rankEq.mpr tie
      rw [Bool.and_eq_true,Bool.not_eq_true',Bool.eq_false_iff,Ne,← rankLt,← rankLt,same]
      exact ⟨lt_irrefl _,before⟩
    rw [← first] at parts
    omega
  · exact only x mem same
  obtain ⟨_,_⟩ := List.getElem?_eq_some_iff.mp found
  have all : (l.take (i + 1)).filter (precedes · x) = l.take (i + 1) :=
    filter_eq_self.mpr fun e early => rankLt.mp ((takeRanked strict found early).trans_lt behind)
  have more := ((take_sublist (i + 1) l).filter (precedes · x)).length_le
  rw [all,length_take] at more
  omega

theorem sharpBoundary (strict : Strict l) (distinct : Distinct l) (named : ∀ v ∈ l, v.key ≠ [])
    (alone : ∀ a ∈ l, ∀ b ∈ l, a.key = b.key → a.versionID = [] → a = b) : Sharp n keeps l l ↔ ∀ x ∈ l, ∀ j,
      mayStand l x ((j + 1) * n) → ∀ e ∈ l, e.key = x.key → (e.versionID < shownID x.versionID ↔ x.lastModified < e.lastModified) := by
  have same x mem := keepsSharp distinct alone (named x mem) mem
  have boundary {i} {x} (found : l[i]? = some x) : l.filter (keeps x) = l.drop i ↔ ∀ e ∈ l, (keeps x e = true ↔ place x ≤ place e) := by
    rw [(dropFrom strict found).1,filterIff]
    simp only [decide_eq_true_eq]
  constructor
  · intro sharp x mem j stands
    have fits : (j + 1) * n < l.length := by
      have parts := length_eq_length_filter_add (l := l) (precedes · x)
      have beside : (l.filter (tied · x)).length ≤ (l.filter (fun e => !precedes e x)).length := by
        refine (monotone_filter_right l fun e tie => ?_).length_le
        rw [Bool.not_eq_true',Bool.eq_false_iff,Ne,← rankLt,rankEq.mpr tie]
        exact lt_irrefl _
      have high := stands.2
      omega
    have found := List.getElem?_eq_getElem fits
    obtain ⟨aligned,only⟩ := (same _ (getElem_mem fits)).mp ((boundary found).mp (sharp j _ found))
    cases standsOnce strict found only mem stands
    exact aligned
  · intro aligned j x found
    have mem := List.mem_of_getElem? found
    have here := aligned x mem j (standsAt strict found)
    refine (boundary found).mpr ((same x mem).mpr ⟨here,fun e among tie => ?_⟩)
    have key : e.key = x.key := congrArg Prod.fst (toLex_inj.mp tie)
    have time : e.lastModified = x.lastModified := toDual_inj.mp (congrArg Prod.snd (toLex_inj.mp tie))
    have there := aligned e among j (standsTied tie (standsAt strict found)) x mem key.symm
    have low : shownID x.versionID ≤ e.versionID := not_lt.mp ((here e among key).not.mpr time.le.not_gt)
    have high : shownID e.versionID ≤ x.versionID := not_lt.mp (there.not.mpr time.ge.not_gt)
    refine distinctEq distinct among mem key (le_antisymm ?_ ?_)
    · rwa [shownIDLe high]
    · rwa [shownIDLe low]

end

section
variable {db : Database} {bucket start : Bytes} {all l : List ObjectVersion} {n : Nat}

theorem distinctShown (distinct : Distinct l) : (l.map shown).Nodup := by
  refine pairwise_map.mpr (distinct.imp fun {a b} away same => ?_)
  have parts v : (shown v).key = v.key ∧ (shown v).versionID = shownID v.versionID := by
    unfold shown answered
    split
    · exact ⟨rfl,rfl⟩
    · exact ⟨rfl,rfl⟩
  refine away ?_ ?_
  · rw [← (parts a).1,same,(parts b).1]
  · rw [← (parts a).2,same,(parts b).2]

theorem placeItem (v : ObjectVersion) : place (versionItem v) = place v := by
  have same : shownID (shownID v.versionID) = shownID v.versionID := if_neg (shownIDPresent _)
  exact congrArg (fun id => toLex (rank v, toDual id)) same

section
variable (real : ∀ v ∈ all, v.versionID ≠ nullVersion)
include real

theorem latestStops (distinct : Distinct all) (m : Bytes × Bytes) :
    Stops n (readUnified latestFirst all n) marked m ((latestFirst.sort all).filter (fun ver => !skipped m.1 m.2 ver)) := by
  have fixed : unified latestFirst all m = (latestFirst.sort all).filter (fun ver => !skipped m.1 m.2 ver) := by
    have strict : Strict (((latestFirst.sort all).filter (fun ver => !skipped m.1 m.2 ver)).map versionItem) := by
      refine pairwise_map.mpr ((filter _ (latestStrict distinct)).imp fun {a b} less => ?_)
      rwa [placeItem,placeItem]
    have sorted : latestFirst.sort _ = _ := insertionSort_eq (strict.imp le_of_lt)
    unfold unified
    rw [sorted,map_map]
    refine (map_congr_left fun ver kept => ?_).trans (map_id _)
    exact entryOfItem (real ver ((latestFirst.perm all).subset (mem_of_mem_filter kept)))
  simp only [Stops,readUnified,fixed]
  generalize (latestFirst.sort all).filter (fun ver => !skipped m.1 m.2 ver) = left
  cases found : left[n]? with
  | none =>
    have short := List.getElem?_eq_none_iff.mp found
    exact .inl ⟨short,rfl,by rw [take_of_length_le short]⟩
  | some x => exact .inr ⟨x,rfl,rfl,.refl _⟩

theorem anyStops {sorting} (ranked : l.Pairwise (fun a b => rank a ≤ rank b)) (distinct : l.Nodup) {m}
    (perm : (all.filter (fun ver => !skipped m.1 m.2 ver)).Perm l) (only : ∀ x, l[n]? = some x → ∀ e ∈ l, rank e = rank x → e = x) : Stops n
    (readUnified sorting all n) marked m l := by
  have whole : (unified sorting all m).Perm l := (unifiedPerm real m).trans perm
  cases found : l[n]? with
  | none =>
    have short := List.getElem?_eq_none_iff.mp found
    have short' : (unified sorting all m).length ≤ n := whole.length_eq.le.trans short
    refine .inl ⟨short,?_,?_⟩
    · rw [readUnified,List.getElem?_eq_none short',Option.map_none]
    · rw [readUnified,take_of_length_le short']
      exact whole
  | some x =>
    obtain ⟨next,front⟩ := cutUnique ranked (unifiedRanked m) distinct whole found (only x found)
    exact .inr ⟨x,found,by rw [readUnified,next,Option.map_some],front⟩

theorem anyComplete {sorting} (perm : all.Perm l) (strict : Strict l) (distinct : Distinct l) (named : ∀ v ∈ l, v.key ≠ [])
    (alone : ∀ a ∈ l, ∀ b ∈ l, a.key = b.key → a.versionID = [] → a = b) (positive : 0 < n) (sharp : Sharp n keeps l l) : Complete
    (readUnified sorting all n) ([], []) l := by
  have only {i} j (place_ : i = (j + 1) * n) {x} (found : l[i]? = some x) : ∀ e ∈ l, rank e = rank x → e = x := by
    have mem := List.mem_of_getElem? found
    refine ((keepsSharp distinct alone (named x mem) mem).mp ?_).2
    have kept := sharp j x (place_ ▸ found)
    rw [← place_,(dropFrom strict found).1,filterIff] at kept
    simpa only [decide_eq_true_eq] using kept
  refine stopsComplete positive (anyStops real (strictRanked strict) (distinctNodup distinct) ?_ fun x found => ?_) fun j x found => ?_
  · rw [filter_eq_self.mpr (by simp [skipped])]
    exact perm
  · exact only 0 (by omega) found
  refine anyStops real ((strictRanked strict).sublist (drop_sublist ..)) ((distinctNodup distinct).sublist (drop_sublist ..)) ?_ ?_
  · have kept := sharp j x found
    rw [← kept]
    exact perm.filter _
  intro y here e mem
  rw [List.getElem?_drop] at here
  exact only (j + 1) (Nat.succ_mul (j + 1) n).symm here e (mem_of_mem_drop mem)

end

theorem mayStandPerm (perm : all.Perm l) (x : ObjectVersion) (i : Nat) : mayStand all x i ↔ mayStand l x i := by
  unfold mayStand
  rw [(perm.filter (precedes · x)).length_eq,(perm.filter (tied · x)).length_eq]

theorem latestAligned (filed : Filed bucket db) (real : ∀ v ∈ db.versionEntries bucket start, v.versionID ≠ nullVersion) (positive : 0 < n)
    (complete : Complete (readUnified latestFirst (collected db bucket start (n * 10)) n) ([], []) (storedVersions db bucket start)) :
    Aligned n db bucket start := by
  have distinct := storedDistinct filed real
  have sub := collectedStored db bucket start (n * 10)
  have real' := storedReal real
  obtain ⟨total,bound,gathered,same⟩ := complete
  have pages m : (readUnified latestFirst (collected db bucket start (n * 10)) n m).1 ⊆ collected db bucket start (n * 10) :=
    fun v mem => mem_of_mem_filter ((unifiedPerm (fun v mem => real' v (sub.subset mem)) m).subset (mem_of_mem_take mem))
  have reached : storedVersions db bucket start ⊆ collected db bucket start (n * 10) :=
    fun v mem => gatherSubset pages (gathered bound le_rfl) (same.symm.subset mem)
  obtain ⟨few,unmixed⟩ := (wholeIff filed (distinctNodup distinct)).mp reached
  have whole := collectedWhole few unmixed
  rw [whole] at gathered
  have strict := latestStrict distinct
  have perm := latestFirst.perm (storedVersions db bucket start)
  have named v (mem : v ∈ latestFirst.sort (storedVersions db bucket start)) : v.key ≠ [] := storedKey filed (perm.subset mem)
  have first := latestStops (n := n) real' distinct ([], [])
  rw [filter_eq_self.mpr (by simp [skipped])] at first
  have sharp := (sharpIff (fun x _ => latestStops real' distinct (marked x))
    (fun x inX y inY e _ => keepsChain (named x inX) (named y inY)) positive (distinctNodup (distinctPerm perm.symm distinct)) first).mp
    ⟨total,bound,gathered,same.trans perm.symm⟩
  have boundary := (sharpBoundary strict (distinctPerm perm.symm distinct) named fun a memA b memB =>
    storedAlone filed distinct unmixed (perm.subset memA) (perm.subset memB)).mp sharp
  refine ⟨few,unmixed,fun x mem j stands e among => ?_⟩
  exact boundary x (perm.symm.subset mem) j ((mayStandPerm perm.symm x _).mp stands) e (perm.symm.subset among)

-- The listing of records that are all read back as they were written.
theorem ownListingLossless (filed : Filed bucket db) (real : ∀ v ∈ db.versionEntries bucket start, v.versionID ≠ nullVersion)
    (maxKeys : Option Int) :
    (∀ sorting, Complete (readVersions db sorting bucket start maxKeys) ([], []) ((storedVersions db bucket start).map shown)) ↔
      Aligned (maxVersions maxKeys) db bucket start := by
  have distinct := storedDistinct filed real
  have sub := collectedStored db bucket start (maxVersions maxKeys * 10)
  have real' v mem := storedReal real v (sub.subset mem)
  have raw sorting := completeShown (fun m => (pageRead sorting real' m).1) (fun m => (pageRead sorting real' m).2)
    (fun m v mem => sub.subset (mem_of_mem_filter ((unifiedPerm real' m).subset (mem_of_mem_take mem))))
    (distinctShown distinct) ([], [])
  simp only [raw]
  constructor
  · intro complete
    exact latestAligned filed real (maxVersionsPos maxKeys) (complete latestFirst)
  intro aligned sorting
  have perm := latestFirst.perm (storedVersions db bucket start)
  have distinct' := distinctPerm perm.symm distinct
  have named v (mem : v ∈ latestFirst.sort (storedVersions db bucket start)) : v.key ≠ [] := storedKey filed (perm.subset mem)
  have alone a memA b (memB : b ∈ latestFirst.sort (storedVersions db bucket start)) : a.key = b.key → a.versionID = [] → a = b :=
    storedAlone filed distinct aligned.unmixed (perm.subset memA) (perm.subset memB)
  have sharp := (sharpBoundary (latestStrict distinct) distinct' named alone).mpr fun x mem j stands e among =>
    aligned.boundary x (perm.subset mem) j ((mayStandPerm perm x _).mp stands) e (perm.subset among)
  rw [collectedWhole aligned.few aligned.unmixed] at real' ⊢
  obtain ⟨total,bound,gathered,same⟩ := anyComplete real' perm.symm (latestStrict distinct) distinct' named alone (maxVersionsPos maxKeys) sharp
  exact ⟨total,bound,gathered,same.trans perm⟩

end

/-! Records read back. -/

structure Texts (v : ObjectVersion) : Prop where
  key : Text v.key
  versionID : Text v.versionID
  etag : Text v.etag
  storageClass : Text v.storageClass

instance (v : ObjectVersion) : Decidable (Texts v) :=
  decidable_of_iff (Text v.key ∧ Text v.versionID ∧ Text v.etag ∧ Text v.storageClass)
    ⟨fun all => ⟨all.1, all.2.1, all.2.2.1, all.2.2.2⟩, fun texts => ⟨texts.key, texts.versionID, texts.etag, texts.storageClass⟩⟩

/-- No key outside the prefix is read back as one inside. -/
def Outside (db : Database) (bucket start : Bytes) : Prop := ∀ v ∈ storedVersions db bucket [], start <+: coerced v.key → start <+: v.key

section
variable {db : Database} {bucket start : Bytes} {limit : Nat} {maxKeys : Option Int} {sorting : ListingSort} {v : ObjectVersion}

theorem shownTexts : Texts (shown v) ↔ Texts v := by
  have id : Text (shownID v.versionID) ↔ Text v.versionID := by
    unfold shownID
    split
    · rename_i absent
      rw [absent]
      decide
    · rfl
  have given : Text (storageClassOrStandard v.storageClass) ↔ Text v.storageClass := by
    unfold storageClassOrStandard
    split
    · rename_i absent
      rw [absent]
      decide
    · rfl
  unfold shown answered
  split
  · exact ⟨fun texts => ⟨texts.key,id.mp texts.versionID,texts.etag,texts.storageClass⟩,
      fun texts => ⟨texts.key,id.mpr texts.versionID,texts.etag,texts.storageClass⟩⟩
  · exact ⟨fun texts => ⟨texts.key,id.mp texts.versionID,texts.etag,given.mp texts.storageClass⟩,
      fun texts => ⟨texts.key,id.mpr texts.versionID,texts.etag,given.mpr texts.storageClass⟩⟩

theorem versionTexts (obj : ObjectMetadata) : Texts (versionOf (unmarshalled obj)) := ⟨coercedText _,coercedText _,coercedText _,coercedText _⟩

theorem collectedTexts (mem : v ∈ collected (readBack db) bucket start limit) : Texts v := by
  rcases mem_append.mp ((collectedStored ..).subset mem) with version | stray
  · obtain ⟨e,scanned,rfl⟩ := mem_map.mp version
    obtain ⟨e',-,rfl⟩ := mem_map.mp (Store.scanMapValues unmarshalled db.versions _ ▸ mem_of_mem_filter scanned)
    exact versionTexts e'.2
  · obtain ⟨e,scanned,rfl⟩ := mem_map.mp stray
    obtain ⟨e',-,rfl⟩ := mem_map.mp (Store.scanMapValues unmarshalled db.objects _ ▸ mem_of_mem_filter scanned)
    exact ⟨coercedText _,rfl,coercedText _,rfl⟩

theorem pageTexts {m} (mem : v ∈ (readVersions (readBack db) sorting bucket start maxKeys m).1) : Texts v := by
  have item {item} (listed : item ∈ (sorting.sort ((((readBack db).listAllObjectVersions sorting bucket start (maxVersions maxKeys * 10)).filter
      (fun ver => !skipped m.1 m.2 ver)).map versionItem)).take (maxVersions maxKeys)) : ∃ ver, Texts ver ∧ item = versionItem ver := by
    obtain ⟨ver,kept,rfl⟩ := mem_map.mp ((sorting.perm _).subset (mem_of_mem_take listed))
    have among := mem_of_mem_filter kept
    rw [upToCollected] at among
    exact ⟨ver,collectedTexts ((sorting.perm _).subset among),rfl⟩
  rcases mem_append.mp mem with entry | marker
  · obtain ⟨_,listed,rfl⟩ := mem_map.mp entry
    obtain ⟨filled,present⟩ := mem_filter.mp listed
    obtain ⟨ver,texts,rfl⟩ := item filled
    have same : shown ver = versionEntry (versionItem ver) := if_neg (by simpa using present)
    exact same ▸ shownTexts.mpr texts
  · obtain ⟨filled,empty⟩ := mem_filter.mp marker
    obtain ⟨ver,texts,rfl⟩ := item filled
    have same : shown ver = versionItem ver := if_pos empty
    exact same ▸ shownTexts.mpr texts

theorem completeTexts (complete : Complete (readVersions (readBack db) sorting bucket start maxKeys) ([], [])
    ((storedVersions db bucket start).map shown)) : ∀ v ∈ storedVersions db bucket start, Texts v := by
  obtain ⟨total,bound,gathered,perm⟩ := complete
  have all : ∀ v ∈ total, Texts v := gatherEach (fun _ _ mem => pageTexts mem) (gathered bound le_rfl)
  exact fun v mem => shownTexts.mp (all _ (perm.symm.subset (mem_map.mpr ⟨v,mem,rfl⟩)))

theorem sameShown {α β γ : Type} {f : α → β} {l : List α} {p : β → Bool} {q : α → Bool} {g : β → γ} {h : α → γ} (same : ∀ e ∈ l, p (f e) = q e)
    (shows : ∀ e ∈ l, q e = true → g (f e) = h e) : ((l.map f).filter p).map g = (l.filter q).map h := by
  rw [filter_map,map_map,show l.filter (p ∘ f) = l.filter q from filter_congr same]
  exact map_congr_left fun e mem => shows e (mem_of_mem_filter mem) (mem_filter.mp mem).2

theorem versionBack {obj} (texts : Texts (versionOf obj)) : versionOf (unmarshalled obj) = versionOf obj := by
  have key : coerced obj.key = obj.key := texts.key
  have id : coerced obj.versionID = obj.versionID := texts.versionID
  have etag : coerced obj.etag = obj.etag := texts.etag
  have storageClass : coerced obj.storageClass = obj.storageClass := texts.storageClass
  simp only [versionOf,unmarshalled,key,id,etag,storageClass]

theorem plainBack {obj} (texts : Texts (plainVersion obj)) : plainVersion (unmarshalled obj) = plainVersion obj := by
  have key : coerced obj.key = obj.key := texts.key
  have etag : coerced obj.etag = obj.etag := texts.etag
  simp only [plainVersion,versionOf,unmarshalled,key,etag]

theorem entryStored {e} (scanned : e ∈ db.versions.scan (versionSpace bucket)) (under : start <+: e.2.key) :
    versionOf e.2 ∈ storedVersions db bucket start :=
  mem_append_left _ (mem_map.mpr ⟨e,mem_filter.mpr ⟨scanned,decide_eq_true under⟩,rfl⟩)

theorem strayStored {e} (scanned : e ∈ db.objects.scan (objectSpace bucket)) (under : start <+: e.2.key)
    (alone : (view bucket db e.2.key).versions e.2.versionID = none) : plainVersion e.2 ∈ storedVersions db bucket start :=
  mem_append_right _ (mem_map.mpr ⟨e,mem_filter.mpr ⟨scanned,decide_eq_true ⟨under,alone⟩⟩,rfl⟩)

theorem objectStored {e} (scanned : e ∈ db.objects.scan (objectSpace bucket)) (under : start <+: e.2.key) :
    ∃ v ∈ storedVersions db bucket start, v.key = e.2.key := by
  cases found : (view bucket db e.2.key).versions e.2.versionID with
  | none => exact ⟨_,strayStored scanned under found,rfl⟩
  | some other =>
    obtain ⟨stored,named⟩ := versionsInIff.mp found
    have listed : (objectVersionKey bucket e.2.key e.2.versionID, other) ∈ db.versions.scan (versionSpace bucket) :=
      Store.memScan.mpr ⟨stored,inVersionSpace ..⟩
    exact ⟨_,entryStored listed (named.symm ▸ under),named⟩

section
variable (texts : ∀ v ∈ storedVersions db bucket start, Texts v) (outside : Outside db bucket start)
include texts outside

theorem entriesSame : (readBack db).versionEntries bucket start = db.versionEntries bucket start := by
  unfold Database.versionEntries
  rw [show (readBack db).versions = db.versions.mapValues unmarshalled from rfl,Store.scanMapValues]
  refine sameShown (fun e scanned => decide_eq_decide.mpr ⟨outside _ (entryStored scanned nil_prefix),fun under => ?_⟩) fun e scanned under => ?_
  · rwa [show (unmarshalled e.2).key = e.2.key from (texts _ (entryStored scanned under)).key]
  · exact versionBack (texts _ (entryStored scanned (of_decide_eq_true under)))

theorem plainsSame : plains (readBack db) bucket start = plains db bucket start := by
  unfold plains
  rw [entriesSame texts outside,show (readBack db).objects = db.objects.mapValues unmarshalled from rfl,Store.scanMapValues]
  have own {e} (scanned : e ∈ db.objects.scan (objectSpace bucket)) (under : start <+: e.2.key) : (unmarshalled e.2).key = e.2.key := by
    obtain ⟨v,stored,named⟩ := objectStored scanned under
    have kept : coerced v.key = v.key := (texts v stored).key
    rwa [named] at kept
  refine sameShown (fun e scanned => decide_eq_decide.mpr ⟨fun plain => ?_,fun plain => ?_⟩) fun e scanned plain => ?_
  · obtain ⟨v,stored,named⟩ := objectStored scanned (show [] <+: e.2.key from nil_prefix)
    have under : start <+: e.2.key := named ▸ outside v stored (named.symm ▸ plain.2)
    rwa [own scanned under] at plain
  · rwa [own scanned plain.2]
  · obtain ⟨absent,under⟩ := of_decide_eq_true plain
    exact plainBack (texts _ (strayStored scanned under (plainStray db bucket start absent under)))

theorem readSame : readVersions (readBack db) sorting bucket start maxKeys = readVersions db sorting bucket start maxKeys := by
  have same limit : collected (readBack db) bucket start limit = collected db bucket start limit := by
    have short := collectedCases (readBack db) bucket start limit
    rw [entriesSame texts outside,plainsSame texts outside] at short
    rcases short with ⟨short,here⟩ | ⟨long,here⟩
    · rcases collectedCases db bucket start limit with ⟨-,there⟩ | ⟨long,-⟩
      · exact here.trans there.symm
      · omega
    · rcases collectedCases db bucket start limit with ⟨short,-⟩ | ⟨-,there⟩
      · omega
      · exact here.trans there.symm
  funext m
  unfold readVersions listBucketVersions
  simp only [upToCollected,same]

end

end

def putPair : List Event := [⟨callAt 0, .put (ascii "a") [1] empty⟩, ⟨callAt 1, .put (ascii "c") [2] empty⟩]

end MaxIOFS.VersionPages
