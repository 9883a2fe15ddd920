import MaxIOFS.BucketCounters
import MaxIOFS.FlatPages

/-! Counting a bucket again from its current records, against the counters the calls kept.
The scan sees every current record but the delete markers, and only the current sizes; the
counters leave the implicit folders out and hold the bytes of all versions. -/
namespace MaxIOFS.MetadataStore
open ByteString Records

def Database.getBucketStats (db : Database) (tenantID name : Bytes) : Except MetadataError (Int × Int) :=
  (db.getBucket tenantID name).map (fun bucket => (bucket.objectCount, bucket.totalSize))

def Database.countedObjects (db : Database) (path : Bytes) : List ObjectMetadata :=
  ((db.objects.scan (ascii "obj:" ++ path ++ colon)).map Prod.snd).filter (fun obj => !decide (obj.etag = [] ∧ obj.size = 0))

def Database.recalculateBucketStats (db : Database) (tenantID name : Bytes) : Option Database :=
  let counted := db.countedObjects (bucketPathForMutation tenantID name)
  (db.buckets.get (bucketKey tenantID name)).map (fun bucket => { db with
    buckets := db.buckets.set (bucketKey tenantID name)
      { bucket with objectCount := counted.length, totalSize := (counted.map ObjectMetadata.size).sum } })

end MaxIOFS.MetadataStore

namespace MaxIOFS.Recalculation
open ByteString (Bytes ascii slash splitFirst)
open MetadataStore Records ObjectManager VersionHistory ManagerRuns Inventory BucketCounters Runs OrderedStore List Store

def Unchanged (db : Database) (tenantID name : Bytes) : Prop :=
  ∃ next, db.recalculateBucketStats tenantID name = some next ∧ next.getBucketStats tenantID name = db.getBucketStats tenantID name

def NoFolders (db : Database) (path : Bytes) : Prop := ∀ e ∈ db.objects.scan (objectSpace path), implicitFolder e.2 = false

def OldVersionsEmpty (db : Database) (path : Bytes) : Prop := ∀ e ∈ db.versions.scan (versionSpace path), e.2.isLatest = false → e.2.size = 0

theorem splitFirstNone {c a} (free : c ∉ a) : splitFirst c a = (a, none) := by
  induction a with
  | nil => rfl
  | cons head rest ih =>
    obtain ⟨other,free⟩ := not_or.mp (mem_cons.not.mp free)
    rw [splitFirst,if_neg (Ne.symm other),ih free]

theorem parsedPath {tenantID name} (tenant : slash ∉ tenantID) (single : slash ∉ name) :
    parseBucketPath (bucketPathForMutation tenantID name) = (tenantID, name) := by
  unfold parseBucketPath bucketPathForMutation
  split_ifs with global
  · rw [splitFirstNone single,global]
  · rw [append_assoc,singleton_append,FlatPages.splitFirstAt tenant]

section
variable {path : Bytes} {on : Bool} {s : State}

theorem countedEq (db : Database) (path : Bytes) : db.countedObjects path =
    ((db.objects.scan (objectSpace path)).map Prod.snd).filter (fun obj => !isMetadataDeleteMarker obj) := by
  refine filter_congr fun obj _ => ?_
  rw [isMetadataDeleteMarker,decide_eq_decide.mpr and_comm]

theorem currentUndisguised (balanced : Balanced path on s) {e} (mem : e ∈ s.db.objects.scan (objectSpace path)) :
    (e.2.versionID = [] → isMetadataDeleteMarker e.2 = false) ∧ (implicitFolder e.2 = true → e.2.versionID = []) := by
  obtain ⟨stored,inside⟩ := memScan.mp mem
  rw [(balanced.filed.objects e.1 e.2 stored inside).2] at stored
  have spared : (disguised (path ++ colon)).object e.2 = 0 := Flaw.objectSpared balanced.undisguised prefix_rfl stored
  have fine : ¬ (e.2.versionID = [] ∧ isMetadataDeleteMarker e.2 = true ∨ e.2.versionID ≠ [] ∧ implicitFolder e.2 = true) := fun bad => by
    simp only [disguised,if_pos bad] at spared
    omega
  refine ⟨fun plain => ?_,fun folder => ?_⟩
  · exact Bool.eq_false_iff.mpr fun marker => fine (.inl ⟨plain,marker⟩)
  · exact by_contra fun version => fine (.inr ⟨version,folder⟩)

theorem countedKeys (balanced : Balanced path on s) : ((s.db.countedObjects path).length : Int) = visibleKeys s.db path ↔ NoFolders s.db path := by
  have fewer : ((s.db.objects.scan (objectSpace path)).filter (fun e => !isMetadataDeleteMarker e.2)).filter (fun e => !implicitFolder e.2) =
      (s.db.objects.scan (objectSpace path)).filter (fun e => shown e.2) := filter_filter
  rw [countedEq,filter_map,length_map,visibleKeys,← fewer,Int.ofNat_inj,eq_comm]
  refine length_filter_eq_length_iff.trans ⟨?_,?_⟩
  · intro none_ e mem
    refine Bool.eq_false_iff.mpr fun folder => ?_
    obtain ⟨plain,version⟩ := currentUndisguised balanced mem
    have kept := none_ e (mem_filter.mpr ⟨mem,by simp [plain (version folder)]⟩)
    simp [folder] at kept
  · intro none_ e mem
    simp [none_ e (mem_filter.mp mem).1]

theorem splitSum {γ} (keep : γ → Bool) (f : γ → Int) (items : List γ) :
    (items.map f).sum = ((items.filter keep).map f).sum + ((items.filter (fun x => !keep x)).map f).sum := by
  rw [← sum_append,← map_append]
  exact ((filter_append_perm keep items).map f).sum_eq.symm

theorem countedBytes (db : Database) (path : Bytes) :
    ((db.countedObjects path).map ObjectMetadata.size).sum = ((db.objects.scan (objectSpace path)).map (fun e => e.2.size)).sum := by
  have markers : ((((db.objects.scan (objectSpace path)).map Prod.snd).filter (fun obj => !(!isMetadataDeleteMarker obj))).map
      ObjectMetadata.size).sum = 0 := sum_eq_zero fun n mem => by
    obtain ⟨obj,kept,rfl⟩ := mem_map.mp mem
    have marker : isMetadataDeleteMarker obj = true := by simpa using (mem_filter.mp kept).2
    exact (of_decide_eq_true marker).1
  have parts := splitSum (fun obj => !isMetadataDeleteMarker obj) ObjectMetadata.size ((db.objects.scan (objectSpace path)).map Prod.snd)
  rw [markers,Int.add_zero,map_map] at parts
  rw [countedEq]
  exact parts.symm

def versioned (e : Bytes × ObjectMetadata) : Bool := decide (e.2.versionID ≠ [])

theorem recordsNodup {m : Store Bytes ObjectMetadata} {p : Bytes} (address : ObjectMetadata → Bytes)
    (own : ∀ q obj, m.get q = some obj → p <+: q → q = address obj) (keep : Bytes × ObjectMetadata → Bool) :
    (((m.scan p).filter keep).map Prod.snd).Nodup := by
  have distinct : (m.scan p).Nodup := List.Nodup.of_map _ (rangeKeysNodup ..)
  refine List.Nodup.map_on (fun e mem e' mem' same => Prod.ext ?_ same) (distinct.filter keep)
  obtain ⟨stored,inside⟩ := memScan.mp (mem_filter.mp mem).1
  obtain ⟨stored',inside'⟩ := memScan.mp (mem_filter.mp mem').1
  rw [own e.1 e.2 stored inside,own e'.1 e'.2 stored' inside',same]

theorem currentMarked (sound : LatestVersion.Sound path s.db) : (((s.db.objects.scan (objectSpace path)).filter versioned).map Prod.snd).Perm
      (((s.db.versions.scan (versionSpace path)).filter (fun e => e.2.isLatest)).map Prod.snd) := by
  have objects := recordsNodup (fun obj => objectKey path obj.key) (fun q obj stored inside => (sound.filed.objects q obj stored inside).2)
    versioned
  have versions := recordsNodup (fun obj => objectVersionKey path obj.key obj.versionID)
    (fun q obj stored inside => (sound.filed.versions q obj stored inside).2.2) (fun e => e.2.isLatest)
  refine (perm_ext_iff_of_nodup objects versions).mpr fun obj => ⟨fun mem => ?_,fun mem => ?_⟩
  · obtain ⟨⟨q,obj⟩,kept,rfl⟩ := mem_map.mp mem
    obtain ⟨scanned,version⟩ := mem_filter.mp kept
    obtain ⟨stored,inside⟩ := memScan.mp scanned
    rw [(sound.filed.objects _ _ stored inside).2] at stored
    have named : shape.id obj = some obj.versionID := if_neg (of_decide_eq_true version)
    obtain ⟨held,marked⟩ := (sound.consistent obj.key).pointed obj obj.versionID stored named
    have filed := (versionsInIff.mp held).1
    exact mem_map.mpr ⟨(_, obj),mem_filter.mpr ⟨memScan.mpr ⟨filed,inVersionSpace ..⟩,marked⟩,rfl⟩
  · obtain ⟨⟨_,obj⟩,kept,rfl⟩ := mem_map.mp mem
    obtain ⟨scanned,marked⟩ := mem_filter.mp kept
    obtain ⟨stored,inside⟩ := memScan.mp scanned
    obtain ⟨_,version,own⟩ := sound.filed.versions _ _ stored inside
    rw [own] at stored
    have current := (sound.consistent obj.key).marked obj.versionID obj (versionsInIff.mpr ⟨stored,rfl⟩) marked
    exact mem_map.mpr ⟨(_, obj),mem_filter.mpr ⟨memScan.mpr ⟨current,inObjectSpace ..⟩,decide_eq_true version⟩,rfl⟩

theorem versionBytes (balanced : Balanced path on s) : ((s.db.versions.scan (versionSpace path)).map (fun e => e.2.size)).sum =
      (((s.db.objects.scan (objectSpace path)).filter versioned).map (fun e => e.2.size)).sum +
        (((s.db.versions.scan (versionSpace path)).filter (fun e => !e.2.isLatest)).map (fun e => e.2.size)).sum := by
  cases on with
  | true =>
    have same := ((currentMarked (balanced.sound rfl)).map ObjectMetadata.size).sum_eq
    rw [map_map,map_map] at same
    rw [splitSum (fun e => e.2.isLatest)]
    exact congrArg (· + _) same.symm
  | false =>
    have noVersions : s.db.versions.scan (versionSpace path) = [] := eq_nil_iff_forall_not_mem.mpr fun e mem => by
      obtain ⟨stored,inside⟩ := memScan.mp mem
      rw [(balanced.filed.versions e.1 e.2 stored inside).2.2] at stored
      exact absurd (regularVersion prefix_rfl balanced.filed balanced.regular stored).2 (by decide)
    have noCurrent : (s.db.objects.scan (objectSpace path)).filter versioned = [] := filter_eq_nil_iff.mpr fun e mem => by
      obtain ⟨stored,inside⟩ := memScan.mp mem
      rw [(balanced.filed.objects e.1 e.2 stored inside).2] at stored
      have plain := (regularObject prefix_rfl balanced.filed balanced.regular stored).2
      simpa [versioned] using plain
    rw [noVersions,noCurrent]
    rfl

theorem countedSize (balanced : Balanced path on s) :
    ((s.db.countedObjects path).map ObjectMetadata.size).sum = storedBytes s.db (path ++ colon) ↔ OldVersionsEmpty s.db path := by
  have current := splitSum versioned (fun e => e.2.size) (s.db.objects.scan (objectSpace path))
  have plain : (s.db.objects.scan (objectSpace path)).filter (fun e => !versioned e) =
      (s.db.objects.scan (objectSpace path)).filter (fun e => decide (e.2.versionID = [])) :=
    filter_congr fun e _ => by simp [versioned]
  have spaces : ascii "version:" ++ (path ++ colon) = versionSpace path ∧ ascii "obj:" ++ (path ++ colon) = objectSpace path :=
    ⟨(append_assoc ..).symm,(append_assoc ..).symm⟩
  have older : (((s.db.versions.scan (versionSpace path)).filter (fun e => !e.2.isLatest)).map (fun e => e.2.size)).sum = 0 ↔
      OldVersionsEmpty s.db path := by
    constructor
    · intro zero e mem old
      have nonneg : ∀ n ∈ ((s.db.versions.scan (versionSpace path)).filter (fun e => !e.2.isLatest)).map (fun e => e.2.size), 0 ≤ n := by
        intro n listed
        obtain ⟨e,kept,rfl⟩ := mem_map.mp listed
        obtain ⟨stored,inside⟩ := memScan.mp (mem_filter.mp kept).1
        rw [(balanced.filed.versions e.1 e.2 stored inside).2.2] at stored
        exact (regularVersion prefix_rfl balanced.filed balanced.regular stored).1
      exact all_zero_of_le_zero_le_of_sum_eq_zero nonneg zero (mem_map.mpr ⟨e,mem_filter.mpr ⟨mem,by simp [old]⟩,rfl⟩)
    · intro empty
      refine sum_eq_zero fun n listed => ?_
      obtain ⟨e,kept,rfl⟩ := mem_map.mp listed
      obtain ⟨mem,old⟩ := mem_filter.mp kept
      exact empty e mem (by simpa using old)
  rw [countedBytes,current,plain,storedBytes,spaces.1,spaces.2,versionBytes balanced,← older]
  omega

end

theorem unchangedIff {db tenantID name found} (present : db.buckets.get (bucketKey tenantID name) = some found) :
    Unchanged db tenantID name ↔ ((db.countedObjects (bucketPathForMutation tenantID name)).length : Int) = found.objectCount ∧
      ((db.countedObjects (bucketPathForMutation tenantID name)).map ObjectMetadata.size).sum = found.totalSize := by
  unfold Unchanged Database.recalculateBucketStats Database.getBucketStats Database.getBucket
  simp [present,Except.map]

/-- After every run of careful steps on a new bucket, counting again changes nothing exactly when the
bucket has no implicit folder and its older versions hold no bytes. -/
theorem recalculationAgrees {node : Node} (tenantID name : Bytes) {start final : State} {events : List Event} (digest : node.host.md5 [] ≠ [])
    (tenant : slash ∉ tenantID) (single : slash ∉ name) (new : NewBucket (bucketPathForMutation tenantID name) start)
    (fresh : Counters (bucketPathForMutation tenantID name) start 0 0)
    (along : Along (step node (bucketPathForMutation tenantID name)) (Careful (bucketPathForMutation tenantID name)) start events)
    (done : run (step node (bucketPathForMutation tenantID name)) start events = some final) : Unchanged final.db tenantID name ↔
      NoFolders final.db (bucketPathForMutation tenantID name) ∧ OldVersionsEmpty final.db (bucketPathForMutation tenantID name) := by
  have balanced : Balanced (bucketPathForMutation tenantID name) _ final :=
    runKeeps (fun holds ok stepped => stepBalanced digest new.named holds ok stepped) (newBalanced new fresh) along done
  obtain ⟨_,present,count,size⟩ := balanced.counted
  rw [bucketOfGet,parsedPath tenant single] at present
  rw [unchangedIff present,count,size,keysTotal,bytesTotal,countedKeys balanced,countedSize balanced]

def flatKeys : List Event := [LatestVersion.putKey 5 (ascii "k") [7, 8], LatestVersion.putKey 6 (ascii "j") [9], deleteKey 7 (ascii "k") []]

theorem flatKeysCareful : Along (step smallNode (ascii "b")) (Careful (ascii "b")) (newBucket none) flatKeys := by
  refine ⟨⟨by decide,⟨by decide,noFolderOf rfl⟩,fun id _ => unusedWithout rfl⟩,fun s₁ first => ?_⟩
  obtain ⟨_,rfl⟩ := stepPerforms first
  refine ⟨⟨by decide,⟨by decide,noFolderOf (by decide +kernel)⟩,fun id _ => unusedWithout (by decide +kernel)⟩,fun s₂ second => ?_⟩
  obtain ⟨_,rfl⟩ := stepPerforms second
  exact ⟨⟨by decide,.inl (noFolderOf (by decide +kernel)),fun id _ => unusedWithout (by decide +kernel)⟩,fun _ _ => trivial⟩

theorem flatKeysAgree : ∃ final, run (step smallNode (ascii "b")) (newBucket none) flatKeys = some final ∧ Unchanged final.db [] (ascii "b") := by
  refine runShows (fun s => (∀ e ∈ s.db.objects.scan (objectSpace (ascii "b")), implicitFolder e.2 = false) ∧ s.db.versions.entries = [])
    (by decide +kernel) fun final done ⟨flat,none_⟩ => ?_
  have agrees := recalculationAgrees [] (ascii "b") (by decide) (by decide) (by decide) (newBucketEmpty none)
    (newCounters none) flatKeysCareful done
  refine agrees.mpr ⟨flat,fun e mem => ?_⟩
  have stored := memEntries.mpr (memScan.mp mem).1
  rw [none_] at stored
  exact absurd stored not_mem_nil

-- The implicit folder "a/" of the key "a/x" is counted again but was never counted.
theorem folderCountedAgain : (putObject smallNode (callAt 5) (ascii "b") (ascii "a/x") [7, 8] empty (newBucket none)).1.isOk = true ∧
    ∃ final, run (step smallNode (ascii "b")) (newBucket none) [LatestVersion.putKey 5 (ascii "a/x") [7, 8]] = some final ∧
      ¬ Unchanged final.db [] (ascii "b") := by
  refine ⟨by decide +kernel,runShows (fun s =>
    (∃ m, s.db.buckets.get (bucketKey [] (ascii "b")) = some m ∧ m.objectCount = 1) ∧ (s.db.countedObjects (ascii "b")).length = 2)
    (by decide +kernel) fun final ran ⟨⟨found,present,one⟩,counted⟩ unchanged => ?_⟩
  have both : ((final.db.countedObjects (ascii "b")).length : Int) = found.objectCount := ((unchangedIff present).mp unchanged).1
  rw [counted,one] at both
  exact absurd both (by decide)

end MaxIOFS.Recalculation
