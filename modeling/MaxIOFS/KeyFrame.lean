import MaxIOFS.ObjectReads

/-! The frame of PutObject and DeleteObject on one key, as GetObject of another key sees it.
Keys are names of nested files: the other object's data file, its sidecar and its staged
sidecar must not lie among the files the call works on, and for a delete not below them. -/
namespace MaxIOFS.KeyFrame
open OrderedStore ByteString FileTree Effects ObjectManager RecordChanges MetadataStore StoredFiles
    StoredObjects ObjectReads FileFrame ManagerFiles ManagerRuns Filesystem List VersionHistory

structure Clear (p p' : Path) : Prop where
  sidecar : metadataOf p ≠ p'
  staging : stagingOf p ≠ p'
  metadata : ¬ metadataOf p' <+: p
  staged : ¬ stagingOf p' <+: p

structure Parted (p p' : Path) : Prop where
  sidecar : metadataOf p ≠ p'
  staging : stagingOf p ≠ p'
  metadata : metadataOf p' ≠ p
  staged : stagingOf p' ≠ p

theorem Clear.parted {p p'} (clear : Clear p p') : Parted p p' :=
  ⟨clear.sidecar,clear.staging,fun same => clear.metadata (same ▸ prefix_refl _),fun same => clear.staged (same ▸ prefix_refl _)⟩

structure FolderClear (p p' : Path) : Prop where
  above : ¬ p' <+: p
  sidecars : ∀ a, a <+: p → metadataOf a ≠ p'
  marker : markerIn p ≠ p'

section
variable {p p' : Path} {host : Host}
variable {path : Bytes} {t : Files} {q : Path}

theorem sidecarElsewhere (present : p' ≠ []) (a : Path) : metadataOf a ≠ stagingOf p' := by
  intro same
  by_cases empty : a = []
  · subst empty
    exact stagingPresent present same.symm
  · exact stagingElsewhere empty same.symm

theorem namesBeside (present' : p' ≠ []) (clear : Parted p p') (other : p ≠ p') (mem : q ∈ names p') : Beside q p := by
  simp only [names,mem_cons,not_mem_nil,or_false] at mem
  rcases mem with rfl | rfl | rfl
  · exact ⟨clear.sidecar,clear.staging⟩
  · exact ⟨fun same => other (withSuffixSame same),stagingElsewhere present'⟩
  · exact ⟨sidecarElsewhere present' p,fun same => other (withSuffixSame same)⟩

theorem suffixName {suffix} (present : p' ≠ []) (a : Path) (ending : ¬ suffix <:+ folderMarker) : markerIn a ≠ withSuffix p' suffix := by
  intro same
  rw [withSuffixEq present] at same
  have last := (List.cons.inj (append_inj' same rfl).2).1
  exact ending (last ▸ suffix_append _ _)

theorem markerElsewhere (present : p' ≠ []) (a : Path) : markerIn a ≠ metadataOf p' ∧ markerIn a ≠ stagingOf p' :=
  ⟨suffixName present a (by decide),suffixName present a (by decide)⟩

theorem putFileFrame {now data m f} (file : hasSuffix [slash] path = false)
    (found : t.get p' = some (.file f)) (present' : p' ≠ []) (clear : Clear (getFullPath path) p') (other : getFullPath path ≠ p')
    (mem : q ∈ names p') : Keeps (At q (t.get q)) (put host now path data m) := by
  have beside := namesBeside present' clear.parted other mem
  simp only [names,mem_cons,not_mem_nil,or_false] at mem
  refine keepsPutPlain file ⟨beside,?_,?_,?_⟩
  · rintro rfl
    rcases mem with same | same | same
    · exact other same
    · exact clear.metadata (same ▸ prefix_refl _)
    · exact clear.staged (same ▸ prefix_refl _)
  · intro inside
    have inside := inside.trans ( dropLast_prefix _)
    rcases mem with rfl | rfl | rfl
    · rw [found]
      simp
    · exact absurd inside clear.metadata
    · exact absurd inside clear.staged
  · intro a _ same
    rcases mem with rfl | rfl | rfl
    · rw [found]
      simp
    · exact absurd same (markerElsewhere present' a).1
    · exact absurd same (markerElsewhere present' a).2

theorem putFolderFrame {now data m} (folder : hasSuffix [slash] path = true) (present' : p' ≠ []) (clear : Clear (getFullPath path) p')
    (above : FolderClear (getFullPath path) p') (mem : q ∈ names p') : Keeps (At q (t.get q)) (put host now path data m) := by
  simp only [names,mem_cons,not_mem_nil,or_false] at mem
  refine keepsPutSlash folder ⟨fun inside => ?_,fun a inside same => ?_,fun same => ?_⟩
  · rcases mem with rfl | rfl | rfl
    · exact absurd inside above.above
    · exact absurd inside clear.metadata
    · exact absurd inside clear.staged
  · rcases mem with rfl | rfl | rfl
    · exact above.sidecars a inside same
    · exact above.above (withSuffixSame same ▸ inside)
    · exact sidecarElsewhere present' a same
  · rcases mem with rfl | rfl | rfl
    · exact above.marker same
    · exact (markerElsewhere present' _).1 same
    · exact (markerElsewhere present' _).2 same

theorem prefixOfName (present' : p' ≠ []) (mem : q ∈ names p') (inside : p <+: q) : p <+: p' ∨ p = q := by
  by_cases same : p = q
  · exact .inr same
  have upper := Tree.prefixDropLast inside same
  rw [(namesDir present' mem).2] at upper
  exact .inl (upper.trans ( dropLast_prefix _))

theorem deleteFrame (present' : p' ≠ []) (clear : Parted (getFullPath path) p') (below : ¬ getFullPath path <+: p') (mem : q ∈ names p') :
    Keeps (At q (t.get q)) (delete path) := by
  have other : getFullPath path ≠ p' := fun same => below (same ▸ prefix_refl _)
  refine keepsDelete (namesBeside present' clear other mem) fun inside => ?_
  rcases prefixOfName present' mem inside with upper | same
  · exact below upper
  simp only [names,mem_cons,not_mem_nil,or_false] at mem
  rcases mem with rfl | rfl | rfl
  · exact other same
  · exact clear.metadata same.symm
  · exact clear.staged same.symm

theorem memChildrenOf {dir name} (there : (t.get (dir ++ [name])).isSome = true) : name ∈ children t dir := by
  obtain ⟨node,here⟩ := Option.isSome_iff_exists.mp there
  refine mem_filterMap.mpr ⟨(dir ++ [name], node),mem_filter.mpr ⟨Store.memEntries.mpr here,?_⟩,?_⟩
  · simp
  · simp

theorem memChildren {dir segment rest f} (found : t.get (dir ++ segment :: rest) = some (.file f)) : segment ∈ children t dir := by
  obtain ⟨node,here⟩ : ∃ node, t.get (dir ++ [segment]) = some node := by
    by_cases last : rest = []
    · subst last
      exact ⟨_,found⟩
    have inside : dir ++ [segment] <+: dir ++ segment :: rest := ⟨rest,by simp⟩
    have other : dir ++ [segment] ≠ dir ++ segment :: rest := by simpa using Ne.symm last
    rcases isDirIff.mp (Tree.dirAbove found inside other) with root | isdir
    · simp at root
    · exact ⟨_,isdir⟩
  exact memChildrenOf (Option.isSome_iff_exists.mpr ⟨node,here⟩)

def Standing (p' : Path) (t t' : Files) : Prop := ∀ q ∈ names p', t'.get q = t.get q

/-- A child, of a directory above p, at which the clean-up behind a delete of p stops. -/
structure Stops (t : Files) (p dir : Path) (name : Bytes) : Prop where
  above : dir <+: p.dropLast
  there : (t.get (dir ++ [name])).isSome = true
  real : isSystemName name = false
  own : dir ++ [name] ∉ names p
  aside : ¬ dir ++ [name] <+: p

def Swept (t : Files) (p dir : Path) : Prop := dir <+: p.dropLast ∧ ∀ d name, dir <+: d → ¬ Stops t p d name

def Anchored (t : Files) (p : Path) (t' : Files) : Prop := ∀ dir name, Stops t p dir name → t'.get (dir ++ [name]) = t.get (dir ++ [name])

structure Intact (p p' : Path) (t t' : Files) : Prop where
  standing : Standing p' t t'
  anchored : Anchored t p t'

theorem ancestorsShorter (p : Path) : (Tree.ancestors p).reverse.Pairwise (fun a b => b.length < a.length) := by
  refine pairwise_reverse.mpr (Pairwise.tail (pairwise_iff_getElem.mpr fun i j hi hj less => ?_))
  rw [getElem_inits,getElem_inits,length_take,length_take]
  rw [length_inits] at hi hj
  omega

theorem removedIntact {f dir} (clear : Clear p p') (plain : ∀ dir segment, Swept t p dir → dir ++ [segment] <+: p' → isSystemName segment = false)
    (found : t.get p' = some (.file f)) (present' : p' ≠ []) (swept : Swept t p dir) {t'} (empty : t'.isDir dir = true ∧
      (children t' dir).all isSystemName = true)
    (intact : Intact p p' t t') : Intact p p' t (t'.removeAll dir) := by
  refine ⟨fun q mem => ?_,fun d name stops => ?_⟩
  · rw [Tree.getRemoveAll,if_neg]
    · exact intact.standing q mem
    intro upper
    have here : t'.get p' = some (.file f) := (intact.standing p' (by simp [names])).trans found
    have other : dir ≠ p' := by
      rintro rfl
      rw [fileNotDir here] at empty
      simp at empty
    have below : dir <+: p' := by
      rcases prefixOfName present' mem upper with below | same
      · exact below
      have within := swept.1.trans ( dropLast_prefix _)
      simp only [names,mem_cons,not_mem_nil,or_false] at mem
      rcases mem with rfl | rfl | rfl
      · exact absurd same other
      · exact absurd (same ▸ within) clear.metadata
      · exact absurd (same ▸ within) clear.staged
    obtain ⟨tail,shape⟩ := below
    cases tail with
    | nil => exact other (by simpa using shape)
    | cons segment rest =>
      have child := memChildren (shape.symm ▸ here)
      have system := all_eq_true.mp empty.2 segment child
      rw [plain dir segment swept ⟨rest,by rw [append_assoc]; exact shape⟩] at system
      contradiction
  · rw [Tree.getRemoveAll,if_neg]
    · exact intact.anchored d name stops
    -- A child that stops the sweep is not below a swept directory.
    intro upper
    by_cases same : dir = d ++ [name]
    · exact stops.aside (same ▸ swept.1.trans ( dropLast_prefix _))
    · have inside := Tree.prefixDropLast upper same
      rw [dropLast_concat] at inside
      exact swept.2 d name inside stops

theorem cleanupFrame {f} (clear : Clear p p') (plain : ∀ dir segment, Swept t p dir → dir ++ [segment] <+: p' → isSystemName segment = false)
    (found : t.get p' = some (.file f)) (present' : p' ≠ []) {dirs} (inside : ∀ dir ∈ dirs, dir ≠ [] ∧ dir <+: p.dropLast)
    (order : dirs.Pairwise (fun a b => b.length < a.length)) {t'}
    (passed : ∀ d, d ≠ [] → d <+: p.dropLast → d ∉ dirs → ∀ name, ¬ Stops t p d name) (intact : Intact p p' t t') :
    Intact p p' t (removeEmptyDirectories t' dirs) := by
  induction dirs generalizing t' with
  | nil => exact intact
  | cons dir above ih =>
    obtain ⟨shorter,order⟩ := pairwise_cons.mp order
    obtain ⟨present,within⟩ := inside dir mem_cons_self
    unfold removeEmptyDirectories
    split
    · rename_i empty
      have here name : ¬ Stops t p dir name := by
        intro stops
        have child := memChildrenOf (intact.anchored dir name stops ▸ stops.there)
        have system := all_eq_true.mp empty.2 name child
        rw [stops.real] at system
        contradiction
      have swept : Swept t p dir := by
        refine ⟨within,fun d name deeper stops => ?_⟩
        by_cases same : d = dir
        · exact here name (same ▸ stops)
        refine passed d (fun none_ => present (prefix_nil.mp (none_ ▸ deeper))) stops.above (fun mem => ?_) name stops
        have less := shorter d ((mem_cons.mp mem).resolve_left same)
        exact absurd deeper.length_le (not_le.mpr less)
      refine ih (fun d mem => inside d (mem_cons_of_mem _ mem)) order (fun d some_ up out name stops => ?_)
        (removedIntact clear plain found present' swept empty intact)
      by_cases same : d = dir
      · exact here name (same ▸ stops)
      · exact passed d some_ up (fun mem => out ((mem_cons.mp mem).resolve_left same)) name stops
    · exact intact

theorem deleteIntact {t'} (present' : p' ≠ []) (clear : Parted (getFullPath path) p') (below : ¬ getFullPath path <+: p')
    (intact : Intact (getFullPath path) p' t t') : Intact (getFullPath path) p' t (delete path t').2 := by
  refine ⟨fun q mem => ?_,fun dir name stops => ?_⟩
  · exact ((deleteFrame present' clear below mem).after (rfl : At q (t'.get q) t')).trans (intact.standing q mem)
  · have apart := stops.own
    simp only [names,mem_cons,not_mem_nil,or_false,not_or] at apart
    have beside : Beside (dir ++ [name]) (getFullPath path) := ⟨fun same => apart.2.1 same.symm,fun same => apart.2.2 same.symm⟩
    refine Eq.trans ?_ (intact.anchored dir name stops)
    refine (keepsDelete beside fun inside => ?_).after (rfl : At (dir ++ [name]) (t'.get (dir ++ [name])) t')
    by_cases same : getFullPath path = dir ++ [name]
    · exact apart.1 same.symm
    · have upper := Tree.prefixDropLast inside same
      rw [dropLast_concat] at upper
      have short := upper.length_le.trans stops.above.length_le
      rw [length_dropLast] at short
      have root : getFullPath path = [] := length_eq_zero_iff.mp (by omega)
      exact below (root ▸ nil_prefix)

end

section
variable {node : Node} {call : Call} {bucket key key' : Bytes} {s : State}

theorem putOtherEntry {db db' : Database} {now obj} (home : obj.bucket = bucket) (other : obj.key ≠ key')
    (done : db.putObject now obj = .ok db') : db'.objects.get (objectKey bucket key') = db.objects.get (objectKey bucket key') := by
  obtain ⟨rfl,_⟩ := putObjectWrites done
  have address : objectKey (stamped now obj).bucket (stamped now obj).key ≠ objectKey bucket key' := by
    rw [← home]
    exact fun same => other (objectKeyInj same)
  dsimp only [writeObject]
  split
  · exact Store.getSetOther _ _ address
  · rfl

theorem putObjectEntry {data headers} (off : isBucketVersioningEnabled s bucket = false)
    (known : s.db.objects.get (objectKey bucket key') ≠ none ∨ key' ∉ implicitFolders key) (home : bucket ≠ []) (named : key' ≠ [])
    (other : key ≠ key') : (putObject node call bucket key data headers s).2.db.objects.get (objectKey bucket key') =
      s.db.objects.get (objectKey bucket key') := by
  have follows := putObjectFollows node call bucket key data headers s
  rw [off] at follows
  refine follows.keeps (P := fun db => db.objects.get (objectKey bucket key') = s.db.objects.get (objectKey bucket key'))
    (fun quiet holds => by rw [quiet.objects]; exact holds) (fun permitted effect holds => ?_) rfl
  cases effect with
  | insert => exact absurd permitted.1 (by simp)
  | plain done => exact (putOtherEntry permitted.2.1 (fun same => other (permitted.2.2.1 ▸ same)) done).trans holds
  | adopt free done =>
    refine (putOtherEntry permitted.1 (fun same => ?_) done).trans holds
    rcases known with some_ | absent
    · obtain ⟨old,found⟩ := Option.ne_none_iff_exists'.mp some_
      refine free (filled bucket key' old) ?_
      rw [same,Database.getObject,if_neg (by simp [home,named]),Database.record,if_pos rfl,holds,found]
    · exact absent (same ▸ permitted.2.1)
  | edit => exact permitted.elim
  | drop => exact permitted.elim
  | erase => exact permitted.elim

theorem deleteObjectEntry {bypass} (off : isBucketVersioningEnabled s bucket = false) (other : resolveFolderDeleteKey s bucket key ≠ key') :
    (deleteObject node call bucket key bypass [] s).2.db.objects.get (objectKey bucket key') = s.db.objects.get (objectKey bucket key') := by
  have follows := deleteObjectFollows node call bucket key bypass [] s
  rw [off] at follows
  refine follows.keeps (P := fun db => db.objects.get (objectKey bucket key') = s.db.objects.get (objectKey bucket key'))
    (fun quiet holds => by rw [quiet.objects]; exact holds) (fun permitted effect holds => ?_) rfl
  cases effect with
  | insert => exact absurd permitted.1 (by simp)
  | plain => exact permitted.elim
  | adopt => exact permitted.elim
  | edit => exact permitted.elim
  | drop => exact absurd rfl permitted.1
  | erase read unlocked done =>
    obtain ⟨_,_,rfl⟩ := deleteObjectErases done
    refine (Store.getDeleteOther _ fun same => other ?_).trans holds
    exact permitted.2.2.1 ▸ objectKeyInj same

end

inductive Operation where
  | put (call : Call) (data : Bytes) (headers : Headers)
  | delete (call : Call) (bypassGovernance : Bool) (versionID : Bytes)

def perform (node : Node) (bucket key : Bytes) (s : State) : Operation → State
  | .put call data headers => (putObject node call bucket key data headers s).2
  | .delete call bypass versionID => (deleteObject node call bucket key bypass versionID s).2

/-- A put that is refused before it changes anything. -/
def Barred (node : Node) (call : Call) (s : State) (bucket key data : Bytes) (headers : Headers) : Prop :=
  checksumAccepted node headers data = false ∨ ¬ Room s call bucket (growth false (stored s bucket key) data.length) ∨
    validatePath (getObjectPath bucket key) = false ∨ isFolderMarker key = false ∧
      (call.envelope = none ∨ ∃ a, a <+: (getFullPath (getObjectPath bucket key)).dropLast ∧ s.files.file a ≠ none)

def Aside (node : Node) (bucket key key' : Bytes) (s : State) : Operation → Prop
  | .put call data headers =>
    let p := getFullPath (getObjectPath bucket key)
    Barred node call s bucket key data headers ∨ Clear p (pathIn s bucket key' []) ∧
      (if isFolderMarker key then FolderClear p (pathIn s bucket key' []) else p ≠ pathIn s bucket key' []) ∧
      (stored s bucket key' ≠ none ∨ key' ∉ implicitFolders key)
  | .delete _ _ versionID =>
    let resolved := resolveFolderDeleteKey s bucket key
    let p := getFullPath (getObjectPath bucket resolved)
    if versionID = [] then resolved ≠ key' ∧ Clear p (pathIn s bucket key' []) ∧ ¬ p <+: pathIn s bucket key' [] ∧
      ∀ dir segment, Swept s.files p dir → dir ++ [segment] <+: pathIn s bucket key' [] → isSystemName segment = false
    else s.db.getObjectVersions node.sorting bucket resolved = []

section
variable {node : Node} {call : Call} {bucket key key' : Bytes} {s : State} {f : File}

theorem putObjectFiles {data headers p'} (off : isBucketVersioningEnabled s bucket = false)
    (named : key ≠ []) (found : s.files.get p' = some (.file f)) (clear : Clear (getFullPath (getObjectPath bucket key)) p')
    (path : if isFolderMarker key then FolderClear (getFullPath (getObjectPath bucket key)) p' else getFullPath (getObjectPath bucket key) ≠ p') :
    Standing p' s.files (putObject node call bucket key data headers s).2.files := by
  have present' : p' ≠ [] := by
    rintro rfl
    rw [s.files.getRoot] at found
    contradiction
  intro q mem
  refine putObjectAt rfl (fun id bytes m chosen => ?_) (fun id _ => ?_)
  · rw [off]
    cases folder : isFolderMarker key with
    | true =>
      rw [folder] at path
      exact putFolderFrame (folderPath folder) present' clear path mem
    | false =>
      rw [folder] at path
      exact putFileFrame (plainPath folder named) found present' clear path mem
  · rw [off]
    refine namesBeside present' clear.parted ?_ mem
    cases folder : isFolderMarker key with
    | true =>
      rw [folder] at path
      exact fun same => path.above (same ▸ prefix_refl _)
    | false =>
      rw [folder] at path
      exact path

theorem putBarred {data headers} (off : isBucketVersioningEnabled s bucket = false) (named : key ≠ [])
    (barred : Barred node call s bucket key data headers) : (putObject node call bucket key data headers s).2 = s := by
  refine wpState (P := (· = s)) ?_
  have never : wp (storeObject node call bucket key data headers) (fun _ _ => False) (fun _ s' => s' = s) s := by
    refine storeObjectBy (fun _ _ => rfl) ?_
    rw [off]
    intro id name chosen checksum room path
    have barred := (barred.resolve_left (by simp [checksum])).resolve_left (not_not.mpr room)
    rw [storeData]
    split
    · rename_i folder
      have invalid := barred.resolve_right fun file => by simp [folder] at file
      rw [storeUnencryptedObject,wpStorage,put,wpBind,wpCheck]
      exact ⟨fun valid => by simp [path,objectPathOf,invalid] at valid,fun _ => rfl⟩
    · rename_i file
      unfold storeEncryptedObject
      cases given : call.envelope with
      | none => rfl
      | some envelope =>
        dsimp only
        rw [wpStorage,put,wpBind,wpCheck]
        refine ⟨fun valid => ?_,fun _ => rfl⟩
        obtain ⟨_,blocked⟩ := barred.resolve_left (by simp [show validatePath (getObjectPath bucket key) = true from valid])
        obtain ⟨above,inside,isFile⟩ := blocked.resolve_left (by simp [given])
        rw [wpIte]
        refine ⟨fun folder => ?_,fun _ => ?_⟩
        · have plain : hasSuffix [slash] path = false := plainPath (by simpa using file) named
          rw [plain] at folder
          contradiction
        · rw [putFile,wpBind,wpTry]
          cases made : s.files.mkdirAll (getFullPath path).dropLast with
          | none => rfl
          | some t => exact absurd (Tree.mkdirAllClear made inside) isFile
  rw [putObject,wpBind]
  exact wpMono never (fun _ _ none_ => none_.elim) (fun _ _ same => same)

section
variable {p' : Path} {before : Files} (found : before.get p' = some (.file f)) (present' : p' ≠ [])
    (clear : Clear (getFullPath (getObjectPath bucket key)) p') (below : ¬ getFullPath (getObjectPath bucket key) <+: p')
    (plain : ∀ dir segment, Swept before (getFullPath (getObjectPath bucket key)) dir → dir ++ [segment] <+: p' → isSystemName segment = false)
include found present' clear below plain

theorem intactDeleteFile : Keeps (fun s => Intact (getFullPath (getObjectPath bucket key)) p' before s.files) (deleteFile bucket key) := by
  refine .bind (.ignore (keepsFiles fun t intact => wpOfState (deleteIntact present' clear.parted below intact)))
    fun _ => .update fun s intact => ?_
  refine cleanupFrame clear plain found present' (fun dir mem => ?_) (ancestorsShorter _) (fun d some_ upper out => ?_) intact
  · exact Tree.memAncestors.mp (mem_reverse.mp mem)
  · exact absurd (mem_reverse.mpr (Tree.memAncestors.mpr ⟨some_,upper⟩)) out

theorem intactDelete {bypass} : Keeps (fun s => Intact (getFullPath (getObjectPath bucket key)) p' before s.files)
    (deletePermanently call bucket key bypass) := by
  have file : Keeps (fun s => Intact (getFullPath (getObjectPath bucket key)) p' before s.files) (deleteFile bucket key) :=
    intactDeleteFile found present' clear below plain
  refine .bind (.gets _) fun record => ?_
  cases record with
  | error e => cases e <;> first | exact file | exact .fail _
  | ok obj =>
    refine .bind ?_ fun _ => .bind (keepsWrites _) fun _ => .bind file fun _ =>
      .bind (keepsMetrics _ _ _) fun _ => keepsTenant _ _
    unfold checkLock
    cases lockError call.now bypass obj with
    | none => exact .pure _
    | some e => exact .fail _

end

structure Kept (bucket key' : Bytes) (p' : Path) (before s : State) : Prop where
  entry : s.db.objects.get (objectKey bucket key') = before.db.objects.get (objectKey bucket key')
  files : Standing p' before.files s.files

theorem deleteObjectKept {bypass versionID p'} (off : isBucketVersioningEnabled s bucket = false)
    (found : s.files.get p' = some (.file f)) (present' : p' ≠ []) (aside : if versionID = [] then resolveFolderDeleteKey s bucket key ≠ key' ∧
        Clear (getFullPath (getObjectPath bucket (resolveFolderDeleteKey s bucket key))) p' ∧
        ¬ getFullPath (getObjectPath bucket (resolveFolderDeleteKey s bucket key)) <+: p' ∧
        ∀ dir segment, Swept s.files (getFullPath (getObjectPath bucket (resolveFolderDeleteKey s bucket key))) dir → dir ++ [segment] <+: p' →
          isSystemName segment = false
      else s.db.getObjectVersions node.sorting bucket (resolveFolderDeleteKey s bucket key) = []) :
    Kept bucket key' p' s (deleteObject node call bucket key bypass versionID s).2 := by
  by_cases current : versionID = []
  · subst current
    obtain ⟨other,clear,below,plain⟩ := aside
    refine ⟨deleteObjectEntry off other,?_⟩
    refine wpState (P := fun s' : State => Standing p' s.files s'.files) ?_
    have start : Intact (getFullPath (getObjectPath bucket (resolveFolderDeleteKey s bucket key))) p' s.files s.files :=
      ⟨fun _ _ => rfl,fun _ _ _ => rfl⟩
    rw [deleteObject,wpBind,wpCheck]
    refine ⟨fun _ => ?_,fun _ => start.standing⟩
    rw [wpBind,wpGets,wpBind,wpGets,wpIte,off]
    refine ⟨absurd rfl,fun _ => ?_⟩
    rw [wpIte]
    refine ⟨fun on => by contradiction,fun _ => ?_⟩
    rw [wpBind]
    exact wpMono (intactDelete found present' clear below plain s start) (fun _ _ kept => kept.standing) (fun _ _ kept => kept.standing)
  · rw [if_neg current] at aside
    have start : Kept bucket key' p' s s := ⟨rfl,fun _ _ => rfl⟩
    refine wpState ?_
    rw [deleteObject,wpBind,wpCheck]
    refine ⟨fun _ => ?_,fun _ => start⟩
    rw [wpBind,wpGets,wpBind,wpGets,wpIte]
    refine ⟨fun specific => ?_,absurd current⟩
    rw [wpBind,deleteSpecificVersion,wpBind,wpGets,aside]
    exact start

end

section
variable {node : Node} {bucket key : Bytes} {s : State}

theorem unrecorded (none_ : s.db.objects.get (objectKey bucket key) = none) : stored s bucket key = none := by
  by_cases bad : bucket = [] ∨ key = [] <;> simp [stored,Database.getObject,Database.record,none_,bad]

end

def nested : State := (putObject smallNode (callAt 0) (ascii "b") (ascii "a/x") (ascii "data") empty (newBucket none)).2

end MaxIOFS.KeyFrame
