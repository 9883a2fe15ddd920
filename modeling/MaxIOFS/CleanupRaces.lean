import MaxIOFS.FileOps
import MaxIOFS.ObjectManager

/-! A Put of one key beside a deletion of another, file system call by call. The deletion
removes its file, then walks up the directories: it lists one, and if only system files
are in it removes it with all it holds by then. -/
namespace MaxIOFS.CleanupRaces
open ByteString FileTree Runs StagedCommit ObjectManager StoredFiles FileOps Filesystem List OrderedStore Tree

structure Upload where
  (path data : Bytes)
  metadata : Metadata
  now : Int
  (temp sidecarTemp : Bytes)

namespace Upload
variable (host : Host) (u : Upload)

def full : Path := getFullPath u.path
def dir : Path := u.full.dropLast
def tempPath : Path := u.dir ++ [u.temp]
def sidecarTempPath : Path := u.dir ++ [u.sidecarTemp]
def folder : Bool := hasSuffix [slash] u.path

def folderMetadata : Metadata :=
  (((u.metadata.set sizeKey (ascii "0")).set etagKey emptyMD5).set lastModifiedKey
    (formatInt u.now)).set (ascii "content-type") (ascii "application/x-directory")

def prepareMetadataTemp (m : Metadata) (undo : List Path) : List Op :=
  [.mkdirAll u.dir ⟨.createMetadataDirectory, undo⟩, .createTemp u.sidecarTempPath ⟨.createMetadataTempFile, undo⟩,
    .fill u.sidecarTempPath (.sidecar m)]

def folderPlan : List Op :=
  (ancestors u.full).map .statAbove ++
  [.mkdirAll u.full ⟨.createDirectory, []⟩, .createMarker (markerIn u.full) ⟨.createFolderMarker, []⟩] ++
  u.prepareMetadataTemp u.folderMetadata [] ++
  [.move u.sidecarTempPath (metadataOf u.full) ⟨.atomicMetadataMove, [u.sidecarTempPath]⟩, .remove u.sidecarTempPath]

def filePlan : List Op :=
  .mkdirAll u.dir ⟨.createDirectory, []⟩ :: ((ancestors u.dir).reverse.map .statMarker ++
  ([.createTemp u.tempPath ⟨.createTempFile, []⟩, .fill u.tempPath (.data u.data), .readStaged u.full] ++
  u.prepareMetadataTemp (calculated host.md5 u.now u.data u.metadata) [u.tempPath] ++
  [.move u.sidecarTempPath (stagingOf u.full) ⟨.stageMetadata, [u.sidecarTempPath, u.tempPath]⟩,
    .move u.tempPath u.full ⟨.atomicMove, [stagingOf u.full, u.sidecarTempPath, u.tempPath]⟩,
    .move (stagingOf u.full) (metadataOf u.full) ⟨.atomicMetadataMove, [u.sidecarTempPath, u.tempPath]⟩,
    .remove u.sidecarTempPath, .remove u.tempPath]))

def plan : List Op := if u.folder then u.folderPlan else u.filePlan host

end Upload

inductive PutPoint where
  | waiting
  | running (todo : List Op)
  | unwinding (todo : List Path) (e : StorageError)
  deriving DecidableEq

def take (host : Host) (now : Int) (t : Files) : List Op → Option (PutPoint × Files)
  | [] => none
  | op :: todo => match exec host now op t, op.fault with
    | some (t', extra), _ => some (.running (extra ++ todo), t')
    | none, some fault => some (.unwinding fault.undo fault.error, t)
    | none, none => none

def putTurn (host : Host) (u : Upload) (t : Files) : PutPoint → Option (PutPoint × Files)
  | .waiting => take host u.now t (u.plan host)
  | .running todo => take host u.now t todo
  | .unwinding [] _ => none
  | .unwinding (p :: todo) e => some (.unwinding todo e, (t.remove p).getD t)

inductive DeletePoint where
  | waiting
  | file
  | folder
  | sidecar
  | sidecarThere
  | staged
  | listing (dirs : List Path)
  | removing (dir : Path) (above : List Path)
  | returned
  deriving DecidableEq

def above (p : Path) : List Path := (ancestors p.dropLast).reverse

def deleteTurn (p : Path) (t : Files) : DeletePoint → Option (DeletePoint × Files)
  | .waiting => some (match t.stat p with | .file _ => .file | .dir => .folder | .missing | .notDirectory => .listing (above p), t)
  | .file => match t.remove p with
    | some t' => some (.sidecar, t')
    | none => some (.listing (above p), t)
  | .folder => some (.sidecar, t.removeAll p)
  | .sidecar => some (match t.stat (metadataOf p) with | .file _ | .dir => .sidecarThere | .missing | .notDirectory => .staged, t)
  | .sidecarThere => some (.staged, (t.remove (metadataOf p)).getD t)
  | .staged => some (.listing (above p), (t.remove (stagingOf p)).getD t)
  | .listing [] => some (.returned, t)
  | .listing (dir :: rest) =>
    if t.isDir dir = true ∧ (children t dir).all isSystemName = true then some (.removing dir rest, t) else some (.returned, t)
  | .removing dir rest => some (.listing rest, t.removeAll dir)
  | .returned => none

def removes (p : Path) : DeletePoint → Option Path
  | .file | .folder => some p
  | .sidecarThere => some (metadataOf p)
  | .staged => some (stagingOf p)
  | .removing dir _ => some dir
  | _ => none

structure World where
  files : Files
  put : PutPoint
  delete : DeletePoint

inductive Turn where
  | put
  | delete
  deriving DecidableEq

section
variable (host : Host) (u : Upload) (p : Path)

def begin_ (files : Files) : World := ⟨files, .waiting, .waiting⟩

def step (w : World) : Turn → Option World
  | .put => (putTurn host u w.files w.put).map (fun r => { w with put := r.1, files := r.2 })
  | .delete => (deleteTurn p w.files w.delete).map (fun r => { w with delete := r.1, files := r.2 })

def names : List Path :=
  if u.folder then [u.full, markerIn u.full, metadataOf u.full, u.sidecarTempPath]
  else [u.full, metadataOf u.full, stagingOf u.full, u.tempPath, u.sidecarTempPath]

def Named (q : Path) : Prop := ∃ n ∈ names u, q <+: n

def Harmless (w : World) : Turn → Prop
  | .put => True
  | .delete => ∀ d, removes p w.delete = some d → w.put = .waiting ∨ ∀ n ∈ names u, ¬ d <+: n

def Readable (t : Files) : Prop :=
  if u.folder then t.get u.full = some .dir ∧ ∃ time, t.get (metadataOf u.full) = some (.file ⟨.sidecar u.folderMetadata, time⟩)
  else get host u.path t = (.ok (some u.data, calculated host.md5 u.now u.data u.metadata), t)

end

structure FileOpen (u : Upload) (t : Files) : Prop where
  unblocked : Unblocked t u.full
  temp : t.get u.tempPath = none
  side : t.get u.sidecarTempPath = none

structure FolderOpen (u : Upload) (t : Files) : Prop where
  metadata : t.isDir (metadataOf u.full) = false
  marker : t.isDir (markerIn u.full) = false
  side : t.get u.sidecarTempPath = none

def Open (u : Upload) (t : Files) : Prop := if u.folder then FolderOpen u t else FileOpen u t

structure Temporary (u : Upload) : Prop where
  present : u.full ≠ []
  temp : u.tempPath ∉ [u.full, metadataOf u.full, stagingOf u.full, u.sidecarTempPath, markerIn u.dir]
  sidecar : u.sidecarTempPath ∉ [u.full, metadataOf u.full, stagingOf u.full, markerIn u.dir]

section
variable {host : Host} {u : Upload} {t t' : Files}
variable {Q : Files → Prop} {todo : List Op} {q : Path} {w : World}

theorem namedClosed : Closed (Named u) := ⟨fun inside ⟨n,mem,below⟩ => ⟨n,mem,inside.trans below⟩⟩

theorem tempDir : u.tempPath.dropLast = u.dir := dropLast_concat

theorem sidecarTempDir : u.sidecarTempPath.dropLast = u.dir := dropLast_concat

theorem tempNew : u.tempPath ≠ [] := by simp [Upload.tempPath]

theorem sidecarTempNew : u.sidecarTempPath ≠ [] := by simp [Upload.sidecarTempPath]

theorem freeNotDir (new : q ≠ []) (free : t.get q = none) : t.isDir q = false := by
  rw [Bool.eq_false_iff]
  intro isdir
  rcases isDirIff.mp isdir with root | found
  · exact new root
  · rw [free] at found
    contradiction

theorem markerAway {a name} (inside : a <+: u.dir) (other : u.dir ++ [name] ≠ markerIn u.dir) : markerIn a ≠ u.dir ++ [name] := by
  intro same
  have length := congrArg List.length same
  simp only [markerIn,length_append,length_singleton] at length
  have here : a = u.dir := inside.eq_of_length (by omega)
  exact other (here ▸ same).symm

def Shrunk (t t' : Files) : Prop := ∀ q, t'.get q = t.get q ∨ t'.get q = none

theorem shrunkSame (t : Files) : Shrunk t t := fun _ => .inl rfl

theorem Shrunk.trans {t''} (first : Shrunk t t') (second : Shrunk t' t'') : Shrunk t t'' := fun q =>
  (second q).elim (fun same => (first q).imp same.trans same.trans) .inr

theorem Shrunk.none (shrunk : Shrunk t t') (free : t.get q = none) : t'.get q = none := (shrunk q).elim (·.trans free) id

theorem Shrunk.isDir (shrunk : Shrunk t t') (free : t.isDir q = false) : t'.isDir q = false := by
  rw [Bool.eq_false_iff] at free ⊢
  intro isdir
  refine free (isDirIff.mpr ((isDirIff.mp isdir).imp_right fun found => ?_))
  rcases shrunk q with same | gone
  · exact same ▸ found
  · rw [gone] at found
    contradiction

theorem Shrunk.file (shrunk : Shrunk t t') (free : t.file q = .none) : t'.file q = .none := by
  rcases shrunk q with same | gone
  · unfold Tree.file at free ⊢
    rw [same]
    exact free
  · unfold Tree.file
    rw [gone]

theorem removedShrunk (q : Path) : Shrunk t ((t.remove q).getD t) := by
  intro r
  cases done : t.remove q with
  | none => exact .inl rfl
  | some t' =>
    change t'.get r = t.get r ∨ t'.get r = .none
    rw [getRemove done]
    split
    · exact .inr rfl
    · exact .inl rfl

theorem FileOpen.shrunk (free : FileOpen u t) (shrunk : Shrunk t t') : FileOpen u t' :=
  have ⟨above,data,metadata,staging⟩ := free.unblocked
  ⟨⟨fun a inside => shrunk.file (above a inside),shrunk.isDir data,shrunk.isDir metadata,shrunk.isDir staging⟩,
    shrunk.none free.temp,shrunk.none free.side⟩

theorem FolderOpen.shrunk (free : FolderOpen u t) (shrunk : Shrunk t t') : FolderOpen u t' :=
  ⟨shrunk.isDir free.metadata,shrunk.isDir free.marker,shrunk.none free.side⟩

structure Scene (u : Upload) (t : Files) (temp side : Option (Node File)) : Prop where
  dir : t.isDir u.dir = true
  data : t.isDir u.full = false
  metadata : t.isDir (metadataOf u.full) = false
  staging : t.isDir (stagingOf u.full) = false
  temp : t.get u.tempPath = temp
  side : t.get u.sidecarTempPath = side

theorem Scene.change {temp side temp' side'} (scene : Scene u t temp side) (dirs : SameDirs t t')
    (first : t'.get u.tempPath = temp') (second : t'.get u.sidecarTempPath = side') : Scene u t' temp' side' :=
  ⟨(dirs _).trans scene.dir,(dirs _).trans scene.data,(dirs _).trans scene.metadata,(dirs _).trans scene.staging,first,second⟩

theorem planFile (plain : u.folder = false) : Named u u.full ∧ Named u (metadataOf u.full) ∧ Named u (stagingOf u.full) ∧
    Named u u.tempPath ∧ Named u u.sidecarTempPath := by
  have all : ∀ n ∈ [u.full,metadataOf u.full,stagingOf u.full,u.tempPath,u.sidecarTempPath], Named u n :=
    fun n mem => ⟨n,by rw [names,plain]; exact mem,prefix_rfl⟩
  simp only [mem_cons,not_mem_nil,or_false,forall_eq_or_imp,forall_eq] at all
  exact all

theorem dirNamed (plain : u.folder = false) {a} (inside : a <+: u.dir) : Named u a :=
  namedClosed.above (inside.trans ( dropLast_prefix _)) (planFile plain).1

theorem marksSucceed {dirs : List Path} (fresh : Temporary u) (plain : u.folder = false) (inside : ∀ a ∈ dirs, a <+: u.dir)
    (scene : Scene u t none none)
    (rest : ∀ t', Scene u t' none none → Succeeds (Named u) host u.now todo t' Q) :
    Succeeds (Named u) host u.now (dirs.map .statMarker ++ todo) t Q := by
  induction dirs generalizing t with
  | nil => exact rest t scene
  | cons a dirs ih =>
    have below := inside a mem_cons_self
    have others : ∀ b ∈ dirs, b <+: u.dir := fun b mem => inside b (mem_cons_of_mem a mem)
    have named := dirNamed plain below
    have away : markerIn a ≠ u.tempPath := markerAway below fun same => fresh.temp (by simp [Upload.tempPath,same])
    have away' : markerIn a ≠ u.sidecarTempPath := markerAway below fun same => fresh.sidecar (by simp [Upload.sidecarTempPath,same])
    have touched : Scene u ((t.write (markerIn a) ⟨.data [],u.now⟩).getD t) none none :=
      scene.change (writtenDirs _ _) ((writtenOther away _).trans scene.temp) ((writtenOther away' _).trans scene.side)
    cases seen : t.stat (markerIn a) with
    | missing =>
      refine succeedsCall [.touchMarker a] named (by rw [exec,seen]) ?_
      exact succeedsCall [] named rfl (ih others touched)
    | file _ | dir | notDirectory => exact succeedsCall [] named (by rw [exec,seen]) (ih others scene)

theorem createSucceeds {fault content} (named : Named u q) (new : q ≠ []) (parent : t.isDir q.dropLast = true) (free : t.get q = none)
    (rest : ∀ t', SameDirs t t' → t'.get q = some (.file ⟨content,u.now⟩) → (∀ r, q ≠ r → t'.get r = t.get r) →
      Succeeds (Named u) host u.now todo t' Q) :
    Succeeds (Named u) host u.now (.createTemp q fault :: .fill q content :: todo) t Q := by
  obtain ⟨made,created⟩ := writeDone ⟨.data [],u.now⟩ new parent (freeNotDir new free)
  have dirs := writeDirs created
  have here : made.get q = some (.file ⟨.data [],u.now⟩) := (getWrite created q).trans (if_pos rfl)
  obtain ⟨filled,written⟩ := writeDone ⟨content,u.now⟩ new ((dirs _).trans parent) (fileNotDir here)
  refine succeedsCall [] named (by rw [exec,if_pos free,created]; rfl) ?_
  have full : (if (made.file q).isSome then (made.write q ⟨content,u.now⟩).getD made else made) = filled := by
    rw [fileIff.mpr here,written]
    rfl
  refine succeedsCall [] named (by rw [exec,full]) ?_
  refine rest filled (fun r => (writeDirs written r).trans (dirs r)) ((getWrite written q).trans (if_pos rfl)) fun r other => ?_
  rw [getWrite written,if_neg other,getWrite created,if_neg other]

theorem moveSucceeds {source target file fault} (origin : Named u source)
    (goal : Named u target) (other : target ≠ source) (found : t.get source = some (.file file)) (new : target ≠ [])
    (parent : t.isDir target.dropLast = true) (free : t.isDir target = false)
    (rest : ∀ t', SameDirs t t' → (∀ q, t'.get q = if source = q then none else if target = q then some (.file file) else t.get q) →
      Succeeds (Named u) host u.now todo t' Q) : Succeeds (Named u) host u.now (.move source target fault :: todo) t Q := by
  obtain ⟨moved,done⟩ := moveDone found new parent free other
  refine succeedsCall [] ⟨origin,goal,Ne.symm other⟩ (by rw [exec,done]; rfl) ?_
  exact rest moved (renameDirs done other) (getRename found done)

theorem removeSucceeds (gone : t.get q = none) (rest : ∀ t', (∀ r, t'.get r = t.get r) → Succeeds (Named u) host u.now todo t' Q) :
    Succeeds (Named u) host u.now (.remove q :: todo) t Q := by
  have plain : t.get q ≠ some .dir := by simp [gone]
  refine succeedsCall [] (fun _ => plain) rfl (rest _ fun r => ?_)
  by_cases here : q = r
  · subst here
    rw [removedHere plain,gone]
  · exact removedOther here

theorem notDir (free : t.isDir q = false) : t.get q ≠ some .dir := fun found => by
  rw [isDirIff.mpr (.inr found)] at free
  contradiction

theorem repairSucceeds {temp side} (fresh : Temporary u) (plain : u.folder = false)
    (scene : Scene u t temp side) (rest : ∀ t', Scene u t' temp side → Succeeds (Named u) host u.now todo t' Q) :
    Succeeds (Named u) host u.now (.readStaged u.full :: todo) t Q := by
  obtain ⟨data,metadata,staging,_⟩ := planFile plain
  have stagingTemp : stagingOf u.full ≠ u.tempPath := fun same => fresh.temp (by simp [← same])
  have stagingSide : stagingOf u.full ≠ u.sidecarTempPath := fun same => fresh.sidecar (by simp [← same])
  have metadataTemp : metadataOf u.full ≠ u.tempPath := fun same => fresh.temp (by simp [← same])
  have metadataSide : metadataOf u.full ≠ u.sidecarTempPath := fun same => fresh.sidecar (by simp [← same])
  have named : Tame (Named u) t (.readStaged u.full) := ⟨fresh.present,data,metadata,staging⟩
  cases choice : repairChoice host.md5 (slotAt host t u.full) with
  | nothing => exact succeedsCall [] named (by rw [exec,choice]) (rest t scene)
  | discard =>
    have file := notDir scene.staging
    refine succeedsCall [.remove (stagingOf u.full)] named (by rw [exec,choice]) (succeedsCall [] (fun _ => file) rfl (rest _ ?_))
    exact scene.change (removedDirs file) ((removedOther stagingTemp).trans scene.temp) ((removedOther stagingSide).trans scene.side)
  | rollForward =>
    refine succeedsCall [.advance u.full] named (by rw [exec,choice]) (succeedsCall [] named rfl (rest _ ?_))
    exact scene.change (movedDirs (stagingMetadata fresh.present).symm) ((movedOther stagingTemp metadataTemp).trans scene.temp)
      ((movedOther stagingSide metadataSide).trans scene.side)

theorem commitSucceeds (fresh : Temporary u) (plain : u.folder = false) {m}
    (scene : Scene u t (some (.file ⟨.data u.data,u.now⟩)) (some (.file ⟨.sidecar m,u.now⟩))) {first second third} :
    Succeeds (Named u) host u.now [.move u.sidecarTempPath (stagingOf u.full) first,.move u.tempPath u.full second,
      .move (stagingOf u.full) (metadataOf u.full) third,.remove u.sidecarTempPath,.remove u.tempPath] t (Holds · u.full u.data m) := by
  obtain ⟨data,metadata,staging,temp,side⟩ := planFile plain
  have present := fresh.present
  have tempAway := fresh.temp
  have sideAway := fresh.sidecar
  simp only [mem_cons,not_or] at tempAway sideAway
  have stagingOther := stagingOther present
  have stagingMetadata := stagingMetadata present
  have metadataOther := metadataOther present
  have here : t.isDir u.full.dropLast = true := scene.dir
  refine moveSucceeds side staging (Ne.symm sideAway.2.2.1) scene.side (stagingPresent present)
    ((congrArg t.isDir (stagingDir present)).trans here) scene.staging fun t₁ dirs₁ get₁ => ?_
  have temp₁ : t₁.get u.tempPath = some (.file ⟨.data u.data,u.now⟩) := by
    rw [get₁,if_neg (Ne.symm tempAway.2.2.2.1),if_neg (Ne.symm tempAway.2.2.1)]
    exact scene.temp
  refine moveSucceeds temp data (Ne.symm tempAway.1) temp₁ present ((dirs₁ _).trans here) ((dirs₁ _).trans scene.data) fun t₂ dirs₂ get₂ => ?_
  have staging₂ : t₂.get (stagingOf u.full) = some (.file ⟨.sidecar m,u.now⟩) := by
    rw [get₂,if_neg tempAway.2.2.1,if_neg (Ne.symm stagingOther),get₁,if_neg sideAway.2.2.1,if_pos rfl]
  have parent₂ : t₂.isDir (metadataOf u.full).dropLast = true := by
    rw [metadataDir present,dirs₂,dirs₁]
    exact here
  refine moveSucceeds staging metadata (Ne.symm stagingMetadata) staging₂ (metadataPresent present) parent₂
    ((dirs₂ _).trans ((dirs₁ _).trans scene.metadata)) fun t₃ _ get₃ => ?_
  have side₃ : t₃.get u.sidecarTempPath = none := by
    rw [get₃,if_neg (Ne.symm sideAway.2.2.1),if_neg (Ne.symm sideAway.2.1),get₂,if_neg tempAway.2.2.2.1,
      if_neg (Ne.symm sideAway.1),get₁,if_pos rfl]
  have temp₃ : t₃.get u.tempPath = none := by
    rw [get₃,if_neg (Ne.symm tempAway.2.2.1),if_neg (Ne.symm tempAway.2.1),get₂,if_pos rfl]
  refine removeSucceeds side₃ fun t₄ get₄ => removeSucceeds ((get₄ _).trans temp₃) fun t₅ get₅ => succeedsNil ?_
  refine ⟨⟨u.now,?_⟩,⟨u.now,?_⟩,?_⟩
  · rw [get₅,get₄,get₃,if_neg stagingOther,if_neg metadataOther,get₂,if_neg tempAway.1,if_pos rfl]
  · rw [get₅,get₄,get₃,if_neg stagingMetadata,if_pos rfl]
  · rw [get₅,get₄,get₃,if_pos rfl]

theorem made {dir} (done : t.mkdirAll dir = some t') (outside : ¬ q <+: dir) : t'.get q = t.get q :=
  (getMkdirAll done q).trans (if_neg fun inside => outside inside.2)

theorem sidecarSucceeds {m undo} (named : Named u u.sidecarTempPath) (dir : t.isDir u.dir = true) (free : t.get u.sidecarTempPath = none)
    (rest : ∀ t', SameDirs t t' → t'.get u.sidecarTempPath = some (.file ⟨.sidecar m,u.now⟩) →
      (∀ r, u.sidecarTempPath ≠ r → t'.get r = t.get r) → Succeeds (Named u) host u.now todo t' Q) :
    Succeeds (Named u) host u.now (u.prepareMetadataTemp m undo ++ todo) t Q := by
  obtain ⟨again,done,same⟩ := madeAgain dir
  have dirs : SameDirs t again := sameDirsOf fun q => by rw [same]
  have inside : Named u u.dir := namedClosed.above (prefix_append _ _) named
  refine succeedsCall [] inside (by rw [exec,done]; rfl) ?_
  refine createSucceeds named sidecarTempNew ?_ ((same _).trans free) fun t' dirs' here others => ?_
  · rw [sidecarTempDir,dirs]
    exact dir
  · exact rest t' (fun q => (dirs' q).trans (dirs q)) here fun r other => (others r other).trans (same r)

theorem fileSucceeds (fresh : Temporary u) (plain : u.folder = false) (free : FileOpen u t) :
    Succeeds (Named u) host u.now (u.filePlan host) t (Holds · u.full u.data (calculated host.md5 u.now u.data u.metadata)) := by
  obtain ⟨_,_,_,temp,side⟩ := planFile plain
  have present := fresh.present
  obtain ⟨there,done⟩ := mkdirAllDone free.unblocked.above
  have outData : ¬ u.full <+: u.dir := notAbove present
  have outMetadata : ¬ metadataOf u.full <+: u.dir := by
    have out := notAbove (metadataPresent present)
    rwa [metadataDir present] at out
  have outStaging : ¬ stagingOf u.full <+: u.dir := by
    have out := notAbove (stagingPresent present)
    rwa [stagingDir present] at out
  have outTemp : ¬ u.tempPath <+: u.dir := by
    have out := notAbove (tempNew (u := u))
    rwa [tempDir] at out
  have outSide : ¬ u.sidecarTempPath <+: u.dir := by
    have out := notAbove (sidecarTempNew (u := u))
    rwa [sidecarTempDir] at out
  have scene : Scene u there none none := ⟨mkdirAllDir done,(mkdirAllDirs done outData).trans free.unblocked.data,
      (mkdirAllDirs done outMetadata).trans free.unblocked.metadata,(mkdirAllDirs done outStaging).trans free.unblocked.staging,
      (made done outTemp).trans free.temp,(made done outSide).trans free.side⟩
  refine succeedsCall [] (dirNamed plain prefix_rfl) (by rw [exec]; exact (congrArg _ done).trans rfl) ?_
  refine marksSucceed fresh plain (fun a mem => (memAncestors.mp (mem_reverse.mp mem)).2) scene fun t₁ scene₁ => ?_
  have sideTemp : u.tempPath ≠ u.sidecarTempPath := fun same => fresh.temp (by simp [same])
  refine createSucceeds temp tempNew (by rw [tempDir]; exact scene₁.dir) scene₁.temp fun t₂ dirs₂ here₂ others₂ => ?_
  have scene₂ := scene₁.change dirs₂ here₂ ((others₂ _ sideTemp).trans scene₁.side)
  refine repairSucceeds fresh plain scene₂ fun t₃ scene₃ => ?_
  refine sidecarSucceeds side scene₃.dir scene₃.side fun t₄ dirs₄ here₄ others₄ => ?_
  exact commitSucceeds fresh plain (scene₃.change dirs₄ ((others₄ _ (Ne.symm sideTemp)).trans scene₃.temp) here₄)

theorem planFolder (folder : u.folder = true) : Named u u.full ∧ Named u (markerIn u.full) ∧ Named u (metadataOf u.full) ∧
    Named u u.sidecarTempPath := by
  have all : ∀ n ∈ [u.full,markerIn u.full,metadataOf u.full,u.sidecarTempPath], Named u n :=
    fun n mem => ⟨n,by rw [names,folder]; exact mem,prefix_rfl⟩
  simp only [mem_cons,not_mem_nil,or_false,forall_eq_or_imp,forall_eq] at all
  exact all

theorem metadataLength (present : q ≠ []) : (metadataOf q).length = q.length := by
  have positive := length_pos_iff.mpr present
  rw [metadataOf,withSuffixEq present,length_append,length_dropLast,length_singleton]
  omega

theorem prefixDir {n} (inside : q <+: n) (shorter : q.length < n.length) : q <+: n.dropLast := by
  refine prefix_of_prefix_length_le inside ( dropLast_prefix n) ?_
  rw [length_dropLast]
  omega

section
variable (fresh : Temporary u) (folder : u.folder = true)
include fresh folder

theorem sidecarAbove (present : q ≠ []) (inside : q <+: u.full) (named : Named u (metadataOf q)) : q = u.full := by
  by_contra other
  have length := metadataLength present
  have shorter : q.length < u.full.length := lt_of_le_of_ne inside.length_le fun same => other (inside.eq_of_length same)
  have below : metadataOf q <+: u.full := by
    obtain ⟨_,mem,found⟩ := named
    simp only [names,folder,if_true,mem_cons,not_mem_nil,or_false] at mem
    have up : u.dir <+: u.full := dropLast_prefix _
    rcases mem with rfl | rfl | rfl | rfl
    · exact found
    · have short := prefixDir found (by simp [markerIn]; omega)
      rwa [markerIn,dropLast_concat] at short
    · have short := prefixDir found (by rw [metadataLength fresh.present]; omega)
      rw [metadataDir fresh.present] at short
      exact short.trans up
    have short := prefixDir found (by simp [Upload.sidecarTempPath,Upload.dir]; omega)
    rw [sidecarTempDir] at short
    exact short.trans up
  have same : metadataOf q <+: q := prefix_of_prefix_length_le below inside length.le
  exact metadataOther present (same.eq_of_length length)

theorem aboveSucceeds {dirs : List Path} (inside : ∀ a ∈ dirs, a ≠ [] ∧ a <+: u.full) (free : FolderOpen u t)
    (rest : ∀ t', Shrunk t t' → (∀ a ∈ dirs, t'.file a = none) → Succeeds (Named u) host u.now todo t' Q) :
    Succeeds (Named u) host u.now (dirs.map .statAbove ++ todo) t Q := by
  induction dirs generalizing t with
  | nil => exact rest t (shrunkSame t) (by simp)
  | cons a dirs ih =>
    obtain ⟨present,below⟩ := inside a mem_cons_self
    have others : ∀ b ∈ dirs, b ≠ [] ∧ b <+: u.full := fun b mem => inside b (mem_cons_of_mem a mem)
    have named : Named u a := namedClosed.above below (planFolder folder).1
    have goOn t₁ (shrunk : Shrunk t t₁) (gone : t₁.file a = none) : Succeeds (Named u) host u.now (dirs.map .statAbove ++ todo) t₁ Q := by
      refine ih others (free.shrunk shrunk) fun t' further clear => rest t' (shrunk.trans further) ?_
      intro b mem
      rcases mem_cons.mp mem with rfl | mem
      · exact further.file gone
      · exact clear b mem
    cases found : t.file a with
    | none => exact succeedsCall [] named (by rw [exec,found]; rfl) (goOn t (shrunkSame t) found)
    | some file =>
      have here : t.get a ≠ some .dir := by simp [fileIff.mp found]
      refine succeedsCall [.remove a,.remove (metadataOf a)] named (by rw [exec,found]; rfl) ?_
      refine succeedsCall [] (fun _ => here) rfl ?_
      have first : Shrunk t ((t.remove a).getD t) := removedShrunk a
      have gone : ((t.remove a).getD t).file a = none := by
        unfold Tree.file
        rw [removedHere here]
      refine succeedsCall [] (fun sidecar => ?_) rfl (goOn _ (first.trans (removedShrunk _)) ((removedShrunk _).file gone))
      have same := sidecarAbove fresh folder present below sidecar
      exact notDir (first.isDir (same ▸ free.metadata))

theorem folderSucceeds (free : FolderOpen u t) : Succeeds (Named u) host u.now u.folderPlan t
      (fun v => v.get u.full = some .dir ∧ ∃ time, v.get (metadataOf u.full) = some (.file ⟨.sidecar u.folderMetadata,time⟩)) := by
  obtain ⟨full,marker,metadata,side⟩ := planFolder folder
  have present := fresh.present
  have sideAway := fresh.sidecar
  simp only [mem_cons,not_mem_nil,not_or] at sideAway
  have outMetadata : ¬ metadataOf u.full <+: u.full := fun inside => metadataOther present (inside.eq_of_length (metadataLength present))
  have sideLength : u.sidecarTempPath.length = u.full.length := by
    have positive := length_pos_iff.mpr present
    simp only [Upload.sidecarTempPath,Upload.dir,length_append,length_dropLast,length_singleton]
    omega
  have outSide : ¬ u.sidecarTempPath <+: u.full := fun inside => sideAway.1 (inside.eq_of_length sideLength)
  have outMarker : ¬ markerIn u.full <+: u.full := fun inside => by
    have longer := inside.length_le
    simp only [markerIn,length_append,length_singleton] at longer
    omega
  have markerSide : markerIn u.full ≠ u.sidecarTempPath := fun same => by
    have lengths := congrArg List.length same
    rw [sideLength] at lengths
    simp [markerIn] at lengths
  unfold Upload.folderPlan
  rw [append_assoc,append_assoc]
  refine aboveSucceeds fresh folder (fun a mem => memAncestors.mp mem) free fun t₁ shrunk clear => ?_
  have free₁ := free.shrunk shrunk
  have way : ∀ a, a <+: u.full → t₁.file a = none := by
    intro a inside
    by_cases root : a = []
    · subst root
      simp [Tree.file,t₁.getRoot]
    · exact clear a (Tree.memAncestors.mpr ⟨root,inside⟩)
  obtain ⟨t₂,done⟩ := mkdirAllDone way
  have isdir := mkdirAllDir done
  refine succeedsCall [] full (by rw [exec,done]; rfl) ?_
  have free₂ : t₂.isDir (markerIn u.full) = false := (mkdirAllDirs done outMarker).trans free₁.marker
  have parent₂ : t₂.isDir (markerIn u.full).dropLast = true := (congrArg t₂.isDir dropLast_concat).trans isdir
  have new : markerIn u.full ≠ [] := by simp [markerIn]
  obtain ⟨t₃,created⟩ := writeDone ⟨.data [],u.now⟩ new parent₂ free₂
  have dirs₃ := writeDirs created
  refine succeedsCall [] marker (by rw [exec,created]; rfl) ?_
  have side₃ : t₃.get u.sidecarTempPath = none := by
    rw [getWrite created,if_neg markerSide,made done outSide]
    exact free₁.side
  have dir₃ : t₃.isDir u.dir = true := dirsAbove ((dirs₃ _).trans isdir) ( dropLast_prefix _)
  refine sidecarSucceeds side dir₃ side₃ fun t₄ dirs₄ here₄ _ => ?_
  have metadata₄ : t₄.isDir (metadataOf u.full) = false := by
    rw [dirs₄,dirs₃,mkdirAllDirs done outMetadata]
    exact free₁.metadata
  refine moveSucceeds side metadata (Ne.symm sideAway.2.1) here₄ (metadataPresent present) ?_ metadata₄ fun t₅ dirs₅ get₅ => ?_
  · rw [metadataDir present,dirs₄]
    exact dir₃
  refine removeSucceeds ((get₅ _).trans (if_pos rfl)) fun t₆ get₆ => succeedsNil ⟨?_,u.now,?_⟩
  · rw [get₆]
    refine (isDirIff.mp ?_).resolve_left present
    rw [dirs₅,dirs₄,dirs₃]
    exact isdir
  · rw [get₆,get₅,if_neg sideAway.2.1,if_pos rfl]

end

variable (host u) in
def Good (t : Files) : Prop :=
  if u.folder then t.get u.full = some .dir ∧ ∃ time, t.get (metadataOf u.full) = some (.file ⟨.sidecar u.folderMetadata, time⟩)
  else Holds t u.full u.data (calculated host.md5 u.now u.data u.metadata)

theorem goodAgree (agree : Agree (Named u) t t') (good : Good host u t) : Good host u t' := by
  unfold Good at good ⊢
  cases kind : u.folder with
  | true =>
    obtain ⟨full,_,metadata,_⟩ := planFolder kind
    simp only [kind] at good ⊢
    rwa [agree _ full,agree _ metadata]
  | false =>
    obtain ⟨full,metadata,staging,_⟩ := planFile kind
    simp only [kind] at good ⊢
    exact ⟨agree _ full ▸ good.data,agree _ metadata ▸ good.sidecar,(agree _ staging).trans good.staging⟩

theorem goodReadable (valid : validatePath u.path = true) (good : Good host u t) : Readable host u t := by
  unfold Good at good
  unfold Readable
  split at good
  · rename_i folder
    rwa [if_pos folder]
  rename_i plain
  rw [if_neg plain]
  exact getHeld valid good

theorem openSucceeds (fresh : Temporary u) (free : Open u t) : Succeeds (Named u) host u.now (u.plan host) t (Good host u) := by
  unfold Open at free
  unfold Upload.plan
  cases kind : u.folder with
  | true =>
    rw [kind] at free
    have same : Good host u = fun v => v.get u.full = some .dir ∧
        ∃ time, v.get (metadataOf u.full) = some (.file ⟨.sidecar u.folderMetadata,time⟩) := by
      unfold Good
      simp only [kind,if_true]
    rw [same]
    exact folderSucceeds fresh kind free
  | false =>
    rw [kind] at free
    have same : Good host u = (Holds · u.full u.data (calculated host.md5 u.now u.data u.metadata)) := by
      unfold Good
      simp only [kind,Bool.false_eq_true,if_false]
    rw [same]
    exact fileSucceeds fresh kind free

theorem openShrunk (free : Open u t) (shrunk : Shrunk t t') : Open u t' := by
  unfold Open at free ⊢
  split at free
  · rename_i folder
    rw [if_pos folder]
    exact FolderOpen.shrunk free shrunk
  rename_i plain
  rw [if_neg plain]
  exact FileOpen.shrunk free shrunk

theorem deleteRemoves {p at_ next} (turned : deleteTurn p t at_ = some (next, t')) (q : Path) :
    t'.get q = t.get q ∨ t'.get q = none ∧ ∃ d, removes p at_ = some d ∧ d <+: q := by
  have removed r (here : removes p at_ = some r) : ((t.remove r).getD t).get q = t.get q ∨
      ((t.remove r).getD t).get q = none ∧ ∃ d, removes p at_ = some d ∧ d <+: q := by
    by_cases same : r = q
    · subst same
      exact (removedShrunk r r).imp_right fun gone => ⟨gone,r,here,prefix_rfl⟩
    · exact .inl (removedOther same)
  have removedAll r (here : removes p at_ = some r) : (t.removeAll r).get q = t.get q ∨
      (t.removeAll r).get q = none ∧ ∃ d, removes p at_ = some d ∧ d <+: q := by
    rw [getRemoveAll]
    split
    · rename_i below
      exact .inr ⟨rfl,r,here,below⟩
    · exact .inl rfl
  cases at_ with
  | file =>
    have after := removed p rfl
    change (match t.remove p with | some t' => some (DeletePoint.sidecar, t') | none => some (DeletePoint.listing (above p), t)) = _ at turned
    cases done : t.remove p with
    | some gone =>
      rw [done] at turned after
      cases turned
      exact after
    | none =>
      rw [done] at turned
      cases turned
      exact .inl rfl
  | folder => cases turned; exact removedAll p rfl
  | sidecarThere => cases turned; exact removed (metadataOf p) rfl
  | staged => cases turned; exact removed (stagingOf p) rfl
  | removing dir rest => cases turned; exact removedAll dir rfl
  | waiting | sidecar => cases turned; exact .inl rfl
  | listing dirs =>
    cases dirs with
    | nil => cases turned; exact .inl rfl
    | cons dir rest =>
      change (if t.isDir dir = true ∧ (children t dir).all isSystemName = true then some (DeletePoint.removing dir rest, t)
        else some (.returned, t)) = _ at turned
      split at turned <;> cases turned <;> exact .inl rfl
  | returned => contradiction

-- Until its first call the Put would come through; from then on the calls it has left do.
variable (host u) in
def Sound (w : World) : Prop := match w.put with
  | .waiting => Open u w.files
  | .running todo => Succeeds (Named u) host u.now todo w.files (Good host u)
  | .unwinding _ _ => False

theorem takeSound {point} (going : Succeeds (Named u) host u.now todo w.files (Good host u))
    (turned : take host u.now w.files todo = some (point, t)) : Sound host u { w with put := point, files := t } := by
  cases todo with
  | nil => contradiction
  | cons op todo =>
    obtain ⟨_,_,made,rest⟩ := succeedsStep going
    simp only [take,made] at turned
    cases turned
    exact rest

theorem putSound {point} (fresh : Temporary u) (sound : Sound host u w)
    (turned : putTurn host u w.files w.put = some (point, t)) : Sound host u { w with put := point, files := t } := by
  obtain ⟨_,at_,_⟩ := w
  cases at_ with
  | waiting => exact takeSound (openSucceeds fresh sound) turned
  | running todo => exact takeSound sound turned
  | unwinding _ _ => exact sound.elim

theorem deleteSound {p point} (sound : Sound host u w) (harmless : Harmless u p w .delete)
    (turned : deleteTurn p w.files w.delete = some (point, t)) : Sound host u { w with delete := point, files := t } := by
  obtain ⟨files,at_,_⟩ := w
  have after := deleteRemoves turned
  have shrunk : Shrunk files t := fun q => (after q).imp_right And.left
  cases at_ with
  | waiting => exact openShrunk sound shrunk
  | unwinding _ _ => exact sound.elim
  | running todo =>
    have agree : Agree (Named u) files t := by
      intro q named
      refine (after q).resolve_right fun gone => ?_
      obtain ⟨_,d,removing,below⟩ := gone
      obtain ⟨n,mem,inside⟩ := named
      rcases harmless d removing with waiting | away
      · contradiction
      · exact away n mem (below.trans inside)
    exact succeedsLocal namedClosed agree (fun _ _ => goodAgree) sound

theorem stepSound {w' p turn} (fresh : Temporary u) (sound : Sound host u w) (harmless : Harmless u p w turn)
    (stepped : step host u p w turn = some w') : Sound host u w' := by
  cases turn with
  | put =>
    obtain ⟨⟨point,t⟩,turned,same⟩ := Option.map_eq_some_iff.mp stepped
    exact same ▸ putSound fresh sound turned
  | delete =>
    obtain ⟨⟨_,_⟩,turned,same⟩ := Option.map_eq_some_iff.mp stepped
    exact same ▸ deleteSound sound harmless turned

/-- A Put beside a deletion that, once the Put has begun, removes none of the directories the Put works in is not refused, and what it
returns with is there to be read. -/
theorem uploadBesideDeletion (host : Host) (u : Upload) (p : Path) (fresh : Temporary u) (valid : validatePath u.path = true) {files}
    (free : Open u files) {turns} {w} (harmless : Along (step host u p) (Harmless u p) (begin_ files) turns)
    (ran : run (step host u p) (begin_ files) turns = some w) : (∀ undo e, w.put ≠ .unwinding undo e) ∧
    (w.put = .running [] → Readable host u w.files) := by
  have start : Sound host u (begin_ files) := free
  have sound : Sound host u w := runKeeps (stepSound fresh) start harmless ran
  refine ⟨fun undo e failed => ?_,fun returned => ?_⟩
  · rw [Sound,failed] at sound
    exact sound
  rw [Sound,returned] at sound
  obtain ⟨_,_,finished,good⟩ := sound
  cases finished
  exact goodReadable valid good

end

instance (u : Upload) (p : Path) (w : World) : (turn : Turn) → Decidable (Harmless u p w turn)
  | .put => .isTrue trivial
  | .delete => inferInstanceAs (Decidable (∀ d ∈ removes p w.delete, w.put = .waiting ∨ ∀ n ∈ names u, ¬ d <+: n))

def tinyHost : Host where
  md5 := fun data => ascii "m" ++ data
  encode := fun _ => []
  decode := fun _ => none
  directorySize := 0
  directoryTime := fun _ => 0

def oneObject : Files := (put tinyHost 0 (ascii "b/a/x") [1] empty .empty).2

def uploadTo (path : Bytes) : Upload where
  path := path
  data := [2]
  metadata := empty
  now := 1
  temp := ascii ".put-1"
  sidecarTemp := ascii ".sidecar-1"

def oldPath : Path := getFullPath (ascii "b/a/x")

theorem uploadOpen {path files} (plain : (uploadTo path).folder = false) (above : ∀ a ∈ (uploadTo path).dir.inits, files.file a = none)
    (dirs : ∀ q ∈ [(uploadTo path).full,metadataOf (uploadTo path).full,stagingOf (uploadTo path).full], files.isDir q = false)
    (temps : ∀ q ∈ [(uploadTo path).tempPath,(uploadTo path).sidecarTempPath], files.get q = none) : Open (uploadTo path) files := by
  unfold Open
  rw [plain]
  simp only [mem_cons,not_mem_nil,or_false,forall_eq_or_imp,forall_eq] at dirs temps
  exact ⟨⟨fun a inside => above a ((mem_inits _ _).mpr inside),dirs.1,dirs.2.1,dirs.2.2⟩,temps.1,temps.2⟩

theorem besideOpen : Open (uploadTo (ascii "b/z/y")) oneObject :=
  uploadOpen (by decide +kernel) (by decide +kernel) (by decide +kernel) (by decide +kernel)

theorem siblingOpen : Open (uploadTo (ascii "b/a/y")) oneObject :=
  uploadOpen (by decide +kernel) (by decide +kernel) (by decide +kernel) (by decide +kernel)

-- In turns, a call each, until the deletion has returned; then the Put goes on.
def inTurns : List Turn := (List.replicate 8 [Turn.delete, .put]).flatten ++ List.replicate 7 .put

theorem uploadBesideDeletionMet : ∃ w, run (step tinyHost (uploadTo (ascii "b/z/y")) oldPath) (begin_ oneObject) inTurns = some w ∧
    w.put = .running [] ∧ w.delete = .returned ∧ Readable tinyHost (uploadTo (ascii "b/z/y")) w.files := by
  refine runShows (fun w => w.put = .running [] ∧ w.delete = .returned) (by decide +kernel) fun w done ⟨put,delete⟩ => ⟨put,delete,?_⟩
  have passed : checked (step tinyHost (uploadTo (ascii "b/z/y")) oldPath)
      (fun w turn => decide (Harmless (uploadTo (ascii "b/z/y")) oldPath w turn)) (begin_ oneObject) inTurns = true := by decide +kernel
  have harmless : Along (step tinyHost (uploadTo (ascii "b/z/y")) oldPath) (Harmless (uploadTo (ascii "b/z/y")) oldPath)
      (begin_ oneObject) inTurns :=
    alongChecked (fun _ _ => of_decide_eq_true) (fun _ _ _ => trivial) (fun _ _ => trivial) trivial passed
  have fresh : Temporary (uploadTo (ascii "b/z/y")) := ⟨by decide +kernel,by decide +kernel,by decide +kernel⟩
  exact (uploadBesideDeletion tinyHost _ oldPath fresh (by decide +kernel) besideOpen harmless done).2 put

-- The deletion has seen that nothing but system files is left and is about to remove the directory.
def aboutToRemove : List Turn := List.replicate 6 .delete

-- The Put comes through before the directory goes, or has just made sure of the directory when it goes.
def lostAfter : List Turn := aboutToRemove ++ List.replicate 14 .put ++ [.delete]
def refusedAfter : List Turn := aboutToRemove ++ [.put, .delete] ++ List.replicate 4 .put

theorem directoryTakenAway : Temporary (uploadTo (ascii "b/a/y")) ∧ validatePath (ascii "b/a/y") = true ∧
    Open (uploadTo (ascii "b/a/y")) oneObject ∧
    oldPath ≠ (uploadTo (ascii "b/a/y")).full ∧
    (∃ w, run (step tinyHost (uploadTo (ascii "b/a/y")) oldPath) (begin_ oneObject) lostAfter = some w ∧ w.put = .running [] ∧
      ¬ Readable tinyHost (uploadTo (ascii "b/a/y")) w.files) ∧
    ∃ w, run (step tinyHost (uploadTo (ascii "b/a/y")) oldPath) (begin_ oneObject) refusedAfter = some w ∧
    w.put = .unwinding [] .createTempFile := by
  refine ⟨⟨by decide +kernel,by decide +kernel,by decide +kernel⟩,by decide +kernel,siblingOpen,by decide +kernel,?_,by decide +kernel⟩
  refine runShows (fun w => w.put = .running [] ∧ (get tinyHost (ascii "b/a/y") w.files).1.toOption = none) (by decide +kernel)
    fun w done ⟨put,gone⟩ => ⟨put,fun readable => ?_⟩
  have read : get tinyHost (ascii "b/a/y") w.files = _ := readable
  rw [read] at gone
  contradiction

end MaxIOFS.CleanupRaces
