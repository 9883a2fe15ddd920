import MaxIOFS.StoredObjects

/-! What a read of an object depends on: the record of the key, and at the object's path the
data file, its sidecar and its staged sidecar. States that agree there answer alike. -/
namespace MaxIOFS.ObjectReads
open StagedCommit ByteString FileTree Effects ObjectManager Records MetadataStore StoredFiles StoredObjects
    FileFrame Filesystem ObjectMetadata Tree

def names (p : Path) : List Path := [p, metadataOf p, stagingOf p]

structure SameFiles (p : Path) (t t' : Files) : Prop where
  file : ∃ f, t.get p = some (.file f)
  same : ∀ q ∈ names p, t'.get q = t.get q

section
variable {p : Path} {t t' : Files} {host : Host}

theorem SameFiles.present (agree : SameFiles p t t') : p ≠ [] := by
  obtain ⟨_,found⟩ := agree.file
  rintro rfl
  rw [t.getRoot] at found
  contradiction

theorem SameFiles.other (agree : SameFiles p t t') : ∃ f, t'.get p = some (.file f) := by
  obtain ⟨f,found⟩ := agree.file
  exact ⟨f,(agree.same p (by simp [names])).trans found⟩

theorem statOf {q} (named : q ≠ []) (parent : t.isDir q.dropLast = true) (parent' : t'.isDir q.dropLast = true)
    (same : t'.get q = t.get q) : t'.stat q = t.stat q := by
  cases found : t.get q with
  | none => rw [statFree named parent found,statFree named parent' (same.trans found)]
  | some node =>
    cases node with
    | dir => rw [statDir.mpr (isDirIff.mpr (.inr found)),statDir.mpr (isDirIff.mpr (.inr (same.trans found)))]
    | file f => rw [statFile.mpr found,statFile.mpr (same.trans found)]

theorem namesDir (present : p ≠ []) {q} (mem : q ∈ names p) : q ≠ [] ∧ q.dropLast = p.dropLast := by
  simp only [names,List.mem_cons,List.not_mem_nil,or_false] at mem
  rcases mem with rfl | rfl | rfl
  · exact ⟨present,rfl⟩
  · exact ⟨metadataPresent present,metadataDir present⟩
  · exact ⟨stagingPresent present,stagingDir present⟩

section
variable (agree : SameFiles p t t')
include agree

theorem SameFiles.stat {q} (mem : q ∈ names p) : t'.stat q = t.stat q := by
  obtain ⟨named,dir⟩ := namesDir agree.present mem
  obtain ⟨_,found⟩ := agree.file
  obtain ⟨_,found'⟩ := agree.other
  exact statOf named (dir ▸ t.parents _ _ found) (dir ▸ t'.parents _ _ found') (agree.same q mem)

theorem SameFiles.slot : slotAt host t' p = slotAt host t p := by
  have file q (mem : q ∈ names p) : t'.file q = t.file q := by
    unfold Tree.file
    rw [agree.same q mem]
  unfold slotAt
  rw [file p (by simp [names]),file (metadataOf p) (by simp [names]),file (stagingOf p) (by simp [names])]

theorem sameRemoved {f} (staged : t.get (stagingOf p) = some (.file f)) :
    SameFiles p ((t.remove (stagingOf p)).getD t) ((t'.remove (stagingOf p)).getD t') := by
  obtain ⟨u,done⟩ := removeFile staged
  obtain ⟨u',done'⟩ := removeFile ((agree.same (stagingOf p) (by simp [names])).trans staged)
  obtain ⟨data,found⟩ := agree.file
  rw [done,done']
  refine ⟨⟨data,?_⟩,fun q mem => ?_⟩
  · exact (getRemove done p).trans ((if_neg (stagingOther agree.present)).trans found)
  · change u'.get q = u.get q
    rw [getRemove done,getRemove done',agree.same q mem]

theorem sameRenamed {f} (staged : t.get (stagingOf p) = some (.file f)) :
    SameFiles p ((rename t (stagingOf p) (metadataOf p)).getD t) ((rename t' (stagingOf p) (metadataOf p)).getD t') := by
  have present := agree.present
  have staged' := (agree.same (stagingOf p) (by simp [names])).trans staged
  obtain ⟨data,found⟩ := agree.file
  obtain ⟨_,found'⟩ := agree.other
  have sameDir : t'.isDir (metadataOf p) = t.isDir (metadataOf p) := by
    rw [Bool.eq_iff_iff,isDirIff,isDirIff,agree.same (metadataOf p) (by simp [names])]
  cases done : rename t (stagingOf p) (metadataOf p) with
  | none =>
    have blocked : t.isDir (metadataOf p) = true := by
      by_contra free
      obtain ⟨u,moved⟩ := renameStaged present staged (t.parents _ _ found) (by simpa using free)
      rw [done] at moved
      contradiction
    have none_ : rename t' (stagingOf p) (metadataOf p) = none := by
      rw [Option.eq_none_iff_forall_ne_some]
      intro u moved
      simp only [rename,fileIff.mpr staged',bind,Option.bind_some,Option.bind_eq_some_iff] at moved
      obtain ⟨_,written,_⟩ := moved
      rw [(writeParent written).2.2] at sameDir
      rw [blocked] at sameDir
      contradiction
    rw [none_]
    exact agree
  | some u =>
    have free : t'.isDir (metadataOf p) = false := by
      simp only [rename,fileIff.mpr staged,bind,Option.bind_some,Option.bind_eq_some_iff] at done
      obtain ⟨_,written,_⟩ := done
      exact sameDir.trans (writeParent written).2.2
    obtain ⟨u',done'⟩ := renameStaged present staged' (t'.parents _ _ found') free
    rw [done']
    refine ⟨⟨data,?_⟩,fun q mem => ?_⟩
    · change u.get p = _
      rw [getRename staged done,if_neg (stagingOther present),if_neg (metadataOther present)]
      exact found
    · change u'.get q = u.get q
      rw [getRename staged done,getRename staged' done',agree.same q mem]

end

def repaired (p : Path) (t : Files) : StagedCommit.Repair → Files
  | .nothing => t
  | .discard => (t.remove (stagingOf p)).getD t
  | .rollForward => (rename t (stagingOf p) (metadataOf p)).getD t

theorem agreesRepair : Agrees (SameFiles p) (repairStagedCommit host p) := by
  intro t t' agree
  have run u : repairStagedCommit host p u = (.ok (), repaired p u (repairChoice host.md5 (slotAt host u p))) := by
    unfold Filesystem.repairStagedCommit
    dsimp only [bind,gets]
    cases repairChoice host.md5 (slotAt host u p) <;> rfl
  rw [run,run,agree.slot]
  refine ⟨rfl,?_⟩
  cases staged : t.file (stagingOf p) with
  | none =>
    have nothing : repairChoice host.md5 (slotAt host t p) = .nothing := by
      simp only [slotAt,repairChoice,staged,Option.map_none]
    rw [nothing]
    exact agree
  | some f =>
    have staged := fileIff.mp staged
    cases repairChoice host.md5 (slotAt host t p) with
    | nothing => exact agree
    | discard => exact sameRemoved agree staged
    | rollForward => exact sameRenamed agree staged

theorem agreesMaybeRepair : Agrees (SameFiles p) (maybeRepair host p) := by
  refine .bind (.gets fun t t' agree => (agree.stat (by simp [names])).symm) fun staged => ?_
  cases staged with
  | file _ | dir => exact agreesRepair
  | missing | notDirectory => exact .pure _

theorem agreesGetMetadata {path} : Agrees (SameFiles (getFullPath path)) (getMetadata host path) := by
  refine .bind (.check _ _) fun _ => .bind agreesMaybeRepair fun _ => .observe fun t t' agree => ?_
  unfold readSidecar Filesystem.generateBasicMetadata
  rw [agree.stat (by simp [names]),agree.stat (by simp [names])]

theorem agreesGet {path} : Agrees (SameFiles (getFullPath path)) (get host path) :=
  .bind (.check _ _) fun _ => .bind agreesMaybeRepair fun _ => .bind
    (.observe fun t t' agree => by rw [agree.stat (by simp [names])]) fun _ => .bind agreesGetMetadata fun _ => .pure _

end

section
variable {node} {bucket key v} {s t}

def pathIn (s : State) (bucket key v : Bytes) : Path := getFullPath (pathOf bucket key (if v = [] then currentVersion s bucket key else v))

theorem getFile {host path t} : wp (get host path) (fun r _ => ∀ d, r.1 = some d → ∃ f,
    t.get (getFullPath path) = some (.file f)) (fun _ _ => True) t := by
  rw [Filesystem.get,wpBind,wpCheck]
  refine ⟨fun valid => ?_,fun _ => trivial⟩
  have present : getFullPath path ≠ [] := by
    simp only [validatePath,Bool.and_eq_true] at valid
    simpa using valid.2
  have repair : Keeps (At (getFullPath path) (t.get (getFullPath path))) (maybeRepair host (getFullPath path)) :=
    keepsMaybeRepair (besideSelf present)
  rw [wpBind]
  refine wpLax (repair t rfl) fun _ t₁ same => ?_
  rw [wpBind,wpObserve]
  have rest {data : Option Bytes} (known : ∀ d, data = some d → ∃ f, t.get (getFullPath path) = some (.file f)) :
      wp (do let m ← getMetadata host path; pure (data, m))
        (fun r _ => ∀ d, r.1 = some d → ∃ f, t.get (getFullPath path) = some (.file f)) (fun _ _ => True) t₁ := by
    rw [wpBind]
    exact wpLax (wpOfState (P := fun _ => True) trivial) fun _ _ _ => known
  cases shown : t₁.stat (getFullPath path) with
  | missing => trivial
  | notDirectory => trivial
  | dir => exact rest (fun _ none_ => by contradiction)
  | file f => exact rest (fun _ _ => ⟨f,same.symm.trans (statFile.mp shown)⟩)

theorem recordToReadSpec (bucket key v : Bytes) (s : State) : wp (recordToRead bucket key v)
    (fun record s' => s' = s ∧ (if v = [] then (record.map versionID).getD [] else v) =
      if v = [] then currentVersion s bucket key else v) (fun _ s' => s' = s) s := by
  rw [recordToRead,wpIte]
  refine ⟨fun current => ?_,fun specific => ?_⟩
  · exact ⟨rfl,rfl⟩
  rw [wpBind,getObjectRecord,wpObserve,if_neg specific]
  split
  · exact ⟨rfl,if_neg specific⟩
  · rfl

theorem readFile {obj d} (read : (getObject node bucket key v s).1 = .ok (obj, some d)) :
    ∃ f, s.files.get (pathIn s bucket key v) = some (.file f) := by
  have opened {m} {data} {obj} {r} (ok : openObject node m data obj = .ok r) {d : Bytes} (bytes : r.2 = some d) : ∃ d', data = some d' := by
    unfold openObject at ok
    split at ok
    · split at ok <;> try contradiction
      cases ok
      cases data with
      | none => contradiction
      | some d' => exact ⟨d',rfl⟩
    · cases ok
      exact ⟨d,bytes⟩
  have spec : wp (getObject node bucket key v)
      (fun r _ => ∀ d, r.2 = some d → ∃ f, s.files.get (pathIn s bucket key v) = some (.file f)) (fun _ _ => True) s := by
    rw [getObject,wpBind,wpCheck]
    refine ⟨fun _ => ?_,fun _ => trivial⟩
    rw [wpBind]
    refine wpLax (recordToReadSpec bucket key v s) fun record s₁ done => ?_
    obtain ⟨rfl,version⟩ := done
    simp only [version]
    rw [wpBind,wpMapError,wpStorage]
    refine wpLax getFile fun r files known => ?_
    obtain ⟨data,m⟩ := r
    have observed obj : wp (observe (fun _ => openObject node m data obj))
        (fun r _ => ∀ d, r.2 = some d → ∃ f, s₁.files.get (pathIn s₁ bucket key v) = some (.file f)) (fun _ _ => True)
        { s₁ with files := files } := by
      rw [wpObserve]
      split
      · rename_i r ok
        intro d bytes
        obtain ⟨d',data_⟩ := opened ok bytes
        exact known d' data_
      · trivial
    cases record with
    | none => exact observed _
    | some obj =>
      rw [wpIte]
      exact ⟨fun _ => trivial,fun _ => observed _⟩
  unfold wp at spec
  split at spec <;> rename_i result <;> rw [result] at read
  · cases read
    exact spec d rfl
  · contradiction

end

structure SameObject (bucket key v : Bytes) (s t : State) : Prop where
  record : t.db.objects.get (objectKey bucket key) = s.db.objects.get (objectKey bucket key)
  version : currentVersion s bucket key = v
  files : SameFiles (getFullPath (pathOf bucket key v)) s.files t.files

section
variable {node : Node} {bucket key v : Bytes} {s t : State}

theorem SameObject.stored (same : SameObject bucket key v s t) : stored t bucket key = stored s bucket key := by
  unfold ObjectManager.stored Database.getObject Database.record
  simp only [if_true,same.record]

theorem agreesStorage {α} {m : Action Files StorageError α}
    (agrees : Agrees (SameFiles (getFullPath (pathOf bucket key v))) m) : Agrees (SameObject bucket key v) (storage m) :=
  .mapError (.within agrees (fun _ _ same => same.files) (fun _ _ _ _ same files => ⟨same.record,same.version,files⟩))

theorem agreesGetObject : Agrees (SameObject bucket key v) (getObject node bucket key []) := by
  refine .bind (.check _ _) fun _ => ?_
  refine Agrees.getsBind (P := fun record => (record.map versionID).getD [] = v)
    (fun s t same => ⟨same.stored.symm,same.version⟩) fun record version => ?_
  simp only [if_true,version]
  refine .bind (.mapError (agreesStorage agreesGet)) fun (data, m) => ?_
  cases record with
  | none => exact .observe fun _ _ _ => rfl
  | some obj =>
    dsimp only
    split
    · exact .fail _
    · exact .observe fun _ _ _ => rfl

structure SameVersion (bucket key v : Bytes) (s t : State) : Prop where
  record : t.db.getObject bucket key v = s.db.getObject bucket key v
  files : SameFiles (getFullPath (getVersionedObjectPath bucket key v)) s.files t.files

theorem agreesGetVersion (specific : v ≠ []) : Agrees (SameVersion bucket key v) (getObject node bucket key v) := by
  have record : Agrees (SameVersion bucket key v) (recordToRead bucket key v) := by
    rw [recordToRead,if_neg specific]
    refine .bind (.observe fun _ _ same => ?_) fun _ => .pure _
    rw [same.record]
  have file : Agrees (SameVersion bucket key v) (storage (get node.host (getVersionedObjectPath bucket key v))) :=
    .mapError (.within agreesGet (fun _ _ same => same.files) (fun _ _ _ _ same files => ⟨same.record,files⟩))
  refine .bind (.check _ _) fun _ => .bind record fun record => ?_
  simp only [if_neg specific]
  refine .bind (.mapError file) fun read => ?_
  cases record with
  | none => exact .observe fun _ _ _ => rfl
  | some obj =>
    dsimp only
    split
    · exact .fail _
    · exact .observe fun _ _ _ => rfl

end

end MaxIOFS.ObjectReads
