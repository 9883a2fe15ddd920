import MaxIOFS.FileFrame

/-! What a completed put leaves at its path, when a put is refused, and what a read finds. -/
namespace MaxIOFS.StoredFiles
open ByteString FileTree Effects Filesystem FileFrame
open StagedCommit (Metadata repairChoice calculated)
open List Tree

theorem fullAppend (a b : Bytes) : getFullPath (a ++ slash :: b) = getFullPath a ++ getFullPath b := by
  unfold getFullPath
  rw [splitAppend,filter_append]

theorem fullName {v} (segment : slash ∉ v) (present : v ≠ []) (named : v ≠ ascii ".") : getFullPath v = [v] := by
  unfold getFullPath
  rw [splitSegment segment,filter_cons_of_pos (by simp [present,named]),filter_nil]

theorem suffixLast (dir : Path) (v suffix : Bytes) : withSuffix (dir ++ [v]) suffix = dir ++ [v ++ suffix] := by
  simp [withSuffix]

section
variable {p q : Path} {a b : Bytes}

section
variable (present : p ≠ [])
include present

theorem withSuffixEq (suffix : Bytes) : withSuffix p suffix = p.dropLast ++ [p.getLast present ++ suffix] := by
  unfold withSuffix
  rw [List.getLast?_eq_some_getLast present]

theorem withSuffixDir (suffix : Bytes) : (withSuffix p suffix).dropLast = p.dropLast := by
  rw [withSuffixEq present,dropLast_concat]

theorem withSuffixPresent (suffix : Bytes) : withSuffix p suffix ≠ [] := by
  rw [withSuffixEq present]
  simp

theorem withSuffixInj (same : withSuffix p a = withSuffix p b) : a = b := by
  rw [withSuffixEq present,withSuffixEq present] at same
  simpa using same

theorem withSuffixNil : withSuffix p [] = p := by
  rw [withSuffixEq present,append_nil,dropLast_concat_getLast]

theorem metadataPresent : metadataOf p ≠ [] := withSuffixPresent present _
theorem stagingPresent : stagingOf p ≠ [] := withSuffixPresent present _
theorem metadataDir : (metadataOf p).dropLast = p.dropLast := withSuffixDir present _
theorem stagingDir : (stagingOf p).dropLast = p.dropLast := withSuffixDir present _

theorem metadataOther : metadataOf p ≠ p := by
  intro same
  have empty : ascii ".metadata" = [] := withSuffixInj present (same.trans (withSuffixNil present).symm)
  exact absurd empty (by decide)

theorem stagingOther : stagingOf p ≠ p := by
  intro same
  have empty : ascii ".metadata-staging" = [] := withSuffixInj present (same.trans (withSuffixNil present).symm)
  exact absurd empty (by decide)

theorem stagingMetadata : stagingOf p ≠ metadataOf p := fun same =>
  absurd (withSuffixInj present same) (by decide)

end

theorem withSuffixSame {q suffix} (same : withSuffix p suffix = withSuffix q suffix) : p = q := by
  by_cases empty : p = []
  · subst empty
    by_contra other
    exact withSuffixPresent (Ne.symm other) suffix same.symm
  by_cases empty' : q = []
  · subst empty'
    exact absurd same (withSuffixPresent empty suffix)
  rw [withSuffixEq empty,withSuffixEq empty'] at same
  obtain ⟨front,last⟩ := append_inj' same rfl
  have names : p.getLast empty = q.getLast empty' := append_cancel_right (List.cons.inj last).1
  rw [← dropLast_append_getLast empty,← dropLast_append_getLast empty',front,names]

theorem stagingElsewhere {q} (present : q ≠ []) : stagingOf p ≠ metadataOf q := by
  intro same
  by_cases empty : p = []
  · subst empty
    exact metadataPresent present same.symm
  rw [stagingOf,metadataOf,withSuffixEq empty,withSuffixEq present] at same
  have last := (List.cons.inj (append_inj' same rfl).2).1
  have ending : (p.getLast empty ++ ascii ".metadata-staging").getLast? = (q.getLast present ++ ascii ".metadata").getLast? :=
    congrArg List.getLast? last
  have staged : (ascii ".metadata-staging").getLast? = some 103 := by decide
  have plain : (ascii ".metadata").getLast? = some 97 := by decide
  rw [List.getLast?_append,List.getLast?_append,staged,plain] at ending
  exact absurd (Option.some.inj ending) (by decide)

structure Apart (p q : Path) : Prop where
  different : p ≠ q
  metadata : metadataOf p ≠ q
  staging : stagingOf p ≠ q
  way : ¬ stagingOf q <+: p.dropLast

theorem apartBeside {q} (present : q ≠ []) (present' : p ≠ []) (apart : Apart p q) : ∀ x ∈ [q,metadataOf q,stagingOf q], Beside x p := by
  simp only [mem_cons,not_mem_nil,or_false,forall_eq_or_imp,forall_eq]
  refine ⟨⟨apart.metadata,apart.staging⟩,⟨fun same => apart.different (withSuffixSame same),stagingElsewhere present⟩,
    ⟨fun same => stagingElsewhere present' same.symm,fun same => apart.different (withSuffixSame same)⟩⟩

end

def SameDirs (t t' : Files) : Prop := ∀ q, t'.isDir q = t.isDir q

section
variable {t t' : Files} {p q : Path} {host : Host}

theorem isDirIff : t.isDir q = true ↔ q = [] ∨ t.get q = some .dir := dirInIff

theorem sameDirsOf (same : ∀ q, t'.get q = some .dir ↔ t.get q = some .dir) : SameDirs t t' := by
  intro q
  rw [Bool.eq_iff_iff,isDirIff,isDirIff,same]

theorem writeDirs {file} (done : t.write p file = some t') : SameDirs t t' := by
  refine sameDirsOf fun q => ?_
  obtain ⟨_,_,free⟩ := writeParent done
  rw [getWrite done]
  split
  · rename_i here
    subst here
    have nodir : t.get p ≠ some .dir := fun found => by simp [isDirIff.mpr (.inr found)] at free
    simp [nodir]
  · rfl

theorem removeDirs {file} (found : t.get p = some (.file file)) (done : t.remove p = some t') : SameDirs t t' := by
  refine sameDirsOf fun q => ?_
  rw [getRemove done]
  split
  · rename_i here
    subst here
    simp [found]
  · rfl

theorem SameDirs.trans {t''} (first : SameDirs t t') (second : SameDirs t' t'') : SameDirs t t'' := fun q => (second q).trans (first q)

theorem renameDirs {source} (done : rename t source p = some t') (other : p ≠ source) : SameDirs t t' := by
  simp only [rename,bind,Option.bind_eq_some_iff] at done
  obtain ⟨file,found,moved,written,removed⟩ := done
  have still : moved.get source = some (.file file) := by
    rw [getWrite written,if_neg other]
    exact fileIff.mp found
  exact (writeDirs written).trans (removeDirs still removed)

theorem markersDirs {start} (now : Int) (dir : Path) (same : SameDirs start t) :
    wp (ensureFolderMarkersInPath now dir) (fun _ => SameDirs start) (fun _ _ => False) t := by
  refine wpEach (fun a _ t same => ?_) same
  rw [wpUpdate]
  split
  · cases done : t.write (markerIn a) ⟨.data [],now⟩ with
    | none => exact same
    | some t' => exact same.trans (writeDirs done)
  · exact same

theorem repairStaged (chosen : repairChoice host.md5 (slotAt host t p) ≠ .nothing) : ∃ file, t.get (stagingOf p) = some (.file file) := by
  cases staged : t.file (stagingOf p) with
  | none => simp [repairChoice,slotAt,staged] at chosen
  | some file => exact ⟨file,fileIff.mp staged⟩

theorem repairDirs {start} (present : p ≠ []) (same : SameDirs start t) :
    wp (repairStagedCommit host p) (fun _ => SameDirs start) (fun _ _ => False) t := by
  rw [repairStagedCommit,wpBind,wpGets]
  cases chosen : repairChoice host.md5 (slotAt host t p) with
  | nothing => exact same
  | discard =>
    have staged : repairChoice host.md5 (slotAt host t p) ≠ .nothing := by
      rw [chosen]
      simp
    obtain ⟨_,found⟩ := repairStaged staged
    obtain ⟨t',done⟩ := removeFile found
    change SameDirs start ((t.remove (stagingOf p)).getD t)
    rw [done]
    exact same.trans (removeDirs found done)
  | rollForward =>
    rw [wpUpdate]
    cases done : rename t (stagingOf p) (metadataOf p) with
    | none => exact same
    | some t' => exact same.trans (renameDirs done (stagingMetadata present).symm)

end

structure Holds (t : Files) (p : Path) (data : Bytes) (m : Metadata) : Prop where
  data : ∃ time, t.get p = some (.file ⟨.data data, time⟩)
  sidecar : ∃ time, t.get (metadataOf p) = some (.file ⟨.sidecar m, time⟩)
  staging : t.get (stagingOf p) = none

structure Unblocked (t : Files) (p : Path) : Prop where
  above : ∀ a, a <+: p.dropLast → t.file a = none
  data : t.isDir p = false
  metadata : t.isDir (metadataOf p) = false
  staging : t.isDir (stagingOf p) = false

section
variable {t t' : Files} {p : Path} {host : Host} {now : Int} {data : Bytes} {m : Metadata}
variable {path : Bytes} {file : File}

theorem wpTry {change e} {Q} {E}
    {t} : wp (try_ change e) Q E t ↔ match change t with | some t' => Q () t' | none => E e t := by
  unfold wp try_
  cases change t <;> exact Iff.rfl

theorem mkdirAllDirs {dir q} (done : t.mkdirAll dir = some t') (outside : ¬ q <+: dir) : t'.isDir q = t.isDir q := by
  rw [Bool.eq_iff_iff,isDirIff,isDirIff,getMkdirAll done,if_neg fun inside => outside inside.2]

theorem notAbove (present : p ≠ []) : ¬ p <+: p.dropLast := by
  intro inside
  have shorter := inside.length_le
  have positive := length_pos_iff.mpr present
  rw [length_dropLast] at shorter
  omega

theorem renameStaged (present : p ≠ []) (staged : t.get (stagingOf p) = some (.file file))
    (parent : t.isDir p.dropLast = true) (free : t.isDir (metadataOf p) = false) : ∃ t', rename t (stagingOf p) (metadataOf p) = some t' := by
  obtain ⟨moved,written⟩ := writeDone file (metadataPresent present) ((metadataDir present).symm ▸ parent) free
  have still : moved.get (stagingOf p) = some (.file file) := by
    rw [getWrite written,if_neg (stagingMetadata present).symm]
    exact staged
  obtain ⟨t',removed⟩ := removeFile still
  refine ⟨t',?_⟩
  simp only [rename,fileIff.mpr staged,bind,Option.bind_some,written,removed]

theorem getRename {source target} (found : t.get source = some (.file file)) (done : rename t source target = some t') (q : Path) :
    t'.get q = if source = q then none else if target = q then some (.file file) else t.get q := by
  simp only [rename,fileIff.mpr found,bind,Option.bind_some,Option.bind_eq_some_iff] at done
  obtain ⟨_,written,removed⟩ := done
  rw [getRemove removed,getWrite written]

theorem commitSpec (present : p ≠ []) (parent : t.isDir p.dropLast = true) : wp (do
    try_ (·.write (stagingOf p) ⟨.sidecar m,now⟩) .stageMetadata
    let moved ← attempt (try_ (·.write p ⟨.data data,now⟩) .atomicMove)
    match moved with
    | .error e => do
      discard (stagingOf p)
      fail e
    | .ok _ => try_ (fun t => rename t (stagingOf p) (metadataOf p)) .atomicMetadataMove)
    (fun _ t' => (t.isDir p = false ∧ t.isDir (metadataOf p) = false ∧ t.isDir (stagingOf p) = false) ∧ Holds t' p data m)
    (fun _ _ => t.isDir p = true ∨ t.isDir (metadataOf p) = true ∨ t.isDir (stagingOf p) = true) t := by
  rw [wpBind,wpTry]
  cases staged : t.write (stagingOf p) ⟨.sidecar m,now⟩ with
  | none =>
    refine .inr (.inr ?_)
    by_contra free
    obtain ⟨t',done⟩ := writeDone (File.mk (.sidecar m) now) (stagingPresent present) ((stagingDir present).symm ▸ parent) (by simpa using free)
    rw [staged] at done
    contradiction
  | some t₁ =>
    have free := (writeParent staged).2.2
    have same₁ := writeDirs staged
    dsimp only
    rw [wpBind,wpAttempt,wpTry]
    cases stored : t₁.write p ⟨.data data,now⟩ with
    | none =>
      refine .inl ?_
      by_contra free'
      obtain ⟨t',done⟩ := writeDone (File.mk (.data data) now) present ((same₁ _).trans parent) ((same₁ p).trans (by simpa using free'))
      rw [stored] at done
      contradiction
    | some t₂ =>
      have same₂ := same₁.trans (writeDirs stored)
      have freeData : t.isDir p = false := (same₁ p).symm.trans (writeParent stored).2.2
      have here : t₂.get (stagingOf p) = some (.file ⟨.sidecar m,now⟩) := by
        rw [getWrite stored,if_neg (stagingOther present).symm,getWrite staged,if_pos rfl]
      dsimp only
      rw [wpTry]
      cases moved : rename t₂ (stagingOf p) (metadataOf p) with
      | none =>
        refine .inr (.inl ?_)
        by_contra free'
        obtain ⟨_,done⟩ := renameStaged present here ((same₂ _).trans parent) ((same₂ _).trans (by simpa using free'))
        rw [moved] at done
        contradiction
      | some t₃ =>
        have final := getRename here moved
        have freeMetadata : t.isDir (metadataOf p) = false := by
          rw [← same₂]
          simp only [rename,fileIff.mpr here,bind,Option.bind_some,Option.bind_eq_some_iff] at moved
          obtain ⟨_,written,_⟩ := moved
          exact (writeParent written).2.2
        refine ⟨⟨freeData,freeMetadata,free⟩,⟨now,?_⟩,⟨now,?_⟩,?_⟩
        · rw [final,if_neg (stagingOther present),if_neg (metadataOther present),getWrite stored,if_pos rfl]
        · rw [final,if_neg (stagingMetadata present),if_pos rfl]
        · rw [final,if_pos rfl]

theorem putFileSpec (present : p ≠ []) : wp (putFile host now p data m)
    (fun _ t' => Unblocked t p ∧ Holds t' p data (calculated host.md5 now data m)) (fun _ _ => ¬ Unblocked t p) t := by
  rw [putFile,wpBind,wpTry]
  cases made : t.mkdirAll p.dropLast with
  | none =>
    intro unblocked
    obtain ⟨t',done⟩ := mkdirAllDone unblocked.above
    rw [made] at done
    contradiction
  | some t₁ =>
    have above : ∀ a, a <+: p.dropLast → t.file a = none := fun a inside => mkdirAllClear made inside
    dsimp only
    rw [wpBind]
    refine wpSure (markersDirs now p.dropLast (fun _ => rfl)) fun _ t₂ same₂ => ?_
    rw [wpBind]
    refine wpSure (repairDirs present same₂) fun _ t₃ same₃ => ?_
    have dirs q outside : t₃.isDir q = t.isDir q := (same₃ q).trans (mkdirAllDirs made outside)
    have data_ := dirs p (notAbove present)
    have metadata_ := dirs (metadataOf p) (metadataDir present ▸ notAbove (metadataPresent present))
    have staging_ := dirs (stagingOf p) (stagingDir present ▸ notAbove (stagingPresent present))
    refine wpMono (commitSpec present ((same₃ _).trans (mkdirAllDir made))) (fun _ t' done => ?_) (fun _ _ blocked => ?_)
    · rw [data_,metadata_,staging_] at done
      exact ⟨⟨above,done.1.1,done.1.2.1,done.1.2.2⟩,done.2⟩
    intro unblocked
    rw [data_,metadata_,staging_,unblocked.data,unblocked.metadata,unblocked.staging] at blocked
    simp at blocked

theorem markerOther (p : Path) : markerIn p ≠ p := by
  intro same
  have longer := congrArg List.length same
  simp [markerIn] at longer

theorem putFolderDir (present : p ≠ []) : wp (putFolder now p m) (fun _ t' => t'.get p = some .dir) (fun _ _ => True) t := by
  rw [putFolder,wpBind]
  refine wpLax (wpOfState (P := fun _ => True) trivial) fun _ t₁ _ => ?_
  rw [wpBind,wpTry]
  cases made : t₁.mkdirAll p with
  | none => trivial
  | some t₂ =>
    have isdir : At p (some .dir) t₂ := (getMkdirAll made p).trans (if_pos ⟨present,prefix_refl p⟩)
    have rest : Keeps (At p (some .dir)) (do
        try_ (·.write (markerIn p) ⟨.data [],now⟩) .createFolderMarker
        let m := ((m.set StagedCommit.sizeKey (ascii "0")).set StagedCommit.etagKey emptyMD5).set StagedCommit.lastModifiedKey (formatInt now)
        saveMetadata now p (m.set (ascii "content-type") (ascii "application/x-directory"))) :=
      .bind (keepsTry (atWrite (markerOther p))) fun _ => keepsSave (metadataOther present) fun _ => by simp
    exact wpLax (rest t₂ isdir) fun _ _ holds => holds

theorem folderSame (present : p ≠ []) : FolderUntouched p p (some .dir) := by
  refine ⟨fun _ => rfl,fun a inside same => ?_,markerOther p⟩
  by_cases empty : a = []
  · subst empty
    exact present same.symm
  have length : a.length = p.length := by
    have := congrArg List.length same
    rw [metadataOf,withSuffixEq empty] at this
    have positive := length_pos_iff.mpr empty
    simp at this
    omega
  exact metadataOther empty (same.trans (inside.eq_of_length length).symm)

theorem Holds.present (holds : Holds t p data m) : p ≠ [] := by
  obtain ⟨_,found⟩ := holds.data
  rintro rfl
  rw [t.getRoot] at found
  contradiction

theorem fileNotDir {q} (found : t.get q = some (.file file)) : t.isDir q = false := by
  rw [Bool.eq_false_iff]
  intro isdir
  rcases isDirIff.mp isdir with rfl | dir
  · rw [t.getRoot] at found
    contradiction
  · cases (dir.symm.trans found)

theorem Holds.unblocked (holds : Holds t p data m) : Unblocked t p := by
  obtain ⟨_,found⟩ := holds.data
  obtain ⟨_,sidecar⟩ := holds.sidecar
  refine ⟨fun a inside => ?_,fileNotDir found,fileNotDir sidecar,?_⟩
  · have other : a ≠ p := fun same => notAbove holds.present (same ▸ inside)
    have isdir := dirAbove found (inside.trans ( dropLast_prefix p)) other
    cases file : t.file a with
    | none => rfl
    | some content =>
      rw [fileNotDir (fileIff.mp file)] at isdir
      contradiction
  · rw [Bool.eq_false_iff]
    intro isdir
    rcases isDirIff.mp isdir with root | dir
    · exact stagingPresent holds.present root
    · rw [holds.staging] at dir
      contradiction

theorem Holds.noStage (holds : Holds t p data m) : t.stat (stagingOf p) = .missing := by
  obtain ⟨_,found⟩ := holds.data
  refine statFree (stagingPresent holds.present) ?_ holds.staging
  rw [stagingDir holds.present]
  exact t.parents _ _ found

theorem noRepair {Q} {E} (noStage : t.stat (stagingOf p) = .missing) : wp (maybeRepair host p) Q E t ↔ Q () t := by
  rw [maybeRepair,wpBind,wpGets,noStage]
  exact Iff.rfl

section
variable (valid : validatePath path = true) (holds : Holds t (getFullPath path) data m)
include valid holds

theorem getMetadataHeld : getMetadata host path t = (.ok m, t) := by
  obtain ⟨_,sidecar⟩ := holds.sidecar
  have read : readSidecar host t (getFullPath path) = .ok m := by
    rw [readSidecar,statFile.mpr sidecar]
    rfl
  rw [← wpEq,getMetadata,wpBind,wpCheck]
  refine ⟨fun _ => ?_,fun invalid => by rw [valid] at invalid; contradiction⟩
  rw [wpBind,noRepair holds.noStage,wpObserve,read]
  exact ⟨rfl,rfl⟩

theorem getHeld : get host path t = (.ok (some data, m), t) := by
  obtain ⟨_,found⟩ := holds.data
  rw [← wpEq,Filesystem.get,wpBind,wpCheck]
  refine ⟨fun _ => ?_,fun invalid => by rw [valid] at invalid; contradiction⟩
  rw [wpBind,noRepair holds.noStage,wpBind,wpObserve,statFile.mpr found]
  dsimp only
  rw [wpBind]
  refine wpMono (wpEq.mpr (getMetadataHeld valid holds)) (fun m' t' same => ?_) (fun _ _ never => never)
  exact ⟨by rw [same.1]; rfl,same.2⟩

end

theorem holdsKept {t'} (holds : Holds t p data m) (same : ∀ q ∈ [p,metadataOf p,stagingOf p], t'.get q = t.get q) : Holds t' p data m := by
  obtain ⟨time,found⟩ := holds.data
  obtain ⟨time',sidecar⟩ := holds.sidecar
  exact ⟨⟨time,(same p (by simp)).trans found⟩,⟨time',(same _ (by simp)).trans sidecar⟩, (same _ (by simp)).trans holds.staging⟩

theorem setMetadataHeld {m'} (holds : Holds t (getFullPath path) data m) :
    wp (setMetadata host now path m') (fun _ t' => Holds t' (getFullPath path) data m') (fun _ t' => Holds t' (getFullPath path) data m) t := by
  have present := holds.present
  rw [setMetadata,wpBind,wpCheck]
  refine ⟨fun _ => ?_,fun _ => holds⟩
  have nothing : repairChoice host.md5 (slotAt host t (getFullPath path)) = .nothing := by
    have none_ : t.file (stagingOf (getFullPath path)) = none := by
      unfold file
      rw [holds.staging]
    simp only [slotAt,repairChoice,none_,Option.map_none]
  rw [wpBind,repairStagedCommit,wpBind,wpGets,nothing]
  rw [saveMetadata,wpPure,wpBind,wpTry]
  cases made : t.mkdirAll (getFullPath path).dropLast with
  | none => exact holds
  | some t₁ =>
    have kept : ∀ q, q.dropLast = (getFullPath path).dropLast → q ≠ [] → t₁.get q = t.get q := by
      intro q beside some_
      rw [getMkdirAll made,if_neg]
      rintro ⟨_,inside⟩
      exact notAbove some_ (beside.symm ▸ inside)
    have holds₁ : Holds t₁ (getFullPath path) data m := by
      refine holdsKept holds ?_
      simp only [mem_cons,not_mem_nil,or_false,forall_eq_or_imp,forall_eq]
      exact ⟨kept _ rfl present,kept _ (metadataDir present) (metadataPresent present),kept _ (stagingDir present) (stagingPresent present)⟩
    dsimp only
    rw [wpTry]
    cases written : t₁.write (metadataOf (getFullPath path)) ⟨.sidecar m',now⟩ with
    | none => exact holds₁
    | some t₂ =>
      obtain ⟨time,found⟩ := holds₁.data
      refine ⟨⟨time,?_⟩,⟨now,?_⟩,?_⟩
      · rw [getWrite written,if_neg (metadataOther present)]
        exact found
      · rw [getWrite written,if_pos rfl]
      · rw [getWrite written,if_neg (stagingMetadata present).symm]
        exact holds₁.staging

section
variable {q} (apart : Apart (getFullPath path) q) (present : getFullPath path ≠ []) (holds : Holds t q data m)
include apart present holds

theorem getMetadataApart : Holds (getMetadata host path t).2 q data m :=
  holdsKept holds fun y mem => (keepsGetMetadata (apartBeside holds.present present apart y mem)).after rfl

theorem setMetadataApart {m'} : Holds (setMetadata host now path m' t).2 q data m := by
  obtain ⟨_,found⟩ := holds.data
  obtain ⟨_,sidecar⟩ := holds.sidecar
  refine holdsKept holds fun y mem => ?_
  refine (keepsSetMetadata (apartBeside holds.present present apart y mem) fun inside => ?_).after rfl
  simp only [mem_cons,not_mem_nil,or_false] at mem
  rcases mem with rfl | rfl | rfl
  · rw [found]
    simp
  · rw [sidecar]
    simp
  · exact absurd inside apart.way

end

end

end MaxIOFS.StoredFiles
