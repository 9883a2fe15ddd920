import MaxIOFS.Filesystem

/-! What a backend call leaves alone. A path other than the ones a call works on answers
afterwards as it did before: a file keeps its contents, and a free path stays free unless
it lies on the way to a directory that is made. -/
namespace MaxIOFS.FileFrame
open StagedCommit ByteString FileTree Effects Filesystem

abbrev Answer := Option (Node File)

def At (q : Path) (x : Answer) (t : Files) : Prop := t.get q = x

structure Beside (q p : Path) : Prop where
  metadata : metadataOf p ≠ q
  staging : stagingOf p ≠ q

section
variable {q p : Path} {x : Answer} {host : Host}
variable {data path : Bytes} {t t' : Files} {now : Int} {m : Metadata}

theorem keepsTry {change} {e} (step : ∀ {t t'}, At q x t → change t = some t' → At q x t') : Keeps (At q x) (try_ change e) := by
  intro t holds
  unfold wp try_
  cases done : change t with
  | some t' => exact step holds done
  | none => exact holds

theorem atWrite {file} (other : p ≠ q) (holds : At q x t) (done : t.write p file = some t') : At q x t' := by
  rw [At,Tree.getWrite done,if_neg other]
  exact holds

theorem atRemove (other : p ≠ q) (holds : At q x t) (done : t.remove p = some t') : At q x t' := by
  rw [At,Tree.getRemove done,if_neg other]
  exact holds

theorem atMkdir (room : q <+: p → x ≠ none) (holds : At q x t) (done : t.mkdirAll p = some t') : At q x t' := by
  unfold At at holds ⊢
  rw [Tree.getMkdirAll done]
  split
  · rename_i inside
    have clear := Tree.mkdirAllClear done inside.2
    have present := room inside.2
    unfold Tree.file at clear
    cases found : t.get q with
    | none => exact absurd (holds.symm.trans found) present
    | some node =>
      cases node with
      | dir => exact found.symm.trans holds
      | file content =>
        rw [found] at clear
        contradiction
  · exact holds

theorem atRename {source} (away : source ≠ q) (other : p ≠ q) (holds : At q x t) (done : rename t source p = some t') : At q x t' := by
  simp only [rename,bind,Option.bind_eq_some_iff] at done
  obtain ⟨_,_,_,written,removed⟩ := done
  exact atRemove away (atWrite other holds written) removed

theorem keepsDiscard (other : p ≠ q) : Keeps (At q x) (discard p) := by
  refine .update fun t holds => ?_
  cases done : t.remove p with
  | some t' => exact atRemove other holds done
  | none => exact holds

theorem keepsRepair (beside : Beside q p) : Keeps (At q x) (repairStagedCommit host p) := by
  refine .bind (.gets _) fun choice => ?_
  cases choice with
  | nothing => exact .pure _
  | discard => exact keepsDiscard beside.staging
  | rollForward =>
    refine .update fun t holds => ?_
    cases done : rename t (stagingOf p) (metadataOf p) with
    | some t' => exact atRename beside.staging beside.metadata holds done
    | none => exact holds

theorem keepsMaybeRepair (beside : Beside q p) : Keeps (At q x) (maybeRepair host p) := by
  refine .bind (.gets _) fun staged => ?_
  cases staged with
  | file _ | dir => exact keepsRepair beside
  | missing | notDirectory => exact .pure _

theorem keepsSave (beside : metadataOf p ≠ q) (room : q <+: p.dropLast → x ≠ none) : Keeps (At q x) (saveMetadata now p m) :=
  .bind (keepsTry (atMkdir room)) fun _ => keepsTry (atWrite beside)

theorem keepsMarkers {dir} (room : ∀ a, a <+: dir → markerIn a = q → x ≠ none) : Keeps (At q x) (ensureFolderMarkersInPath now dir) := by
  refine .each fun a mem => .update fun t holds => ?_
  have inside := (Tree.memAncestors.mp (List.mem_reverse.mp mem)).2
  split
  · rename_i missing
    cases done : t.write (markerIn a) ⟨.data [],now⟩ with
    | none => exact holds
    | some t' =>
      refine atWrite (fun same => ?_) holds done
      have present := room a inside same
      have free : t.get q = none := by
        rw [← same]
        exact Tree.statMissing missing
      exact present (holds.symm.trans free)
  · exact holds

structure Untouched (q p : Path) (x : Answer) : Prop extends Beside q p where
  other : p ≠ q
  room : q <+: p.dropLast → x ≠ none
  markers : ∀ a, a <+: p.dropLast → markerIn a = q → x ≠ none

theorem keepsPutFile (untouched : Untouched q p x) : Keeps (At q x) (putFile host now p data m) := by
  refine .bind (keepsTry (atMkdir untouched.room)) fun _ => .bind (keepsMarkers untouched.markers) fun _ =>
    .bind (keepsRepair untouched.toBeside) fun _ => .bind (keepsTry (atWrite untouched.staging)) fun _ =>
    .bind (.attempt (keepsTry (atWrite untouched.other))) fun moved => ?_
  cases moved with
  | error e => exact .bind (keepsDiscard untouched.staging) fun _ => .fail _
  | ok _ => exact keepsTry (atRename untouched.staging untouched.metadata)

structure FolderUntouched (q p : Path) (x : Answer) : Prop where
  above : q <+: p → x = some .dir
  sidecars : ∀ a, a <+: p → metadataOf a ≠ q
  marker : markerIn p ≠ q

theorem atGetRemove (other : p ≠ q) (holds : At q x t) : At q x ((t.remove p).getD t) := by
  cases done : t.remove p with
  | none => exact holds
  | some t' => exact atRemove other holds done

theorem keepsPutFolder (untouched : FolderUntouched q p x) : Keeps (At q x) (putFolder now p m) := by
  have room (inside : q <+: p) : x ≠ none := by
    rw [untouched.above inside]
    simp
  refine .bind (.each fun a mem => .update fun t holds => ?_) fun _ => .bind (keepsTry (atMkdir room)) fun _ =>
    .bind (keepsTry (atWrite untouched.marker)) fun _ =>
    keepsSave (untouched.sidecars p (List.prefix_refl p)) fun inside => room (inside.trans (List.dropLast_prefix p))
  have inside := (Tree.memAncestors.mp mem).2
  cases found : t.file a with
  | none => exact holds
  | some file =>
    have other : a ≠ q := by
      rintro rfl
      have isdir := holds.symm.trans (Tree.fileIff.mp found)
      rw [untouched.above inside] at isdir
      cases isdir
    exact atGetRemove (untouched.sidecars a inside) (atGetRemove other holds)

theorem keepsPutSlash (folder : hasSuffix [slash] path = true) (untouched : FolderUntouched q (getFullPath path) x) :
    Keeps (At q x) (put host now path data m) :=
  .bind (.check _ _) fun _ => .ite (fun _ => keepsPutFolder untouched) fun plain => absurd folder plain

theorem keepsPutPlain (plain : hasSuffix [slash] path = false) (untouched : Untouched q (getFullPath path) x) :
    Keeps (At q x) (put host now path data m) :=
  .bind (.check _ _) fun _ => .ite (fun folder => by rw [plain] at folder; contradiction) fun _ => keepsPutFile untouched

section
variable (beside : Beside q (getFullPath path))
include beside

theorem keepsGetMetadata : Keeps (At q x) (getMetadata host path) :=
  .bind (.check _ _) fun _ => .bind (keepsMaybeRepair beside) fun _ => .observe _

theorem keepsGet : Keeps (At q x) (get host path) :=
  .bind (.check _ _) fun _ => .bind (keepsMaybeRepair beside) fun _ => .bind (.observe _) fun _ =>
    .bind (keepsGetMetadata beside) fun _ => .pure _

theorem keepsSetMetadata (room : q <+: (getFullPath path).dropLast → x ≠ none) : Keeps (At q x) (setMetadata host now path m) :=
  .bind (.check _ _) fun _ => .bind (keepsRepair beside) fun _ => keepsSave beside.metadata room

theorem keepsDelete (apart : ¬ getFullPath path <+: q) : Keeps (At q x) (delete path) := by
  have rest : Keeps (At q x) (do discard (metadataOf (getFullPath path)); discard (stagingOf (getFullPath path))) :=
    .bind (keepsDiscard beside.metadata) fun _ => keepsDiscard beside.staging
  refine .bind (.check _ _) fun _ => .bind (.gets _) fun found => ?_
  cases found with
  | missing | notDirectory => exact .fail _
  | dir =>
    refine .bind (.update fun t holds => ?_) fun _ => rest
    rw [At,Tree.getRemoveAll,if_neg apart]
    exact holds
  | file _ => exact .bind (keepsDiscard fun same => apart (same ▸ List.prefix_refl _)) fun _ => rest

end

end

end MaxIOFS.FileFrame
