import MaxIOFS.StoreCalls

/-! Parts stored while their upload is aborted. The abort deletes the parts it found in its scan;
a part stored after the scan stays, since the store of a part looks for its upload in an earlier
step and takes no lock. -/
namespace MaxIOFS.AbortRaces
open OrderedStore ByteString MetadataStore Records Threads StoreCalls Runs List

structure Gone (db : Database) (uploadID : Bytes) : Prop where
  upload : db.uploads.get (multipartUploadKey uploadID) = none
  index : ∀ bucket, db.uploadIndex.get (multipartIndexKey bucket uploadID) = none
  parts : ∀ n, db.parts.get (partKey uploadID n) = none

structure Kept (db : Database) (uploadID : Bytes) : Prop where
  gone : db.uploads.get (multipartUploadKey uploadID) = none → Gone db uploadID
  home : ∀ upload, db.uploads.get (multipartUploadKey uploadID) = some upload →
    ∀ bucket, bucket ≠ upload.bucket → db.uploadIndex.get (multipartIndexKey bucket uploadID) = none

inductive OfUpload (uploadID : Bytes) : Operation → Prop where
  | put {part : PartMetadata} (same : part.uploadID = uploadID) : OfUpload uploadID (.putPart part)
  | abort : OfUpload uploadID (.abortMultipartUpload uploadID)

def Unaborted (calls : Nat → Operation) (w : World) (i : Nat) : Prop :=
  match calls i, w.point i with
  | .putPart part, .checked => (w.shared.db.uploads.get (multipartUploadKey part.uploadID)).isSome ∧
      ∀ j upload keys, w.point j = .collected upload keys → partKey part.uploadID part.partNumber ∈ keys
  | _, _ => True

theorem indexKeyInj {bucket bucket' uploadID} (same : multipartIndexKey bucket uploadID = multipartIndexKey bucket' uploadID) :
    bucket = bucket' := by
  unfold multipartIndexKey at same
  rw [append_assoc,append_assoc,append_assoc,append_assoc] at same
  exact append_cancel_right (append_cancel_left same)

theorem partScanned {db : Database} {uploadID n} (present : db.parts.get (partKey uploadID n) ≠ none) :
    partKey uploadID n ∈ (db.parts.scan (partListPrefix uploadID)).map Prod.fst := by
  obtain ⟨part,found⟩ := Option.ne_none_iff_exists'.mp present
  exact mem_map.mpr ⟨(partKey uploadID n, part),Store.memScan.mpr ⟨found,prefix_append _ _⟩,rfl⟩

theorem createdKept {db upload} (fresh : Gone db upload.uploadID) : Kept (writeUpload upload db) upload.uploadID where
  gone none := by
    rw [writeUpload,Store.getSetSame] at none
    contradiction
  home held found bucket other := by
    rw [writeUpload,Store.getSetSame] at found
    cases found
    exact (Store.getSetOther _ _ fun same => other (indexKeyInj same).symm).trans (fresh.index bucket)

section
variable {uploadID : Bytes} {first : Option MultipartUpload} {calls : Nat → Operation}
variable {i : Nat} {p : Point} {s : Shared} {w : World}

def Knows (uploadID : Bytes) (first : Option MultipartUpload) (s : Shared) : Point → Prop
  | .opened upload => first = some upload
  | .collected upload keys => first = some upload ∧ ∀ n, s.db.parts.get (partKey uploadID n) ≠ none → partKey uploadID n ∈ keys
  | _ => True

structure Inv (uploadID : Bytes) (first : Option MultipartUpload) (w : World) : Prop where
  kept : Kept w.shared.db uploadID
  same : ∀ upload, w.shared.db.uploads.get (multipartUploadKey uploadID) = some upload → first = some upload
  known : ∀ i, Knows uploadID first w.shared (w.point i)

theorem knowsLess {s'} (less : ∀ n, s'.db.parts.get (partKey uploadID n) ≠ none → s.db.parts.get (partKey uploadID n) ≠ none)
    (knows : Knows uploadID first s p) : Knows uploadID first s' p := by
  cases p with
  | collected upload keys => exact ⟨knows.1,fun n present => knows.2 n (less n present)⟩
  | _ => exact knows

theorem storedKnown {part} (knows : Knows part.uploadID first s p)
    (seen : ∀ upload keys, p = .collected upload keys → partKey part.uploadID part.partNumber ∈ keys) :
    Knows part.uploadID first (s.write fun db => { db with parts := db.parts.set (partKey part.uploadID part.partNumber) part }) p := by
  cases p with
  | collected upload keys =>
    refine ⟨knows.1,fun n present => ?_⟩
    by_cases stored : partKey part.uploadID part.partNumber = partKey part.uploadID n
    · exact stored ▸ seen upload keys rfl
    · exact knows.2 n ((Store.getSetOther _ _ stored).symm.trans_ne present)
  | _ => exact knows

section
variable (inv : Inv uploadID first w)
include inv

theorem readKeeps (knows : Knows uploadID first w.shared p) : Inv uploadID first (move w i (p, w.shared)) :=
  ⟨inv.kept,inv.same,moveAll (P := fun s _ p => Knows uploadID first s p) knows (fun _ _ => id) inv.known⟩

theorem putKeeps {part} (same : part.uploadID = uploadID) (present : w.point i = .checked →
    (w.shared.db.uploads.get (multipartUploadKey part.uploadID)).isSome ∧
      ∀ j upload keys, w.point j = .collected upload keys → partKey part.uploadID part.partNumber ∈ keys)
      (taken : partTurn part w.shared (w.point i) = some (p, s)) : Inv uploadID first (move w i (p, s)) := by
  subst same
  cases at_ : w.point i <;> rw [at_] at taken <;> simp only [partTurn,reduceCtorEq] at taken
  case start =>
    cases taken
    exact readKeeps inv (by split <;> trivial)
  case locked =>
    cases taken
    exact readKeeps inv (by split <;> trivial)
  case checked =>
    cases taken
    obtain ⟨exists_,seen⟩ := present at_
    obtain ⟨_,found⟩ := Option.isSome_iff_exists.mp exists_
    exact ⟨⟨fun none => absurd (none.symm.trans found) nofun,inv.kept.home⟩,inv.same,
      moveAll (P := fun s _ p => Knows part.uploadID first s p) trivial (fun j _ knows => storedKnown knows (seen j)) inv.known⟩

theorem indexDropped {upload} (known : first = some upload) (bucket : Bytes) :
    (w.shared.db.uploadIndex.delete (multipartIndexKey upload.bucket uploadID)).get (multipartIndexKey bucket uploadID) = none := by
  rw [Store.getDelete]
  split
  · rfl
  rename_i apart
  cases found : w.shared.db.uploads.get (multipartUploadKey uploadID) with
  | none => exact (inv.kept.gone found).index bucket
  | some held =>
    cases (known.symm.trans (inv.same held found))
    exact inv.kept.home upload found bucket fun same => apart (same ▸ rfl)

theorem abortKeeps (taken : abortTurn uploadID w.shared (w.point i) = some (p, s)) : Inv uploadID first (move w i (p, s)) := by
  cases at_ : w.point i <;> rw [at_] at taken <;> simp only [abortTurn,reduceCtorEq] at taken
  case start =>
    cases taken
    refine readKeeps inv ?_
    split
    case h_1 upload found => exact inv.same upload found
    case h_2 => trivial
  case opened upload =>
    cases taken
    have known := inv.known i
    rw [at_] at known
    exact readKeeps inv ⟨known,fun n present => partScanned present⟩
  case collected upload keys =>
    cases taken
    have known := inv.known i
    rw [at_] at known
    have less n : (w.shared.db.parts.deleteAll keys).get (partKey uploadID n) = none := by
      rw [Store.getDeleteAll]
      by_contra present
      split at present
      · exact present rfl
      · exact absurd (known.2 n present) (by assumption)
    have none : (w.shared.db.uploads.delete (multipartUploadKey uploadID)).get (multipartUploadKey uploadID) = none := Store.getDeleteSame _ _
    refine ⟨⟨fun _ => ⟨none,fun bucket => ?_,less⟩,fun held found => absurd (none.symm.trans found) nofun⟩,
      fun held found => absurd (none.symm.trans found) nofun,?_⟩
    · exact indexDropped inv known.1 bucket
    · exact moveAll (P := fun s _ p => Knows uploadID first s p) trivial
        (fun j _ knows => knowsLess (fun n present => absurd (less n) present) knows) inv.known

end

theorem stepKeeps {next} (mine : ∀ i, OfUpload uploadID (calls i)) (inv : Inv uploadID first w)
    (unaborted : Unaborted calls w i) (stepped : step (turnOf calls) w i = some next) : Inv uploadID first next := by
  obtain ⟨_,_,taken,rfl⟩ := stepTurn stepped
  simp only [Unaborted,turnOf] at unaborted taken
  cases call : calls i <;> rw [call] at unaborted taken <;> have of_ := call ▸ mine i
  case putPart part =>
    cases of_ with
    | put same => exact putKeeps inv same (fun at_ => by rw [at_] at unaborted; exact unaborted) taken
  case abortMultipartUpload id =>
    cases of_
    exact abortKeeps inv taken
  all_goals cases of_

theorem beginInv {db} (kept : Kept db uploadID) : Inv uploadID (db.uploads.get (multipartUploadKey uploadID)) (begin_ db) :=
  ⟨kept,fun _ => id,fun _ => trivial⟩

end

theorem abortLeavesNoParts {uploadID : Bytes} {db : Database} {calls : Nat → Operation} {events : List Nat} {last : World}
    (kept : Kept db uploadID) (mine : ∀ i, OfUpload uploadID (calls i)) (ran : run (step (turnOf calls)) (begin_ db) events = some last)
    (unaborted : Along (step (turnOf calls)) (Unaborted calls) (begin_ db) events) :
    (last.shared.db.uploads.get (multipartUploadKey uploadID)).isSome ∨ Gone last.shared.db uploadID := by
  have inv := runKeeps (stepKeeps mine) (beginInv kept) unaborted ran
  cases found : last.shared.db.uploads.get (multipartUploadKey uploadID) with
  | none => exact .inr (inv.kept.gone found)
  | some upload => exact .inl rfl

def upload : MultipartUpload := ⟨ascii "u", ascii "b", ascii "k", 0, [], empty⟩
def opened : Database := writeUpload upload emptyDatabase

def partAndAbort (i : Nat) : Operation :=
  if i = 0 then .putPart ⟨ascii "u", 1, 5, ascii "e", 0⟩ else .abortMultipartUpload (ascii "u")

theorem partAndAbortMine (i : Nat) : OfUpload (ascii "u") (partAndAbort i) := by
  unfold partAndAbort
  split
  · exact .put rfl
  · exact .abort

theorem openedKept : Kept opened (ascii "u") := by
  have fresh : Gone emptyDatabase upload.uploadID := ⟨rfl,fun _ => rfl,fun _ => rfl⟩
  exact createdKept fresh

def scannedWithout (key : Bytes) : Point → Bool
  | .collected _ keys => decide (key ∉ keys)
  | _ => false

def checkUnaborted (w : World) (i : Nat) : Bool :=
  match partAndAbort i, w.point i with
  | .putPart part, .checked => (w.shared.db.uploads.get (multipartUploadKey part.uploadID)).isSome &&
      (List.range 2).all fun j => !scannedWithout (partKey part.uploadID part.partNumber) (w.point j)
  | _, _ => true

theorem checkSound {w i} (idle : Idle 2 .start w) (_ : i < 2) (passed : checkUnaborted w i = true) : Unaborted partAndAbort w i := by
  unfold checkUnaborted at passed
  unfold Unaborted
  split
  case h_1 part call at_ =>
    rw [call,at_] at passed
    obtain ⟨present,seen⟩ := (Bool.and_eq_true _ _).mp passed
    refine ⟨present,fun j upload keys found => ?_⟩
    have clear : scannedWithout (partKey part.uploadID part.partNumber) (w.point j) = false :=
      allPoints (Q := fun p => scannedWithout _ p = false) idle rfl
      (fun j few => (Bool.not_eq_true' _).mp (all_eq_true.mp seen j (mem_range.mpr few))) j
    rw [found] at clear
    exact not_not.mp (of_decide_eq_false clear)
  case h_2 => trivial

theorem partThenAbort : ∃ last, run (step (turnOf partAndAbort)) (begin_ opened) [0, 0, 0, 1, 1, 1] = some last ∧
    Gone last.shared.db (ascii "u") := by
  refine runShows (fun w => (w.shared.db.uploads.get (multipartUploadKey (ascii "u"))).isSome = false) (by decide +kernel) fun last ran none => ?_
  have unaborted : Along (step (turnOf partAndAbort)) (Unaborted partAndAbort) (begin_ opened) [0,0,0,1,1,1] :=
    alongChecked checkSound stepIdle (by decide) (fun _ _ => rfl) (by decide +kernel)
  have kept := abortLeavesNoParts openedKept partAndAbortMine ran unaborted
  rw [none] at kept
  exact kept.resolve_left nofun

-- The part is stored after the abort has committed, though its upload was there when it looked.
theorem partAfterAbort : ∃ last, run (step (turnOf partAndAbort)) (begin_ opened) [0, 0, 1, 1, 1, 0] = some last ∧
    (∀ i, last.point i = .start ∨ last.point i = .returned (.ok ())) ∧ last.shared.db.uploads.get (multipartUploadKey (ascii "u")) = none ∧
    (last.shared.db.parts.get (partKey (ascii "u") 1)).isSome := by
  refine runShows (fun w => (∀ j < 2, w.point j = .returned (.ok ())) ∧ w.shared.db.uploads.get (multipartUploadKey (ascii "u")) = none ∧
    (w.shared.db.parts.get (partKey (ascii "u") 1)).isSome) (by decide +kernel) fun last ran ⟨returned,rest⟩ => ⟨fun i => ?_,rest⟩
  have idle : Idle 2 .start last := runIdle (fun _ _ => rfl) (by decide) ran
  exact allPoints (Q := fun p => p = .start ∨ p = .returned (.ok ())) idle (.inl rfl) (fun j few => .inr (returned j few)) i

end MaxIOFS.AbortRaces
