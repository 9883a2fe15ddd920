import MaxIOFS.AntiEntropy
import MaxIOFS.Fanout

/-! One key of a non-versioned bucket on the nodes of a cluster: a deletion through the fan-out, and
the three ways in which the nodes hand each other what they hold. None of them knows a deletion
from an object that never arrived. -/
namespace MaxIOFS.Resurrection
open ByteString AntiEntropy Fanout

section
variable {ν : Type} [DecidableEq ν]

abbrev Copies (ν : Type) := ν → Option Copy

def put (copies : Copies ν) (node : ν) (copy : Option Copy) : Copies ν := fun n => if n = node then copy else copies n

-- What became of the DELETE at a replica: it may be answered without effect and have effect without an answer.
structure Reply where
  (applied answered : Bool)

structure Deletion (ν : Type) where
  home : ν
  admission : Table ν
  accepted : Bool
  fanout : Table ν
  replies : ν → Reply

def sent (d : Deletion ν) : List ν := ((replicaTargets d.home d.fanout).map Prod.fst).getD []

def fanoutDelete (d : Deletion ν) (copies : Copies ν) : Bool × Copies ν :=
  match replicaTargets d.home d.fanout with
  | none => (true, copies)
  | some (targets, needed) =>
    ((collectAndCheckQuorum d.fanout (targets.map fun n => (n, (d.replies n).answered)) needed).2,
      fun n => if n ∈ targets ∧ (d.replies n).applied = true then none else copies n)

def deleteObject (d : Deletion ν) (copies : Copies ν) : Bool × Copies ν :=
  if clusterCanAcceptWrites d.home d.admission = false then (false, copies)
  else if d.accepted = false then (false, copies)
  else fanoutDelete d (put copies d.home none)

inductive Healing (ν : Type) where
  | scrub (node peer : ν) (now : Int)
  | reconcile (node peer : ν) (since now : Int)
  | sync (node peer : ν) (now : Int)

def heal (md5 : Bytes → Bytes) (copies : Copies ν) : Healing ν → Copies ν
  | .scrub node peer now =>
    if node = peer then copies
    else
      let settled := resolve md5 now (copies node) (copies peer)
      put (put copies node settled.1) peer settled.2
  | .reconcile node peer since now => match copies peer with
    | some c => if since < c.lastModified then put copies node (some (receive md5 now c)) else copies
    | none => copies
  | .sync node peer now => match copies node with
    | some c => put copies peer (some (receive md5 now c))
    | none => copies

def healAll (md5 : Bytes → Bytes) (copies : Copies ν) (run : List (Healing ν)) : Copies ν := run.foldl (heal md5) copies

def Absent (copies : Copies ν) : Prop := ∀ n, copies n = none

variable {md5 : Bytes → Bytes} {copies : Copies ν}

theorem healAbsent (absent : Absent copies) (e : Healing ν) : heal md5 copies e = copies := by
  cases e with
  | scrub node peer now =>
    rw [heal,absent node,absent peer]
    split
    · rfl
    funext n
    unfold put
    split
    · rename_i same
      rw [same]
      exact (absent peer).symm
    split
    · rename_i same
      rw [same]
      exact (absent node).symm
    · rfl
  | reconcile node peer since now =>
    rw [heal,absent peer]
  | sync node peer now =>
    rw [heal,absent node]

theorem resolveKeeps (md5 : Bytes → Bytes) (now : Int) (a b : Option Copy) : (a ≠ none → (resolve md5 now a b).1 ≠ none) ∧
    (b ≠ none → (resolve md5 now a b).2 ≠ none) := by
  unfold resolve
  split
  · exact ⟨fun _ => nofun,fun _ => nofun⟩
  · exact ⟨fun _ => nofun,fun _ => nofun⟩
  · exact ⟨id,id⟩

theorem putKeeps {n node copy} (held : copies n ≠ none) (kept : n = node → copy ≠ none) : put copies node copy n ≠ none := by
  unfold put
  split
  · rename_i same
    exact kept same
  · exact held

theorem healKeeps {n} (held : copies n ≠ none) (e : Healing ν) : heal md5 copies e n ≠ none := by
  cases e with
  | scrub node peer now =>
    rw [heal]
    split
    · exact held
    · obtain ⟨here,there⟩ := resolveKeeps md5 now (copies node) (copies peer)
      exact putKeeps (putKeeps held fun same => here (same ▸ held)) fun same => there (same ▸ held)
  | reconcile node peer since now =>
    rw [heal]
    cases copies peer with
    | none => exact held
    | some c =>
      dsimp only
      split
      · exact putKeeps held fun _ => nofun
      · exact held
  | sync node peer now =>
    rw [heal]
    cases copies node with
    | none => exact held
    | some c => exact putKeeps held fun _ => nofun

theorem healAllAbsent (absent : Absent copies) (run : List (Healing ν)) : healAll md5 copies run = copies := by
  induction run generalizing copies with
  | nil => rfl
  | cons e rest ih =>
    have step : healAll md5 copies (e :: rest) = healAll md5 (heal md5 copies e) rest := rfl
    rw [step,healAbsent absent e,ih absent]

theorem healAllKeeps {n} (held : copies n ≠ none) (run : List (Healing ν)) : healAll md5 copies run n ≠ none := by
  induction run generalizing copies with
  | nil => exact held
  | cons e rest ih => exact ih (healKeeps held e)

theorem scrubRevives {n m c} (held : copies n = some c) (gone : copies m = none) (now : Int) :
    heal md5 copies (.scrub n m now) m = some (receive md5 now c) := by
  have different : n ≠ m := fun same => by
    rw [same,gone] at held
    contradiction
  rw [heal,if_neg different,held,gone]
  exact if_pos rfl

def Reaches (d : Deletion ν) (n : ν) : Prop := n = d.home ∨ n ∈ sent d ∧ (d.replies n).applied = true

theorem deletedAt {d} (done : (deleteObject d copies).1 = true) (n : ν) : (deleteObject d copies).2 n = none ↔
    (copies n ≠ none → Reaches d n) := by
  unfold deleteObject at done ⊢
  split at done <;> try contradiction
  rename_i admitted
  rw [if_neg admitted]
  split at done <;> try contradiction
  rename_i accepted
  rw [if_neg accepted]
  unfold fanoutDelete Reaches sent put
  cases replicaTargets d.home d.fanout with
  | none =>
    by_cases own : n = d.home
    · simp [own]
    · simp [own]
  | some found =>
    by_cases own : n = d.home
    · simp [own]
    by_cases hit : n ∈ found.1 ∧ (d.replies n).applied = true
    · simp [hit]
    · simp [own,hit]

variable (md5) in
def Reached (schedule : Nat → Healing ν) (copies : Copies ν) : Prop := ∃ i, Absent (healAll md5 copies ((List.range i).map schedule))

/-- An acknowledged deletion stays one, and ends everywhere, exactly if it reached every node that held the key;
otherwise no healing at all removes what is left. -/
theorem deletionHolds {d} (done : (deleteObject d copies).1 = true) :
    (((∀ run n, (deleteObject d copies).2 n = none → healAll md5 (deleteObject d copies).2 run n = none) ∧
      ∀ schedule, Reached md5 schedule (deleteObject d copies).2) ↔ ∀ n, copies n ≠ none → Reaches d n) ∧
    ((∃ schedule, Reached md5 schedule (deleteObject d copies).2) ↔ ∀ n, copies n ≠ none → Reaches d n) := by
  have gone : (∀ n, copies n ≠ none → Reaches d n) ↔ Absent (deleteObject d copies).2 := forall_congr' fun n => (deletedAt done n).symm
  rw [gone]
  have stays (absent : Absent (deleteObject d copies).2) run : Absent (healAll md5 (deleteObject d copies).2 run) := by
    rw [healAllAbsent absent]
    exact absent
  refine ⟨⟨fun ⟨kept,_⟩ n => ?_,fun absent => ⟨fun run n _ => stays absent run n,fun _ => ⟨0,stays absent _⟩⟩⟩,
    ⟨fun ⟨_,i,absent⟩ n => ?_,fun absent => ⟨fun _ => .sync d.home d.home 0,0,stays absent _⟩⟩⟩
  · by_contra held
    obtain ⟨c,there⟩ := Option.ne_none_iff_exists'.mp held
    have home : (deleteObject d copies).2 d.home = none := (deletedAt done d.home).mpr fun _ => .inl rfl
    exact absurd ((kept [.scrub n d.home 0] d.home home).symm.trans (scrubRevives there home 0)) nofun
  · by_contra held
    exact healAllKeeps held _ (absent n)

end

def table : Table Nat := ⟨true, true, 3, [(0, .healthy), (1, .healthy), (2, .unavailable)]⟩
def object : Copy := ⟨[1], [101, 1], 5000000000⟩
def reply : Reply := ⟨true, true⟩
def lapsed : Deletion Nat := ⟨0, table, true, table, fun _ => reply⟩

def onTwo : Copies Nat := fun n => if n < 2 then some object else none
def onThree : Copies Nat := fun n => if n < 3 then some object else none

theorem deletionHoldsOnTwo : (deleteObject lapsed onTwo).1 = true ∧
    ∀ run n, (deleteObject lapsed onTwo).2 n = none → healAll id (deleteObject lapsed onTwo).2 run n = none := by
  refine ⟨by decide,((deletionHolds (by decide)).1.mpr fun n held => ?_).1⟩
  unfold onTwo at held
  rcases n with _ | _ | n
  · exact .inl rfl
  · exact .inr (by decide)
  · simp at held

-- The third node scrubs against the first.
theorem deletedObjectReturns : (deleteObject lapsed onThree).1 = true ∧ (deleteObject lapsed onThree).2 0 = none ∧
    (healAll id (deleteObject lapsed onThree).2 [.scrub 2 0 9000000000]) 0 ≠ none := by
  decide +kernel

end MaxIOFS.Resurrection
