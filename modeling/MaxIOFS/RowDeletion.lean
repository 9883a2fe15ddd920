import MaxIOFS.DeletionLog
import MaxIOFS.Runs

/-! One user or tenant on the nodes of a cluster, updated on one node and deleted on another. Rows,
deletions and the deletion log travel in messages of their own, delivered in any order and any number
of times. A row is refused where a tombstone exists, whatever its time. -/
namespace MaxIOFS.RowDeletion
open DeletionLog Runs

inductive Kind where
  | user | tenant

def Kind.stamp (now : Int) : Kind → Int
  | .user => unix now
  | .tenant => now

def Kind.seconds (updatedAt : Int) : Kind → Int
  | .user => updatedAt
  | .tenant => unix updatedAt

structure Node where
  (updatedAt deletedAt : Option Int)

inductive Message where
  | sync (updatedAt : Int)
  | deleteSync (deletedAt : Int)
  | deletionLogSync (deletedAt : Int)
  deriving DecidableEq

structure World (ν : Type) where
  clock : Int
  node : ν → Node
  sent : List (ν × Message)

inductive Event (ν : Type) where
  | tick (nanoseconds : Nat)
  | update
  | delete
  | send (source target : ν)
  | deliver (target : ν) (m : Message)
  deriving DecidableEq

section
variable (kind : Kind)

def entityIsNewerThanTombstone (deletedAt : Int) (n : Node) : Bool := n.updatedAt.any fun t => decide (deletedAt < kind.seconds t)

def upsert (updatedAt : Int) : Option Int → Option Int
  | none => some updatedAt
  | some here => if here < updatedAt then some updatedAt else some here

def handle (now : Int) (n : Node) : Message → Node
  | .sync t => if n.deletedAt.isSome then n else { n with updatedAt := upsert t n.updatedAt }
  | .deleteSync t => if entityIsNewerThanTombstone kind t n then n else ⟨none, some (unix now)⟩
  | .deletionLogSync t => if entityIsNewerThanTombstone kind t n then n else { n with deletedAt := some (unix now) }

def outgoing (n : Node) : List Message :=
  (n.updatedAt.map Message.sync).toList ++ (n.deletedAt.map .deleteSync).toList ++ (n.deletedAt.map .deletionLogSync).toList

variable {ν : Type} [DecidableEq ν] (a b : ν) (w : World ν)

def World.put (i : ν) (n : Node) : World ν := { w with node := Function.update w.node i n }

def step : Event ν → Option (World ν)
  | .tick nanoseconds => some { w with clock := w.clock + nanoseconds }
  | .update => (w.node a).updatedAt.map fun _ => w.put a { w.node a with updatedAt := some (kind.stamp w.clock) }
  | .delete => (w.node b).updatedAt.map fun _ => w.put b ⟨none, some (unix w.clock)⟩
  | .send i k => some { w with sent := w.sent ++ (outgoing (w.node i)).map (k, ·) }
  | .deliver k m => if (k, m) ∈ w.sent then some (w.put k (handle kind w.clock (w.node k) m)) else none

def Timed (u d : Int) : Event ν → Prop
  | .update => w.clock = u
  | .delete => w.clock = d
  | _ => True

def Agrees (u d : Int) : Prop := (d < u → ∀ i, (w.node i).updatedAt ≠ none) ∧ (u < d → ∀ i, (w.node i).updatedAt = none)

def Fits (d : Int) : Message → Prop
  | .sync t => kind.seconds t ≤ unix d
  | .deleteSync t | .deletionLogSync t => unix d ≤ t ∧ d ≤ w.clock

structure Inv (d : Int) : Prop where
  held : ∀ i, ∀ m ∈ outgoing (w.node i), Fits kind w d m
  sent : ∀ e ∈ w.sent, Fits kind w d e.2

def Cleared (n : Node) : Prop := n.updatedAt = none ∧ n.deletedAt.isSome = true

end

section
variable {kind : Kind} {ν : Type} {a b : ν} {u d : Int} {w w' : World ν} {event : Event ν}

theorem unixMono {t t'} (le : t ≤ t') : unix t ≤ unix t' := Int.ediv_le_ediv (by decide) le

theorem heldIff {n} : (∀ m ∈ outgoing n, Fits kind w d m) ↔ (∀ t ∈ n.updatedAt, kind.seconds t ≤ unix d) ∧
    ∀ t ∈ n.deletedAt, unix d ≤ t ∧ d ≤ w.clock := by
  obtain ⟨row,tombstone⟩ := n
  cases row <;> cases tombstone <;> simp [outgoing,Fits]

theorem handleFits {n m} (held : ∀ m ∈ outgoing n, Fits kind w d m) (fits : Fits kind w d m) :
    ∀ m' ∈ outgoing (handle kind w.clock n m), Fits kind w d m' := by
  rw [heldIff] at held ⊢
  have recorded (late : d ≤ w.clock) : ∀ t ∈ some (unix w.clock), unix d ≤ t ∧ d ≤ w.clock := by
    rintro t ⟨⟩
    exact ⟨unixMono late,late⟩
  cases m <;> rw [handle] <;> split <;> try exact held
  case sync t _ =>
    refine ⟨fun t' row => ?_,held.2⟩
    unfold upsert at row
    grind [Fits]
  case deleteSync => exact ⟨nofun,recorded fits.2⟩
  case deletionLogSync => exact ⟨held.1,recorded fits.2⟩

theorem handleCleared {n} (cleared : Cleared n) (now : Int) (m : Message) : Cleared (handle kind now n m) := by
  obtain ⟨row,tombstone⟩ := cleared
  cases m <;> rw [handle] <;> split <;> first | exact ⟨row,tombstone⟩ | contradiction | exact ⟨rfl,rfl⟩ | exact ⟨row,rfl⟩

variable [DecidableEq ν]

theorem putNode {i k n} {P : Node → Prop} (own : i = k → P n) (other : P (w.node i)) : P ((w.put k n).node i) := by
  change P (Function.update w.node k n i)
  rw [Function.update_apply]
  split
  · exact own ‹_›
  · exact other

theorem putSelf {k n} : (w.put k n).node k = n := Function.update_self ..

theorem putInv {k n} (inv : Inv kind w d) (new : ∀ m ∈ outgoing n, Fits kind w d m) : Inv kind (w.put k n) d :=
  ⟨fun i => putNode (P := fun n => ∀ m ∈ outgoing n, Fits kind w d m) (fun _ => new) (inv.held i),inv.sent⟩

theorem clearedStep {i} (cleared : Cleared (w.node i)) (stepped : step kind a b w event = some w') : Cleared (w'.node i) := by
  cases event with
  | tick | send =>
    cases stepped
    exact cleared
  | update =>
    obtain ⟨t,row,rfl⟩ := Option.map_eq_some_iff.mp stepped
    refine putNode (fun own => ?_) cleared
    rw [← own,cleared.1] at row
    cases row
  | delete =>
    obtain ⟨t,_,rfl⟩ := Option.map_eq_some_iff.mp stepped
    exact putNode (fun _ => ⟨rfl,rfl⟩) cleared
  | deliver k m =>
    rw [step] at stepped
    split at stepped <;> cases stepped
    exact putNode (fun own => handleCleared (own ▸ cleared) ..) cleared

theorem stepInv (last : u < d) (inv : Inv kind w d) (timed : Timed w u d event) (stepped : step kind a b w event = some w') : Inv kind w' d := by
  cases event with
  | tick n =>
    cases stepped
    have later m (fits : Fits kind w d m) : Fits kind { w with clock := w.clock + n } d m := by
      cases m with
      | sync t => exact fits
      | deleteSync t | deletionLogSync t => exact ⟨fits.1,Int.le_trans fits.2 (Int.le_add_of_nonneg_right (Int.natCast_nonneg n))⟩
    exact ⟨fun i m out => later m (inv.held i m out),fun e mem => later e.2 (inv.sent e mem)⟩
  | update =>
    obtain ⟨t,_,rfl⟩ := Option.map_eq_some_iff.mp stepped
    refine putInv inv (heldIff.mpr ⟨?_,(heldIff.mp (inv.held a)).2⟩)
    have early : unix w.clock ≤ unix d := unixMono (timed ▸ Int.le_of_lt last)
    rintro t ⟨⟩
    cases kind <;> exact early
  | delete =>
    obtain ⟨t,_,rfl⟩ := Option.map_eq_some_iff.mp stepped
    have now : w.clock = d := timed
    refine putInv inv (heldIff.mpr ⟨(fun _ row => nomatch row),?_⟩)
    rintro t ⟨⟩
    exact ⟨now ▸ Int.le_refl _,Int.le_of_eq now.symm⟩
  | send i k =>
    cases stepped
    refine ⟨inv.held,fun e mem => ?_⟩
    rcases List.mem_append.mp mem with old | new
    · exact inv.sent e old
    · obtain ⟨m,out,rfl⟩ := List.mem_map.mp new
      exact inv.held i m out
  | deliver k m =>
    rw [step] at stepped
    split at stepped <;> cases stepped
    rename_i there
    exact putInv inv (handleFits (inv.held k) (inv.sent _ there))

/-- Once the deletion has been delivered everywhere the nodes agree exactly if it came last: where the row was
deleted it is not taken back. -/
theorem deletionFinal {events} (unsent : w.sent = []) (undeleted : ∀ i, (w.node i).deletedAt = none)
    (old : ∀ i, ∀ t ∈ (w.node i).updatedAt, kind.seconds t ≤ unix d) (timed : Along (step kind a b) (Timed · u d) w events)
    (ran : run (step kind a b) w events = some w') (differ : u ≠ d) (deleted : Event.delete ∈ events)
    (full : ∀ k ≠ b, ∃ t, .deliver k (.deleteSync t) ∈ events) : Agrees w' u d ↔ u < d := by
  have gone : Cleared (w'.node b) := by
    refine runReaches (fun _ _ _ => trivial) clearedStep (fun _ _ stepped => ?_) deleted trivial timed ran
    obtain ⟨t,_,rfl⟩ := Option.map_eq_some_iff.mp stepped
    rw [putSelf]
    exact ⟨rfl,rfl⟩
  constructor
  · exact fun agrees => (Int.lt_or_gt_of_ne differ).resolve_right fun later => agrees.1 later b gone.1
  refine fun last => ⟨fun first => absurd first (Int.lt_asymm last),fun _ k => ?_⟩
  by_cases own : k = b
  · exact own ▸ gone.1
  obtain ⟨t,delivered⟩ := full k own
  have start : Inv kind w d := ⟨fun i => heldIff.mpr ⟨old i,by rw [undeleted i]; nofun⟩,by rw [unsent]; nofun⟩
  refine (runReaches (stepInv last) clearedStep (@fun w _ inv _ stepped => ?_) delivered start timed ran).1
  rw [step] at stepped
  split at stepped <;> cases stepped
  rename_i there
  -- Every row is as old as the update, and every tombstone at least as young as the deletion.
  have refuses : entityIsNewerThanTombstone kind t (w.node k) = false := by
    refine Bool.eq_false_iff.mpr fun newer => ?_
    obtain ⟨at_,row,later⟩ := (Option.any_eq_true _ _).mp newer
    have bound := (heldIff.mp (inv.held k)).1 at_ row
    exact absurd (of_decide_eq_true later) (Int.not_lt.mpr (Int.le_trans bound (inv.sent _ there).1))
  rw [putSelf,handle,refuses]
  exact ⟨rfl,rfl⟩

end

def both : World Bool := ⟨5000000000, fun _ => ⟨some 1, none⟩, []⟩

def updateFirst : List (Event Bool) := [.update, .tick 1000000000, .delete, .send true false, .deliver false (.deleteSync 6)]

theorem updateThenDelete : ∃ w, run (step .user false true) both updateFirst = some w ∧ Agrees w 5000000000 6000000000 := by
  obtain ⟨w,ran,-⟩ : ∃ w, run (step .user false true) both updateFirst = some w ∧ True := by decide +kernel
  have timed : Along (step .user false true) (Timed · 5000000000 6000000000) both updateFirst :=
    ⟨rfl,fun _ first => ⟨trivial,fun _ second => ⟨by cases first; cases second; rfl,fun _ _ => ⟨trivial,fun _ _ => ⟨trivial,fun _ _ => trivial⟩⟩⟩⟩⟩
  refine ⟨w,ran,(deletionFinal rfl (fun _ => rfl) ?_ timed ran (by decide) (by decide) fun k other => ⟨6,?_⟩).mpr (by decide)⟩
  · decide
  · rw [Bool.eq_false_iff.mpr other]
    decide

-- The update is a second later, and still the second node refuses the row while the first keeps it.
theorem deleteThenUpdate : ∃ w, run (step .user false true) both [.delete, .tick 1000000000, .update, .send true false, .send false true,
      .deliver false (.deleteSync 5), .deliver false (.deletionLogSync 5), .deliver true (.sync 6)] = some w ∧
    (w.node false).updatedAt ≠ none ∧ (w.node true).updatedAt = none := by
  decide +kernel

end MaxIOFS.RowDeletion
