import MaxIOFS.Runs

/-! A node that was cut off and took configuration writes, and the Reconcile that is to push them. The
mark that there were writes is cleared before the push, and once more together with the stale flag;
changes of passwords, preferences and second factors do not set it. -/
namespace MaxIOFS.PartitionWrites
open Function Runs

/-- How far a Reconcile is: `partition` is the mode it found, `peers` are those still to visit. -/
inductive Phase (ν ε : Type) where
  | idle
  | listed (peers : List ν)
  | begun (partition : Bool) (peers : List ν)
  | visiting (partition : Bool) (snapshot : ε → Option Int) (peers : List ν)
  | pushing (snapshot : ε → Option Int) (peer : ν) (todo : List ε) (peers : List ν)

structure World (ν ε : Type) where
  local_ : ε → Option Int
  remote : ν → ε → Option Int
  healthy : ν → Bool
  isStale : Bool
  lastLocalWriteAt : Option Int
  phase : Phase ν ε

inductive Event (ν ε : Type) where
  | write (e : ε) (now : Int) (touches : Bool)
  | ownProbe
  | peerProbe (i : ν) (healthy : Bool)
  | reconcile
  | snapshotAndClearWriteFlag
  | buildLocalSnapshot
  | fetchRemoteSnapshot (ok : Bool)
  | push (ok : Bool)
  | clearStaleFlag
  | abandon

section
variable {ν ε : Type}

def newer : Option Int → Option Int → Bool
  | none, _ => false
  | some _, none => true
  | some t, some there => decide (there < t)

def pushed (here there : Option Int) : Option Int := if newer here there then here else there

theorem newerPushed (here there : Option Int) : newer here (pushed here there) = false := by
  unfold pushed
  split
  · cases here <;> simp [newer]
  · rename_i not
    exact Bool.eq_false_iff.mpr not

def World.lacks (w : World ν ε) (i : ν) (e : ε) : Bool := newer (w.local_ e) (w.remote i e)

def step [DecidableEq ν] [DecidableEq ε] (nodes : List ν) (entities : List ε) (w : World ν ε) : Event ν ε → Option (World ν ε)
  | .write e now touches =>
    some { w with local_ := update w.local_ e (some now), lastLocalWriteAt := if touches then some now else w.lastLocalWriteAt }
  | .ownProbe => some { w with isStale := false }
  | .peerProbe i healthy => some { w with healthy := update w.healthy i healthy }
  | .reconcile => match w.phase with
    | .idle => if w.isStale ∧ (nodes.filter w.healthy) ≠ [] then some { w with phase := .listed (nodes.filter w.healthy) } else some w
    | _ => none
  | .snapshotAndClearWriteFlag => match w.phase with
    | .listed peers =>
      if w.isStale then some { w with lastLocalWriteAt := none, phase := .begun w.lastLocalWriteAt.isSome peers }
      else some { w with phase := .begun false peers }
    | _ => none
  | .buildLocalSnapshot => match w.phase with
    | .begun partition peers => some { w with phase := .visiting partition w.local_ peers }
    | _ => none
  | .fetchRemoteSnapshot ok => match w.phase with
    | .visiting partition snapshot (peer :: peers) =>
      if ok && partition then some { w with phase := .pushing snapshot peer (entities.filter fun e => newer (snapshot e) (w.remote peer e)) peers }
      else some { w with phase := .visiting partition snapshot peers }
    | _ => none
  | .push ok => match w.phase with
    | .pushing snapshot _ [] peers => some { w with phase := .visiting true snapshot peers }
    | .pushing snapshot peer (e :: todo) peers =>
      some { w with
        phase := .pushing snapshot peer todo peers
        remote := if ok then update w.remote peer (update (w.remote peer) e (pushed (w.local_ e) (w.remote peer e))) else w.remote }
    | _ => none
  | .clearStaleFlag => match w.phase with
    | .visiting _ _ [] => some { w with isStale := false, lastLocalWriteAt := none, phase := .idle }
    | _ => none
  | .abandon => some { w with phase := .idle }

variable (w : World ν ε)

def Outstanding : Prop := ∃ i e, w.healthy i = true ∧ w.lacks i e = true

def inPartitionMode : Phase ν ε → Bool
  | .begun partition _ | .visiting partition _ _ => partition
  | .pushing .. => true
  | _ => false

def Remembered : Prop := Outstanding w → w.isStale = true ∧ w.lastLocalWriteAt.isSome = true ∨ inPartitionMode w.phase = true

/-- No step of a Reconcile fails for a healthy peer that lacks a record once the mark is cleared, no write comes after its
peers were listed or without the mark, and while a peer lacks a record the node does not find itself healthy and no
further peer comes back. -/
def Careful : Event ν ε → Prop
  | .write _ _ touches => w.phase = .idle ∧ w.isStale = true ∧ (touches = true ∨ w.lastLocalWriteAt.isSome = true)
  | .ownProbe => ¬ Outstanding w
  | .peerProbe i healthy => healthy = true → w.phase = .idle ∧ w.isStale = true ∧ w.lastLocalWriteAt.isSome = true ∨ ∀ e, w.lacks i e = false
  | .fetchRemoteSnapshot ok => ok = true ∨ match w.phase with
    | .visiting _ _ (peer :: _) => w.healthy peer = true → ∀ e, w.lacks peer e = false
    | _ => True
  | .push ok => ok = true ∨ match w.phase with
    | .pushing _ peer (e :: _) _ => w.healthy peer = true → w.lacks peer e = false
    | _ => True
  | .abandon => match w.phase with
    | .idle | .listed _ => True
    | _ => ¬ Outstanding w
  | _ => True

def snapshotOf : Phase ν ε → Option (ε → Option Int)
  | .visiting _ snapshot _ | .pushing snapshot _ _ _ => some snapshot
  | _ => none

def Pending (i : ν) (e : ε) : Prop := match w.phase with
  | .idle => w.isStale = true ∧ w.lastLocalWriteAt.isSome = true
  | .listed peers => (w.isStale = true ∧ w.lastLocalWriteAt.isSome = true) ∧ i ∈ peers
  | .begun partition peers | .visiting partition _ peers => partition = true ∧ i ∈ peers
  | .pushing _ peer todo peers => i ∈ peers ∨ i = peer ∧ e ∈ todo

structure Inv : Prop where
  fresh : ∀ snapshot ∈ snapshotOf w.phase, snapshot = w.local_
  covered : ∀ i e, w.healthy i = true → w.lacks i e = true → Pending w i e

variable {w} {nodes : List ν} {entities : List ε} {next : World ν ε} {event : Event ν ε}

theorem remembered (inv : Inv w) : Remembered w := by
  rintro ⟨i,e,up,lacks⟩
  have pending := inv.covered i e up lacks
  unfold Pending at pending
  split at pending <;> rename_i at_ <;> rw [at_]
  · exact .inl pending
  · exact .inl pending.1
  · exact .inr pending.1
  · exact .inr pending.1
  · exact .inr rfl

variable [DecidableEq ν] [DecidableEq ε]

theorem pushInv {snapshot peer e todo peers} (inv : Inv w) (at_ : w.phase = .pushing snapshot peer (e :: todo) peers) : Inv { w with
      phase := .pushing snapshot peer todo peers
      remote := update w.remote peer (update (w.remote peer) e (pushed (w.local_ e) (w.remote peer e))) } := by
  have covered := inv.covered
  have fresh := inv.fresh
  rw [at_] at fresh
  refine ⟨fresh,fun i e' up lacks => ?_⟩
  by_cases own : i = peer ∧ e' = e
  · obtain ⟨rfl,rfl⟩ := own
    simp [World.lacks,newerPushed] at lacks
  have same : update w.remote peer (update (w.remote peer) e (pushed (w.local_ e) (w.remote peer e))) i e' = w.remote i e' := by
    rw [update_apply]
    split
    · rename_i here
      rw [update_of_ne fun also => own ⟨here,also⟩,here]
    · rfl
  have before := covered i e' up (by rw [World.lacks] at lacks ⊢; rw [← same]; exact lacks)
  rw [Pending,at_] at before
  refine before.imp_right fun ⟨here,mem⟩ => ⟨here,(List.mem_cons.mp mem).resolve_left fun also => own ⟨here,also⟩⟩

theorem stepInv (all : ∀ i, i ∈ nodes) (every : ∀ e, e ∈ entities) (inv : Inv w) (careful : Careful w event)
    (stepped : step nodes entities w event = some next) : Inv next := by
  obtain ⟨here,_,_,_,_,phase⟩ := w
  obtain ⟨fresh,covered⟩ := inv
  cases event with
  | write e now touches =>
    obtain ⟨rfl,marked,set⟩ := careful
    cases stepped
    refine ⟨nofun,fun _ _ _ _ => ⟨marked,?_⟩⟩
    dsimp only
    split
    · rfl
    · rename_i quiet
      exact set.resolve_left quiet
  | ownProbe =>
    cases stepped
    exact ⟨fresh,fun i e up lacks => absurd ⟨i,e,up,lacks⟩ careful⟩
  | peerProbe i up =>
    cases stepped
    refine ⟨fresh,fun j e now lacks => ?_⟩
    dsimp only at now
    rw [update_apply] at now
    split at now
    · rcases careful now with ⟨rfl,marked⟩ | complete
      · exact marked
      rename_i same
      rw [same,World.lacks,show newer _ _ = false from complete e] at lacks
      cases lacks
    · exact covered j e now lacks
  | reconcile =>
    cases phase <;> try contradiction
    rw [step] at stepped
    dsimp only at stepped
    split at stepped <;> cases stepped
    · exact ⟨nofun,fun i e up lacks => ⟨covered i e up lacks,List.mem_filter.mpr ⟨all i,up⟩⟩⟩
    · exact ⟨fresh,covered⟩
  | snapshotAndClearWriteFlag =>
    cases phase <;> try contradiction
    rw [step] at stepped
    dsimp only at stepped
    split at stepped <;> cases stepped
    · exact ⟨nofun,fun i e up lacks => ⟨(covered i e up lacks).1.2,(covered i e up lacks).2⟩⟩
    · rename_i not
      exact ⟨nofun,fun i e up lacks => absurd (covered i e up lacks).1.1 not⟩
  | buildLocalSnapshot =>
    cases phase <;> try contradiction
    cases stepped
    exact ⟨fun _ same => (Option.some.inj same).symm,covered⟩
  | fetchRemoteSnapshot ok =>
    cases phase <;> try contradiction
    rename_i partition snapshot peers
    obtain rfl : snapshot = here := fresh _ rfl
    cases peers <;> try contradiction
    rw [step] at stepped
    dsimp only at stepped
    split at stepped <;> cases stepped
    · refine ⟨fresh,fun i e up lacks => ?_⟩
      rcases List.mem_cons.mp (covered i e up lacks).2 with rfl | later
      · exact .inr ⟨rfl,List.mem_filter.mpr ⟨every e,lacks⟩⟩
      · exact .inl later
    · rename_i skipped
      refine ⟨fresh,fun i e up lacks => ?_⟩
      obtain ⟨mode,visited⟩ := covered i e up lacks
      rcases List.mem_cons.mp visited with rfl | later
      · have complete := Or.resolve_left careful fun ok => skipped (by rw [ok,mode]; rfl)
        cases lacks.symm.trans (complete up e)
      · exact ⟨mode,later⟩
  | push ok =>
    cases phase <;> try contradiction
    rename_i snapshot peer todo peers
    cases todo with
    | nil =>
      cases stepped
      exact ⟨fresh,fun i e up lacks => ⟨rfl,(covered i e up lacks).resolve_right fun ⟨_,mem⟩ => nomatch mem⟩⟩
    | cons e todo =>
      cases stepped
      cases ok with
      | true => exact pushInv ⟨fresh,covered⟩ rfl
      | false =>
        have complete := Or.resolve_left careful Bool.false_ne_true
        refine ⟨fresh,fun i e' up lacks => ?_⟩
        rcases covered i e' up lacks with later | ⟨rfl,mem⟩
        · exact .inl later
        rcases List.mem_cons.mp mem with rfl | rest
        · cases lacks.symm.trans (complete up)
        · exact .inr ⟨rfl,rest⟩
  | clearStaleFlag =>
    cases phase <;> try contradiction
    rename_i partition snapshot peers
    cases peers <;> try contradiction
    cases stepped
    exact ⟨nofun,fun i e up lacks => nomatch (covered i e up lacks).2⟩
  | abandon =>
    cases stepped
    refine ⟨nofun,fun i e up lacks => ?_⟩
    cases phase with
    | idle => exact covered i e up lacks
    | listed peers => exact (covered i e up lacks).1
    | begun _ _ | visiting _ _ _ | pushing _ _ _ _ => exact absurd ⟨i,e,up,lacks⟩ careful

end

def cutOff : World Unit Unit := ⟨fun _ => some 5, fun _ _ => none, fun _ => true, true, some 5, .idle⟩

-- A peer with everything, before the first write of the partition.
def upToDate : World Unit Unit := ⟨fun _ => some 5, fun _ _ => some 5, fun _ => true, true, none, .idle⟩

def pushAll : List (Event Unit Unit) :=
  [.write () 6 true, .write () 7 false, .reconcile, .snapshotAndClearWriteFlag, .buildLocalSnapshot,
    .fetchRemoteSnapshot true, .push true, .push true, .clearStaleFlag]

-- The snapshot fails, or a push does, or a write comes during the push, or the node probes itself; and a write that leaves
-- the mark as it is comes first.
def forgetful : List (World Unit Unit × List (Event Unit Unit)) :=
  [(cutOff, [.reconcile, .snapshotAndClearWriteFlag, .abandon]),
    (cutOff, [.reconcile, .snapshotAndClearWriteFlag, .buildLocalSnapshot, .fetchRemoteSnapshot true, .push false, .push true, .clearStaleFlag]),
    (cutOff, [.reconcile, .snapshotAndClearWriteFlag, .buildLocalSnapshot, .fetchRemoteSnapshot true, .push true,
      .write () 6 true, .push true, .clearStaleFlag]),
    (cutOff, [.ownProbe]),
    (upToDate, [.write () 6 false])]

end MaxIOFS.PartitionWrites
