import MaxIOFS.Runs

/-! The locks that keep the syncs of one replication rule apart. SyncRule looks the rule's mutex up when it
locks it and once more when it unlocks it; DeleteRule takes the mutex out of the map. -/
namespace MaxIOFS.RuleLocks
open Function Runs

inductive Sync where
  | start
  | syncing (lock : Nat)
  | releasing (lock : Nat) (found : Option Nat)
  | returned
  deriving DecidableEq

/-- Mutexes are numbered as they are made; of each it is known by which call it is locked. To unlock one that is
not locked aborts the process. -/
structure World (ι : Type) where
  ruleLocks : ι → Option Nat
  locked : Nat → Option Nat
  made : Nat
  syncs : Nat → Sync
  aborted : Bool

inductive Event (ι : Type) where
  | tryLockRule (i : Nat)
  | findLock (i : Nat)
  | unlock (i : Nat)
  | deleteRule (ruleID : ι)

def Sync.lock : Sync → Option Nat
  | .syncing m | .releasing m _ => some m
  | _ => none

section
variable {ι : Type} [DecidableEq ι] (rule : Nat → ι) (w : World ι)

def tryLockRule (i : Nat) : World ι :=
  let (m, w) := match w.ruleLocks (rule i) with
    | some m => (m, w)
    | none => (w.made, { w with ruleLocks := update w.ruleLocks (rule i) (some w.made), made := w.made + 1 })
  if (w.locked m).isSome then { w with syncs := update w.syncs i .returned }
  else { w with locked := update w.locked m (some i), syncs := update w.syncs i (.syncing m) }

def turn : Event ι → Option (World ι)
  | .tryLockRule i => if w.syncs i = .start then some (tryLockRule rule w i) else none
  | .findLock i => match w.syncs i with
    | .syncing m => some { w with syncs := update w.syncs i (.releasing m (w.ruleLocks (rule i))) }
    | _ => none
  | .unlock i => match w.syncs i with
    | .releasing _ none => some { w with syncs := update w.syncs i .returned }
    | .releasing _ (some m) => some (if (w.locked m).isSome then
        { w with locked := update w.locked m none, syncs := update w.syncs i .returned }
      else { w with aborted := true })
    | _ => none
  | .deleteRule ruleID => some { w with ruleLocks := update w.ruleLocks ruleID none }

def step (e : Event ι) : Option (World ι) := if w.aborted then none else turn rule w e

structure Sound : Prop where
  running : w.aborted = false
  own : ∀ i m found, w.syncs i = .releasing m (some found) → found = m
  single : ∀ i j, (w.syncs i).lock.isSome = true → (w.syncs j).lock.isSome = true → rule i = rule j → i = j

/-- A rule is deleted only while it is not being synced. -/
def Apart : Event ι → Prop
  | .deleteRule ruleID => ∀ i, (w.syncs i).lock.isSome = true → rule i ≠ ruleID
  | _ => True

structure Inv : Prop where
  running : w.aborted = false
  held : ∀ i m, (w.syncs i).lock = some m → w.ruleLocks (rule i) = some m ∧ w.locked m = some i
  found : ∀ i m found, w.syncs i = .releasing m found → found = some m
  apart : ∀ a b m, w.ruleLocks a = some m → w.ruleLocks b = some m → a = b
  old : ∀ a m, w.ruleLocks a = some m → m < w.made
  new : ∀ m, w.made ≤ m → w.locked m = none

def begin_ : World ι := ⟨fun _ => none, fun _ => none, 0, fun _ => .start, false⟩

variable {rule w} {w' : World ι} {e : Event ι}

omit [DecidableEq ι] in
theorem invSound (inv : Inv rule w) : Sound rule w := by
  refine ⟨inv.running,fun i m found at_ => Option.some.inj (inv.found i m _ at_),fun i j first second same => ?_⟩
  obtain ⟨m,first⟩ := Option.isSome_iff_exists.mp first
  obtain ⟨m',second⟩ := Option.isSome_iff_exists.mp second
  obtain ⟨here,mine⟩ := inv.held i m first
  obtain ⟨there,yours⟩ := inv.held j m' second
  cases here.symm.trans (same ▸ there)
  exact Option.some.inj (mine.symm.trans yours)

omit [DecidableEq ι] in
theorem movedInv {i p locked} (inv : Inv rule w) (found : ∀ m f, p = .releasing m f → f = some m)
    (own : ∀ m, p.lock = some m → w.ruleLocks (rule i) = some m ∧ locked m = some i)
    (others : ∀ j m, j ≠ i → w.locked m = some j → locked m = some j) (new : ∀ m, w.made ≤ m → locked m = none) :
    Inv rule { w with locked := locked, syncs := update w.syncs i p } := by
  refine ⟨inv.running,?_,?_,inv.apart,inv.old,new⟩
  · refine (Function.forall_update_iff w.syncs fun i p => ∀ m, p.lock = some m → w.ruleLocks (rule i) = some m ∧
      locked m = some i).mpr ⟨own,fun j other m lock => ?_⟩
    obtain ⟨there,mine⟩ := inv.held j m lock
    exact ⟨there,others j m other mine⟩
  · exact (Function.forall_update_iff w.syncs fun _ p => ∀ m f, p = .releasing m f → f = some m).mpr ⟨found,fun j _ => inv.found j⟩

omit [DecidableEq ι] in
theorem acquiredInv {i m} (inv : Inv rule w) (known : w.ruleLocks (rule i) = some m) (free : w.locked m = none) :
    Inv rule { w with locked := update w.locked m (some i), syncs := update w.syncs i (.syncing m) } := by
  have young := inv.old _ m known
  refine movedInv inv nofun (fun m' lock => ?_) (fun j m' other held => ?_) fun m' late => ?_
  · cases lock
    exact ⟨known,update_self ..⟩
  · rwa [update_of_ne (fun same => by simp [same,free] at held)]
  · rw [update_of_ne (by omega)]
    exact inv.new m' late

theorem madeInv {i} (inv : Inv rule w) (unknown : w.ruleLocks (rule i) = none) :
    Inv rule { w with ruleLocks := update w.ruleLocks (rule i) (some w.made), made := w.made + 1 } := by
  have cases_ {a m} (known : update w.ruleLocks (rule i) (some w.made) a = some m) : a = rule i ∧ m = w.made ∨ w.ruleLocks a = some m := by
    rcases eq_or_ne a (rule i) with rfl | other
    · exact .inl ⟨rfl,by simpa using known.symm⟩
    · exact .inr (by rwa [update_of_ne other] at known)
  refine ⟨inv.running,fun j m lock => ?_,inv.found,fun a b m first second => ?_,fun a m known => ?_,
    fun m late => inv.new m (Nat.le_of_succ_le late)⟩
  · obtain ⟨known,mine⟩ := inv.held j m lock
    exact ⟨(update_of_ne (fun same => by simp [same,unknown] at known) ..).trans known,mine⟩
  · rcases cases_ first with ⟨rfl,rfl⟩ | first <;> rcases cases_ second with ⟨rfl,_⟩ | second
    · rfl
    · exact absurd (inv.old b _ second) (by omega)
    · exact absurd (inv.old a m first) (by omega)
    · exact inv.apart a b m first second
  · rcases cases_ known with ⟨-,rfl⟩ | known
    · exact Nat.lt_succ_self _
    · exact Nat.lt_succ_of_lt (inv.old a m known)

theorem tryLockInv {i} (inv : Inv rule w) : Inv rule (tryLockRule rule w i) := by
  unfold tryLockRule
  cases known : w.ruleLocks (rule i) with
  | some m =>
    dsimp only
    split
    · exact movedInv inv nofun nofun (fun _ _ _ => id) inv.new
    · exact acquiredInv inv known (by simp_all)
  | none =>
    have unlocked : w.locked w.made = none := inv.new _ (Nat.le_refl _)
    simp only [unlocked]
    exact acquiredInv (madeInv inv known) (update_self ..) unlocked

theorem stepInv (inv : Inv rule w) (apart : Apart rule w e) (stepped : step rule w e = some w') : Inv rule w' := by
  rw [step,if_neg (by simp [inv.running])] at stepped
  cases e with
  | tryLockRule i =>
    simp only [turn] at stepped
    split at stepped <;> cases stepped
    exact tryLockInv inv
  | findLock i =>
    simp only [turn] at stepped
    split at stepped <;> cases stepped
    rename_i m at_
    obtain ⟨known,mine⟩ := inv.held i m (by rw [at_]; rfl)
    refine movedInv inv ?_ ?_ (fun _ _ _ => id) inv.new
    · rintro _ _ ⟨⟩
      exact known
    · rintro _ ⟨⟩
      exact ⟨known,mine⟩
  | unlock i =>
    simp only [turn] at stepped
    split at stepped <;> cases stepped
    · exact movedInv inv nofun nofun (fun _ _ _ => id) inv.new
    rename_i m m' at_
    cases inv.found i m _ at_
    obtain ⟨known,mine⟩ := inv.held i m (by rw [at_]; rfl)
    rw [if_pos (by rw [mine]; rfl)]
    refine movedInv inv nofun nofun (fun j m' other held => ?_) fun m' late => ?_
    · rw [update_of_ne (fun same => other (by simpa [← same,held] using mine))]
      exact held
    · rw [update_of_ne (by have := inv.old _ m known; omega)]
      exact inv.new m' late
  | deleteRule ruleID =>
    cases stepped
    have known {a m} (kept : update w.ruleLocks ruleID none a = some m) : w.ruleLocks a = some m := by
      rcases eq_or_ne a ruleID with rfl | other
      · simp at kept
      · rwa [update_of_ne other] at kept
    refine ⟨inv.running,fun j m lock => ?_,inv.found,fun a b m first second => inv.apart a b m (known first) (known second),
      fun a m kept => inv.old a m (known kept),inv.new⟩
    obtain ⟨there,mine⟩ := inv.held j m lock
    exact ⟨(update_of_ne (apart j (by rw [lock]; rfl)) ..).trans there,mine⟩

theorem locksSound {events} (apart : Along (step rule) (Apart rule) begin_ events) : Throughout (step rule) (Sound rule) begin_ events := by
  have start : Inv rule begin_ := ⟨rfl,nofun,nofun,nofun,nofun,fun _ _ => rfl⟩
  intro before inside w ran
  exact invSound (throughoutKeeps stepInv start apart before inside w ran)

end

-- The second call is of another rule. Rule 0 is deleted while that one is being synced, and synced again afterwards.
def secondRule (i : Nat) : Nat := if i = 1 then 1 else 0

def syncAndDelete : List (Event Nat) :=
  [.tryLockRule 0, .tryLockRule 1, .findLock 0, .unlock 0, .deleteRule 0, .tryLockRule 2, .findLock 1,
    .unlock 1, .deleteRule 1, .findLock 2, .unlock 2]

def Event.calls {ι : Type} : Event ι → List Nat
  | .tryLockRule i | .findLock i | .unlock i => [i]
  | .deleteRule _ => []

theorem stepStart {ι : Type} [DecidableEq ι] {rule : Nat → ι} {w w' : World ι} {e n} (few : ∀ i ∈ e.calls, i < n)
    (start : ∀ i, n ≤ i → w.syncs i = .start) (stepped : step rule w e = some w') : ∀ i, n ≤ i → w'.syncs i = .start := by
  intro i large
  have other : ∀ j ∈ e.calls, i ≠ j := fun j mem => by have := few j mem; omega
  have kept j p (mem : j ∈ e.calls) : update w.syncs j p i = .start := (update_of_ne (other j mem) ..).trans (start i large)
  unfold step at stepped
  split at stepped <;> try contradiction
  cases e with
  | deleteRule ruleID =>
    cases stepped
    exact start i large
  | tryLockRule j =>
    simp only [turn,tryLockRule] at stepped
    split at stepped <;> try contradiction
    cases stepped
    split <;> split <;> exact kept j _ (List.mem_singleton_self j)
  | findLock j =>
    simp only [turn] at stepped
    split at stepped <;> cases stepped
    exact kept j _ (List.mem_singleton_self j)
  | unlock j =>
    simp only [turn] at stepped
    split at stepped <;> cases stepped
    · exact kept j _ (List.mem_singleton_self j)
    split
    · exact kept j _ (List.mem_singleton_self j)
    · exact start i large

def apartCheck (w : World Nat) : Event Nat → Bool
  | .deleteRule ruleID => (List.range 3).all fun i => (w.syncs i).lock.isNone || decide (secondRule i ≠ ruleID)
  | _ => true

theorem apartChecked {w : World Nat} {e} (start : ∀ i, 3 ≤ i → w.syncs i = .start) (passed : apartCheck w e = true) : Apart secondRule w e := by
  cases e with
  | deleteRule ruleID =>
    intro i locked
    rcases Nat.lt_or_ge i 3 with small | large
    · have here := List.all_eq_true.mp passed i (List.mem_range.mpr small)
      rw [Option.isNone_eq_false_iff.mpr locked] at here
      exact of_decide_eq_true here
    · simp [start i large,Sync.lock] at locked
  | _ => trivial

theorem syncAndDeleteSound : Throughout (step secondRule) (Sound secondRule) begin_ syncAndDelete := by
  have few : ∀ e ∈ syncAndDelete, ∀ i ∈ e.calls, i < 3 := by decide
  have apart : Along (step secondRule) (Apart secondRule) begin_ syncAndDelete :=
    alongChecked (I := fun w => ∀ i, 3 ≤ i → w.syncs i = .start) (fun start _ => apartChecked start) (fun start few => stepStart few start) few
      (fun _ _ => rfl) rfl
  exact locksSound apart

def deletedMeanwhile : List (Event Unit) := [.tryLockRule 0, .deleteRule (), .tryLockRule 1]

-- The second sync locks a new mutex. The first one then unlocks that one, and the second finds it unlocked.
theorem locksConfused : (∃ w, run (step fun _ => ()) begin_ deletedMeanwhile = some w ∧ w.syncs 0 = .syncing 0 ∧ w.syncs 1 = .syncing 1) ∧
    ∃ w, run (step fun _ => ()) begin_ (deletedMeanwhile ++ [.findLock 0, .unlock 0, .findLock 1, .unlock 1]) = some w ∧ w.aborted = true :=
  ⟨⟨_,rfl,rfl,rfl⟩,_,rfl,rfl⟩

end MaxIOFS.RuleLocks
