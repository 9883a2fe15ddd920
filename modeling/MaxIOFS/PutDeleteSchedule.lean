import MaxIOFS.StagedCommit

/-! Any number of Puts and Deletes on one path, interleaved effect by effect. A Put does
its commit section under the path lock; a Delete takes no lock. The repair inside the
lock is two steps, its reads and its one change, so a Delete may come between them. -/
namespace MaxIOFS.PutDeleteSchedule
open ByteString StagedCommit Runs

inductive PutPc where
  | waiting | locked | decided (choice : Repair) | repaired | staged | renamed | done
  deriving DecidableEq, Repr

inductive DeletePc where
  | waiting | checked | dataRemoved | sidecarRemoved | done
  deriving DecidableEq, Repr

structure System where
  slot : Slot
  lock : Option Nat
  puts : Nat → PutPc
  deletes : Nat → DeletePc

inductive Event where
  | put (i : Nat)
  | delete (j : Nat)

variable (md5 : Bytes → Bytes) (jobs : Nat → Job)

def System.put (s : System) (i : Nat) (slot : Slot) (pc : PutPc) : System := { s with slot := slot, puts := Function.update s.puts i pc }

def System.delete (s : System) (j : Nat) (slot : Slot) (pc : DeletePc) : System :=
  { s with slot := slot, deletes := Function.update s.deletes j pc }

def stepPut (s : System) (i : Nat) : Option System :=
  match s.puts i with
  | .waiting => if s.lock = none then some { s.put i s.slot .locked with lock := some i } else none
  | .locked => some (s.put i s.slot (.decided (repairChoice md5 s.slot)))
  | .decided choice => some (s.put i (repairWith s.slot choice) .repaired)
  | .repaired => some (s.put i (apply md5 s.slot (.stage ((jobs i).sidecar md5 i))) .staged)
  | .staged => some (s.put i (apply md5 s.slot (.renameData ((jobs i).stored i))) .renamed)
  | .renamed => some { s.put i (apply md5 s.slot .renameSidecar) .done with lock := none }
  | .done => none

def stepDelete (s : System) (j : Nat) : Option System :=
  match s.deletes j with
  | .waiting => match s.slot.data with
    | none => some (s.delete j s.slot .done)
    | some _ => some (s.delete j s.slot .checked)
  -- Another Delete may have removed the file since: then this one fails and returns.
  | .checked => match s.slot.data with
    | none => some (s.delete j s.slot .done)
    | some _ => some (s.delete j (apply md5 s.slot .removeData) .dataRemoved)
  | .dataRemoved => some (s.delete j (apply md5 s.slot .removeSidecar) .sidecarRemoved)
  | .sidecarRemoved => some (s.delete j (apply md5 s.slot .removeStaged) .done)
  | .done => none

def step (s : System) : Event → Option System
  | .put i => stepPut md5 jobs s i
  | .delete j => stepDelete md5 s j

def Paired (s : Slot) : Prop := s.data = none ∨ ∃ stored m, s.data = some stored ∧ s.sidecar = some m ∧ m.writer = some stored.writer

def start (slot : Slot) : System := ⟨slot, none, fun _ => .waiting, fun _ => .waiting⟩

def DeleteIdle (pc : DeletePc) : Prop := pc = .waiting ∨ pc = .done
def PutIdle (pc : PutPc) : Prop := pc = .waiting ∨ pc = .done

def Returned (s : System) : Prop := (∀ i, PutIdle (s.puts i)) ∧ ∀ j, DeleteIdle (s.deletes j)

def Exclusive (s : System) : Event → Prop
  | .put i => s.puts i = .waiting → ∀ j, DeleteIdle (s.deletes j)
  | .delete j => s.deletes j = .waiting → s.lock = none

def Holding (i : Nat) (s : Slot) : PutPc → Prop
  | .locked | .repaired => s.staged = none ∧ Paired s
  | .decided choice => s.staged = none ∧ Paired s ∧ choice = .nothing
  | .staged => s.staged = some ((jobs i).sidecar md5 i)
  | .renamed => s.data = some ((jobs i).stored i) ∧ s.staged = some ((jobs i).sidecar md5 i)
  | .waiting | .done => False

structure Safe (s : System) : Prop where
  free : s.lock = none → s.slot.staged = none ∧ Paired s.slot
  held : ∀ i, s.lock = some i → Holding md5 jobs i s.slot (s.puts i)
  outside : ∀ i, s.lock ≠ some i → PutIdle (s.puts i)
  alone : s.lock ≠ none → ∀ j, DeleteIdle (s.deletes j)
  removed : ∀ j, s.deletes j = .dataRemoved ∨ s.deletes j = .sidecarRemoved → s.slot.data = none

variable {md5 : Bytes → Bytes} {jobs : Nat → Job}

theorem notRemoving {pc} (idle : DeleteIdle pc) : ¬ (pc = .dataRemoved ∨ pc = .sidecarRemoved) := by
  obtain rfl | rfl := idle <;> simp

section
variable {s} (safe : Safe md5 jobs s)
include safe

theorem Safe.holder {i} (active : ¬ PutIdle (s.puts i)) : s.lock = some i := Classical.byContradiction fun other => active (safe.outside i other)

theorem Safe.advance {i slot pc} (lock : s.lock = some i) (holding : Holding md5 jobs i slot pc) : Safe md5 jobs (s.put i slot pc) where
  free free := by simp [System.put,lock] at free
  held k same := by
    have here : i = k := Option.some.inj (lock.symm.trans same)
    subst here
    simpa [System.put] using holding
  outside k other := by
    have away : k ≠ i := fun same => other (by rw [same]; exact lock)
    simpa [System.put,away] using safe.outside k other
  alone := safe.alone
  removed j busy := absurd busy (notRemoving (safe.alone (by simp [lock]) j))

theorem Safe.release {i slot} (lock : s.lock = some i) (clear : slot.staged = none) (paired : Paired slot) :
    Safe md5 jobs { s.put i slot .done with lock := none } where
  free _ := ⟨clear,paired⟩
  held k same := by simp at same
  outside k _ := by
    by_cases here : k = i
    · exact .inr (by simp [System.put,here])
    · simpa [System.put,here] using safe.outside k (by simp [lock,Ne.symm here])
  alone held := absurd rfl held
  removed j busy := absurd busy (notRemoving (safe.alone (by simp [lock]) j))

theorem Safe.acquire {i} (free : s.lock = none) (quiet : ∀ j, DeleteIdle (s.deletes j)) :
    Safe md5 jobs { s.put i s.slot .locked with lock := some i } where
  free free := by simp at free
  held k same := by
    cases same
    simpa [System.put,Holding] using safe.free free
  outside k other := by
    have away : k ≠ i := fun same => other (by rw [same])
    simpa [System.put,away] using safe.outside k (by simp [free])
  alone _ := quiet
  removed j busy := absurd busy (notRemoving (quiet j))

theorem stepPutSafe {i next} (exclusive : Exclusive s (.put i)) (taken : stepPut md5 jobs s i = some next) : Safe md5 jobs next := by
  have lock : ¬ PutIdle (s.puts i) → s.lock = some i := safe.holder
  have holding := fun active => safe.held i (lock active)
  unfold stepPut at taken
  cases pc : s.puts i <;> simp only [pc,PutIdle,reduceCtorEq,or_self,not_false_eq_true,forall_const] at lock holding taken
  case waiting =>
    split at taken <;> try contradiction
    cases taken
    exact safe.acquire (by assumption) (exclusive pc)
  case locked =>
    cases taken
    refine safe.advance lock ⟨holding.1,holding.2,?_⟩
    simp [repairChoice,holding.1]
  case decided choice =>
    obtain ⟨clear,paired,rfl⟩ := holding
    cases taken
    exact safe.advance lock ⟨clear,paired⟩
  case repaired =>
    cases taken
    exact safe.advance lock rfl
  case staged =>
    cases taken
    exact safe.advance lock ⟨rfl,holding⟩
  case renamed =>
    obtain ⟨data,staged⟩ := holding
    cases taken
    have committed : apply md5 s.slot .renameSidecar =
        { s.slot with sidecar := some ((jobs i).sidecar md5 i), staged := none } := by simp only [apply,staged]
    rw [committed]
    exact safe.release lock rfl (.inr ⟨_,_,data,rfl,rfl⟩)

theorem Safe.deleting {j slot pc} (free : s.lock = none) (clear : slot.staged = none) (paired : Paired slot)
    (gone : pc = .dataRemoved ∨ pc = .sidecarRemoved ∨ s.slot.data = none → slot.data = none) : Safe md5 jobs (s.delete j slot pc) where
  free _ := ⟨clear,paired⟩
  held i same := by simp [System.delete,free] at same
  outside i _ := safe.outside i (by simp [free])
  alone held := absurd free held
  removed k busy := by
    by_cases here : k = j
    · simp only [System.delete,here,Function.update_self] at busy
      exact gone (busy.elim .inl (fun h => .inr (.inl h)))
    · simp only [System.delete,Function.update_of_ne here] at busy
      exact gone (.inr (.inr (safe.removed k busy)))

theorem stepDeleteSafe {j next} (exclusive : Exclusive s (.delete j)) (taken : stepDelete md5 s j = some next) : Safe md5 jobs next := by
  have running : ¬ DeleteIdle (s.deletes j) → s.lock = none := fun busy =>
    Classical.byContradiction fun held => busy (safe.alone held j)
  unfold stepDelete at taken
  cases pc : s.deletes j <;> simp only [pc,DeleteIdle,reduceCtorEq,or_self,not_false_eq_true,forall_const] at running taken
  case waiting =>
    have free := exclusive pc
    obtain ⟨clear,paired⟩ := safe.free free
    split at taken <;> cases taken <;> exact safe.deleting free clear paired (by simp)
  case checked =>
    obtain ⟨clear,paired⟩ := safe.free running
    split at taken <;> cases taken
    · exact safe.deleting running clear paired (by simp)
    · exact safe.deleting running clear (.inl rfl) (fun _ => rfl)
  case dataRemoved =>
    have missing := safe.removed j (.inl pc)
    cases taken
    exact safe.deleting running (safe.free running).1 (.inl missing) (fun _ => missing)
  case sidecarRemoved =>
    have missing := safe.removed j (.inr pc)
    cases taken
    exact safe.deleting running rfl (.inl missing) (fun _ => missing)

theorem stepSafe {event next} (exclusive : Exclusive s event) (taken : step md5 jobs s event = some next) : Safe md5 jobs next := by
  cases event with
  | put i => exact stepPutSafe safe exclusive taken
  | delete j => exact stepDeleteSafe safe exclusive taken

end

theorem startSafe {slot} (clear : slot.staged = none) (paired : Paired slot) : Safe md5 jobs (start slot) where
  free _ := ⟨clear,paired⟩
  held i same := by simp [start] at same
  outside _ _ := .inl rfl
  alone held := absurd rfl held
  removed j busy := by simp [start] at busy

theorem returnedPaired {s} (safe : Safe md5 jobs s) (returned : Returned s) : Paired s.slot := by
  cases lock : s.lock with
  | none => exact (safe.free lock).2
  | some i =>
    have holding := safe.held i lock
    obtain idle | idle := returned.1 i <;> rw [idle] at holding <;> exact holding.elim

/-! From a path that is empty or holds one Put's pair: in every schedule in which no Delete is in
progress while a Put holds the lock, no data is left without its own sidecar once all have returned. -/
theorem sidecarSurvives {slot events final} (clear : slot.staged = none) (paired : Paired slot)
    (exclusive : Along (step md5 jobs) Exclusive (start slot) events)
    (done : run (step md5 jobs) (start slot) events = some final) (returned : Returned final) : Paired final.slot := by
  have safe : Safe md5 jobs final := runKeeps (fun held ok taken => stepSafe held ok taken) (startSafe clear paired) exclusive done
  exact returnedPaired safe returned

def plain (b : Bytes) : Bytes := 1 :: b
def numbered (i : Nat) : Job := ⟨[UInt8.ofNat i], OrderedStore.empty, 0⟩
def wholePut (i : Nat) : List Event := List.replicate 6 (.put i)

def wholeDelete (j : Nat) : List Event := List.replicate 4 (.delete j)

def Early : Event → Prop
  | .put i => i < 2
  | .delete j => j = 0

instance (e : Event) : Decidable (Early e) := by
  cases e <;> unfold Early <;> infer_instance

structure OneDelete (s : System) : Prop where
  puts : ∀ i, 2 ≤ i → s.puts i = .waiting
  deletes : ∀ j, j ≠ 0 → s.deletes j = .waiting

instance (pc : DeletePc) : Decidable (DeleteIdle pc) := inferInstanceAs (Decidable (_ ∨ _))

def exclusively (s : System) : Event → Bool
  | .put i => decide (s.puts i = .waiting → DeleteIdle (s.deletes 0))
  | .delete j => decide (s.deletes j = .waiting → s.lock = none)

theorem exclusiveChecked {s e} (one : OneDelete s) (ok : exclusively s e = true) : Exclusive s e := by
  cases e with
  | put i =>
    intro waiting j
    by_cases first : j = 0
    · exact first ▸ of_decide_eq_true ok waiting
    · exact .inl (one.deletes j first)
  | delete j => exact fun waiting => of_decide_eq_true ok waiting

theorem OneDelete.step {s e next} (one : OneDelete s) (early : Early e) (taken : step md5 jobs s e = some next) : OneDelete next := by
  cases e with
  | put i =>
    have others j (late : 2 ≤ j) pc : Function.update s.puts i pc j = .waiting :=
      (Function.update_of_ne (by change i < 2 at early; omega) ..).trans (one.puts j late)
    simp only [PutDeleteSchedule.step,stepPut] at taken
    split at taken
    · split at taken <;> try contradiction
      cases taken
      exact ⟨fun j late => others j late _,one.deletes⟩
    all_goals first | contradiction | (cases taken; exact ⟨fun j late => others j late _,one.deletes⟩)
  | delete j =>
    cases (show j = 0 from early)
    have others j (other : j ≠ 0) pc : Function.update s.deletes 0 pc j = .waiting := (Function.update_of_ne other ..).trans (one.deletes j other)
    simp only [PutDeleteSchedule.step,stepDelete] at taken
    split at taken <;> try split at taken
    all_goals first | contradiction | (cases taken; exact ⟨one.puts,fun j other => others j other _⟩)

theorem OneDelete.returned {s} (one : OneDelete s) (first : s.puts 0 = .done) (second : s.puts 1 = .done) (deleted : s.deletes 0 = .done) :
    Returned s := by
  refine ⟨fun i => ?_,fun j => ?_⟩
  · match i with
    | 0 => exact .inr first
    | 1 => exact .inr second
    | i + 2 => exact .inl (one.puts _ (by omega))
  · by_cases here : j = 0
    · exact .inr (here ▸ deleted)
    · exact .inl (one.deletes j here)

-- The second Put begins when the Delete of the first one's object has returned.
def inTurn : List Event := wholePut 0 ++ wholeDelete 0 ++ wholePut 1

theorem putsAndDeleteInTurn : ∃ final, run (step plain numbered) (start vacant) inTurn = some final ∧
    final.slot.data = some ((numbered 1).stored 1) ∧ Paired final.slot := by
  obtain ⟨final,done,data,first,second,deleted⟩ : ∃ final, run (step plain numbered) (start vacant) inTurn = some final ∧
      final.slot.data = some ((numbered 1).stored 1) ∧ final.puts 0 = .done ∧ final.puts 1 = .done ∧ final.deletes 0 = .done := by decide +kernel
  have early : ∀ e ∈ inTurn, Early e := by decide
  have one : OneDelete (start vacant) := ⟨fun _ _ => rfl,fun _ _ => rfl⟩
  have along : Along (step plain numbered) Exclusive (start vacant) inTurn :=
    alongChecked (I := OneDelete) (fun one _ ok => exclusiveChecked one ok) OneDelete.step early one
      (show checked (step plain numbered) exclusively (start vacant) inTurn = true by decide +kernel)
  have last : OneDelete final := runKeeps OneDelete.step one (alongOf early _) done
  exact ⟨final,done,data,sidecarSurvives rfl (.inl rfl) along done (last.returned first second deleted)⟩

-- The Delete of an old object removes the data, a Put commits, the Delete goes on with its sidecar.
theorem deleteTakesNewSidecar : ∃ final, run (step plain numbered) (start vacant)
        (wholePut 0 ++ [.delete 0, .delete 0] ++ wholePut 1 ++ [.delete 0, .delete 0]) = some final ∧ Returned final ∧ ¬ Paired final.slot := by
  refine ⟨_,rfl,⟨fun i => ?_,fun j => ?_⟩,?_⟩
  · by_cases last : i = 1
    · exact .inr (by simp [System.put,System.delete,last])
    by_cases first : i = 0
    · exact .inr (by simp [System.put,System.delete,first])
    · exact .inl (by simp [System.put,System.delete,start,first,last])
  · by_cases here : j = 0
    · exact .inr (by simp [System.delete,here])
    · exact .inl (by simp [System.put,System.delete,start,here])
  intro paired
  obtain missing | ⟨_,_,_,sidecar,_⟩ := paired
  · exact absurd missing (by decide)
  · exact absurd sidecar (by simp [apply,System.delete])

end MaxIOFS.PutDeleteSchedule
