import MaxIOFS.Runs

/-! The circuit breaker of a node's connections. A call is admitted, runs for any time and records its
result in the state it then finds, so calls of an earlier phase mix with the probes of a later one. -/
namespace MaxIOFS.CircuitBreaker
open Runs List

inductive State where
  | closed | tripped | halfOpen
  deriving DecidableEq

structure Settings where
  (failureThreshold successThreshold : Nat)
  timeout : Int

structure Breaker where
  state : State
  (failures successes : Nat)
  lastFailureTime : Int

section
variable (x : Settings) (now : Int)

def allowRequest (cb : Breaker) : Option Breaker :=
  match cb.state with
  | .closed | .halfOpen => some cb
  | .tripped => if x.timeout < now - cb.lastFailureTime then some { cb with state := .halfOpen, successes := 0 } else none

def recordFailure (cb : Breaker) : Breaker :=
  let counted := { cb with failures := cb.failures + 1, lastFailureTime := now }
  match cb.state with
  | .closed => if x.failureThreshold ≤ counted.failures then { counted with state := .tripped, failures := 0 } else counted
  | .halfOpen => { counted with state := .tripped, failures := 0, successes := 0 }
  | .tripped => counted

def recordSuccess (cb : Breaker) : Breaker :=
  match cb.state with
  | .closed => { cb with failures := 0 }
  | .halfOpen =>
    if x.successThreshold ≤ cb.successes + 1 then { cb with state := .closed, failures := 0, successes := 0 }
    else { cb with successes := cb.successes + 1 }
  | .tripped => cb

end

/-- A call under way: how often the breaker had opened and whether its time-out was over on admission. -/
structure Call where
  openings : Nat
  elapsed : Bool

/-- The breaker, the calls under way and what has been recorded: the successes of calls admitted since
the last opening, after the time-out, since a failure of such a call; the failures since a success. -/
structure World where
  cb : Breaker
  now : Int
  calls : List Call
  (openings evidence streak : Nat)

inductive Event where
  | wait (d : Nat)
  | admitted
  | finish (call : Nat) (ok : Bool)
  | reset

def start (now : Int) : World := ⟨⟨.closed, 0, 0, 0⟩, now, [], 0, 0, 0⟩

abbrev World.Recent (w : World) (c : Call) : Prop := c.openings = w.openings ∧ c.elapsed = true

section
variable (x : Settings)

def step (w : World) : Event → Option World
  | .wait d => some { w with now := w.now + d }
  | .admitted => match allowRequest x w.now w.cb with
    | none => some w
    | some cb => some { w with cb := cb, calls := w.calls ++ [⟨w.openings, decide (x.timeout < w.now - w.cb.lastFailureTime)⟩] }
  | .finish k ok => match w.calls[k]? with
    | none => none
    | some c =>
      let rest := { w with calls := w.calls.eraseIdx k }
      if ok then some { rest with
        cb := recordSuccess x w.cb
        evidence := if w.Recent c then w.evidence + 1 else w.evidence
        streak := 0 }
      else
        let cb := recordFailure x w.now w.cb
        let opens := cb.state = .tripped ∧ w.cb.state ≠ .tripped
        some { rest with
          cb := cb
          openings := if opens then w.openings + 1 else w.openings
          evidence := if opens ∨ w.Recent c then 0 else w.evidence
          streak := w.streak + 1 }
  | .reset => some { w with cb := { w.cb with state := .closed, failures := 0, successes := 0 } }

/-- The breaker closes only on successes of recent calls, and opens only on failures without a success. -/
structure Justified (w : World) (e : Event) (next : World) : Prop where
  closes : w.cb.state ≠ .closed → next.cb.state = .closed → e = .reset ∨ x.successThreshold ≤ next.evidence
  opens : w.cb.state = .closed → next.cb.state = .tripped → x.failureThreshold ≤ next.streak

/-- A success that meets the half-open breaker is of a call admitted since it opened. -/
def Fresh (w : World) : Event → Prop
  | .finish k true => w.cb.state = .halfOpen → ∀ c, w.calls[k]? = some c → c.openings = w.openings
  | _ => True

structure Inv (w : World) : Prop where
  past : ∀ c ∈ w.calls, c.openings ≤ w.openings
  elapsed : w.cb.state ≠ .closed → ∀ c ∈ w.calls, c.openings = w.openings → c.elapsed = true
  waited : w.cb.state = .halfOpen → x.timeout < w.now - w.cb.lastFailureTime
  counted : w.cb.state = .halfOpen → w.cb.successes ≤ w.evidence
  failed : w.cb.state = .closed → w.cb.failures ≤ w.streak

variable {x} {w next : World} {e : Event}

theorem quiet (same : next.cb.state = w.cb.state) : Justified x w e next := by
  constructor
  · exact fun other closed => absurd (same ▸ closed) other
  intro closed opened
  rw [same,closed] at opened
  cases opened

/-- No call under way was admitted after an opening that is only now. -/
theorem openedInv (past : ∀ c ∈ w.calls, c.openings ≤ w.openings) (opened : next.cb.state = .tripped)
    (inside : ∀ {c}, c ∈ next.calls → c ∈ w.calls)
    (count : next.openings = w.openings + 1) : Inv x next := by
  have older : ∀ c ∈ next.calls, c.openings < next.openings := by
    intro c mem
    rw [count]
    exact Nat.lt_succ_of_le (past c (inside mem))
  refine ⟨fun c mem => Nat.le_of_lt (older c mem),fun _ c mem same => absurd same (Nat.ne_of_lt (older c mem)),?_,?_,?_⟩ <;> simp [opened]

theorem admittedInv (inv : Inv x w) (stepped : step x w .admitted = some next) : Inv x next ∧ Justified x w .admitted next := by
  obtain ⟨past,elapsed,waited,counted,failed⟩ := inv
  cases phase : w.cb.state with
  | closed =>
    simp only [step,allowRequest,phase,Option.some.injEq] at stepped
    subst stepped
    refine ⟨⟨?_,absurd phase,by simp [phase],by simp [phase],failed⟩,quiet rfl⟩
    simpa [or_imp,forall_and] using past
  | halfOpen =>
    simp only [step,allowRequest,phase,Option.some.injEq] at stepped
    subst stepped
    have late := waited phase
    refine ⟨⟨?_,fun _ => ?_,waited,counted,failed⟩,quiet rfl⟩
    · simpa [or_imp,forall_and] using past
    · simpa [or_imp,forall_and,late] using elapsed (by simp [phase])
  | tripped =>
    simp only [step,allowRequest,phase] at stepped
    split at stepped
    · cases stepped
      exact ⟨⟨past,elapsed,waited,counted,failed⟩,quiet rfl⟩
    rename_i late
    split at late <;> cases late
    rename_i late
    cases stepped
    refine ⟨⟨?_,fun _ => ?_,fun _ => late,fun _ => Nat.zero_le _,nofun⟩,⟨fun _ => nofun,fun _ => nofun⟩⟩
    · simpa [or_imp,forall_and] using past
    · simpa [or_imp,forall_and,late] using elapsed (by simp [phase])

theorem finishInv {k ok} (inv : Inv x w) (fresh : Fresh w (.finish k ok)) (stepped : step x w (.finish k ok) = some next) :
    Inv x next ∧ Justified x w (.finish k ok) next := by
  obtain ⟨past,elapsed,waited,counted,failed⟩ := inv
  have inside : ∀ {c}, c ∈ w.calls.eraseIdx k → c ∈ w.calls := mem_of_mem_eraseIdx
  have older : ∀ c ∈ w.calls.eraseIdx k, c.openings ≤ w.openings := fun c mem => past c (inside mem)
  rw [step] at stepped
  split at stepped
  · cases stepped
  rename_i c found
  have mem := mem_of_getElem? found
  cases ok with
  | true =>
    simp only [if_true,Option.some.injEq] at stepped
    subst stepped
    cases phase : w.cb.state with
    | closed =>
      refine ⟨⟨older,?_,?_,?_,?_⟩,quiet ?_⟩ <;> simp [recordSuccess,phase]
    | halfOpen =>
      have open_ : w.cb.state ≠ .closed := by simp [phase]
      have recent : w.Recent c := ⟨fresh phase c found,elapsed open_ c mem (fresh phase c found)⟩
      have successes := counted phase
      have late := waited phase
      simp only [recordSuccess,phase,if_pos recent]
      split
      · refine ⟨⟨older,by simp,by simp,by simp,by simp⟩,⟨fun _ _ => .inr ?_,fun _ => nofun⟩⟩
        dsimp only
        omega
      · exact ⟨⟨older,fun _ c mem => elapsed open_ c (inside mem),fun _ => late,fun _ => Nat.succ_le_succ successes,
          by simp⟩,quiet phase.symm⟩
    | tripped =>
      refine ⟨⟨older,fun _ c mem => elapsed ?_ c (inside mem),?_,?_,?_⟩,quiet ?_⟩ <;> simp [recordSuccess,phase]
  | false =>
    simp only [Bool.false_eq_true,if_false,Option.some.injEq] at stepped
    subst stepped
    cases phase : w.cb.state with
    | closed =>
      have failures := failed phase
      simp only [recordFailure,phase]
      split
      · refine ⟨openedInv past rfl inside (by simp),⟨nofun,fun _ _ => ?_⟩⟩
        dsimp only
        omega
      · refine ⟨⟨?_,by simp,by simp,by simp,fun _ => Nat.succ_le_succ failures⟩,quiet phase.symm⟩
        simpa [phase] using older
    | halfOpen =>
      simp only [recordFailure,phase]
      exact ⟨openedInv past rfl inside (by simp),⟨fun _ => nofun,by simp [phase]⟩⟩
    | tripped =>
      simp only [recordFailure,phase]
      refine ⟨⟨?_,fun _ c mem same => ?_,by simp,by simp,by simp⟩,quiet phase.symm⟩
      · simpa using older
      · exact elapsed (by simp [phase]) c (inside mem) (by simpa using same)

theorem stepInv (inv : Inv x w) (fresh : Fresh w e) (stepped : step x w e = some next) : Inv x next ∧ Justified x w e next := by
  cases e with
  | wait d =>
    cases stepped
    refine ⟨⟨inv.past,inv.elapsed,fun half => ?_,inv.counted,inv.failed⟩,quiet rfl⟩
    have late := inv.waited half
    dsimp only
    omega
  | admitted => exact admittedInv inv stepped
  | finish k ok => exact finishInv inv fresh stepped
  | reset =>
    cases stepped
    exact ⟨⟨inv.past,absurd rfl,nofun,nofun,fun _ => Nat.zero_le _⟩,⟨fun _ _ => .inl rfl,fun _ => nofun⟩⟩

/-- In a run in which successes of calls from before the opening do not meet the half-open breaker,
every step closes and opens it only on the evidence it asks for. -/
theorem closesOnEvidence {now events} (fresh : Along (step x) Fresh (start now) (events ++ [e])) (ran : run (step x) (start now) events = some w)
    (stepped : step x w e = some next) : Justified x w e next := by
  have begins : Inv x (start now) := ⟨nofun,absurd rfl,nofun,nofun,fun _ => Nat.le_refl 0⟩
  have inv := runKeeps (fun inv fresh stepped => (stepInv inv fresh stepped).1) begins (alongFront fresh) ran
  exact (stepInv inv (alongBack fresh ran).1 stepped).2

end

def recovery : List Event := [.admitted, .finish 0 false, .wait 11, .admitted]

theorem recoveryJustified : ∃ w next, run (step ⟨1, 1, 10⟩) (start 0) recovery = some w ∧ step ⟨1, 1, 10⟩ w (.finish 0 true) = some next ∧
    next.cb.state = .closed ∧ Justified ⟨1, 1, 10⟩ w (.finish 0 true) next := by
  refine ⟨_,_,rfl,rfl,rfl,closesOnEvidence ?_ (show run _ (start 0) recovery = _ from rfl) rfl⟩
  simp [Along,recovery,step,start,allowRequest,recordFailure,Fresh]

-- The first call outlasts the opening and closes the breaker in place of the probe.
theorem staleSuccess : ∃ w next, run (step ⟨1, 1, 10⟩) (start 0) ([.admitted] ++ recovery) = some w ∧
    step ⟨1, 1, 10⟩ w (.finish 0 true) = some next ∧ w.cb.state = .halfOpen ∧ next.cb.state = .closed ∧ next.evidence = 0 :=
  ⟨_,_,rfl,rfl,rfl,rfl,rfl⟩

end MaxIOFS.CircuitBreaker
