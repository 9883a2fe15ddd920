import Mathlib

/-! Runs of a partial step function over a list of events: a step that is not enabled
ends the run. A condition on a run is a condition on every step, stated in the state
the step starts from; an invariant kept by such steps holds in every state reached. -/
namespace MaxIOFS.Runs
open List

variable {σ κ : Type}

def run (step : σ → κ → Option σ) : σ → List κ → Option σ
  | s, [] => some s
  | s, event :: rest => do
    let next ← step s event
    run step next rest

def Along (step : σ → κ → Option σ) (ok : σ → κ → Prop) : σ → List κ → Prop
  | _, [] => True
  | s, event :: rest => ok s event ∧ ∀ next, step s event = some next → Along step ok next rest

variable {step : σ → κ → Option σ} {ok : σ → κ → Prop} {I : σ → Prop}

theorem runKeeps (keeps : ∀ {s event next}, I s → ok s event → step s event = some next → I next)
    {s events final} (start : I s) (along : Along step ok s events) (done : run step s events = some final) : I final := by
  induction events generalizing s with
  | nil =>
    cases done
    exact start
  | cons event rest ih =>
    simp only [run,bind,Option.bind_eq_some_iff] at done
    obtain ⟨next,first,later⟩ := done
    exact ih (keeps start along.1 first) (along.2 next first) later

theorem alongFront {s first second} (along : Along step ok s (first ++ second)) : Along step ok s first := by
  induction first generalizing s with
  | nil => trivial
  | cons event rest ih => exact ⟨along.1,fun next stepped => ih (along.2 next stepped)⟩

theorem alongBack {s s' first second} (along : Along step ok s (first ++ second)) (ran : run step s first = some s') :
    Along step ok s' second := by
  induction first generalizing s with
  | nil => cases ran; exact along
  | cons event rest ih =>
    obtain ⟨next,stepped,later⟩ := Option.bind_eq_some_iff.mp ran
    exact ih (along.2 next stepped) later

def Throughout (step : σ → κ → Option σ) (P : σ → Prop) (s : σ) (events : List κ) : Prop :=
  ∀ before, before <+: events → ∀ s', run step s before = some s' → P s'

theorem Throughout.here {P s events} (all : Throughout step P s events) : P s := all [] nil_prefix s rfl

theorem Throughout.next {P} {s s' event events}
    (all : Throughout step P s (event :: events)) (stepped : step s event = some s') : Throughout step P s' events := by
  intro before inside s'' ran
  refine all (event :: before) ((prefix_cons_inj event).mpr inside) s'' ?_
  simp only [run,stepped]
  exact ran

theorem throughoutKeeps (keeps : ∀ {s event next}, I s → ok s event → step s event = some next → I next) {s events} (start : I s)
    (along : Along step ok s events) : Throughout step I s events := by
  rintro before ⟨after,rfl⟩ s' ran
  exact runKeeps keeps start (alongFront along) ran

/-- Where a step keeps an invariant exactly under a condition, so does a run. -/
theorem throughoutIff (keeps : ∀ {s event}, I s → ((∀ next, step s event = some next → I next) ↔ ok s event)) {s events} (start : I s) :
    Throughout step I s events ↔ Along step ok s events := by
  refine ⟨fun all => ?_,throughoutKeeps (fun held fine => (keeps held).mpr fine _) start⟩
  induction events generalizing s with
  | nil => trivial
  | cons event rest ih =>
    have after : ∀ next, step s event = some next → I next := fun next stepped => (all.next stepped).here
    exact ⟨(keeps start).mp after,fun next stepped => ih (after next stepped) (all.next stepped)⟩

theorem runShows {s events} {P : σ → Prop} (Q : σ → Prop)
    (decided : ∃ w, run step s events = some w ∧ Q w) (shows : ∀ w, run step s events = some w → Q w → P w) : ∃ w, run step s events = some w ∧
    P w := by
  obtain ⟨w,ran,met⟩ := decided
  exact ⟨w,ran,shows w ran met⟩

theorem alongOf {ok} {events} (all : ∀ event ∈ events, ok event) (s : σ) : Along step (fun _ => ok) s events := by
  induction events generalizing s with
  | nil => trivial
  | cons event rest ih =>
    exact ⟨all event mem_cons_self,fun next _ => ih (fun e mem => all e (mem_cons_of_mem _ mem)) next⟩

def checked (step : σ → κ → Option σ) (check : σ → κ → Bool) : σ → List κ → Bool
  | _, [] => true
  | s, event :: rest => check s event && match step s event with
    | some next => checked step check next rest
    | none => true

theorem alongChecked {check events} {allowed : κ → Prop} (sound : ∀ {s event}, I s → allowed event → check s event = true → ok s event)
    (keeps : ∀ {s event next}, I s → allowed event → step s event = some next → I next) (all : ∀ event ∈ events, allowed event) {s}
    (start : I s) (passed : checked step check s events = true) : Along step ok s events := by
  induction events generalizing s with
  | nil => trivial
  | cons event rest ih =>
    have here := all event mem_cons_self
    obtain ⟨first,later⟩ := (Bool.and_eq_true _ _).mp passed
    refine ⟨sound start here first,fun next stepped => ?_⟩
    rw [stepped] at later
    exact ih (fun e mem => all e (mem_cons_of_mem _ mem)) (keeps start here stepped) later

theorem runReaches {J : σ → Prop} {e} (keeps : ∀ {s event next}, I s → ok s event → step s event = some next → I next)
    (stays : ∀ {s event next}, J s → step s event = some next → J next) (reached : ∀ {s next}, I s → ok s e → step s e = some next → J next)
    {s final events} (mem : e ∈ events) (start : I s) (along : Along step ok s events) (ran : run step s events = some final) : J final := by
  induction events generalizing s with
  | nil => cases mem
  | cons event rest ih =>
    obtain ⟨next,first,later⟩ := Option.bind_eq_some_iff.mp ran
    rcases mem_cons.mp mem with rfl | mem
    · exact runKeeps (fun held _ stepped => stays held stepped) (reached start along.1 first) (along.2 next first) later
    · exact ih mem (keeps start along.1 first) (along.2 next first) later

/-! The events of a run at which a mark holds, such as the commits, in their order. -/

def marked (step : σ → κ → Option σ) (mark : σ → κ → Bool) : σ → List κ → List κ
  | _, [] => []
  | s, event :: rest => match step s event with
    | some next => if mark s event then event :: marked step mark next rest else marked step mark next rest
    | none => []

theorem markedCons {mark s next event} (stepped : step s event = some next)
    (rest : List κ) : marked step mark s (event :: rest) =
    if mark s event then event :: marked step mark next rest else marked step mark next rest := by
  rw [marked,stepped]

/-- What the marked events do one after another is what the run does. -/
theorem runFolds {α : Type} {m : σ → κ → Bool} {v : σ → α} {f} (keeps : ∀ {s event next}, I s → ok s event → step s event = some next → I next)
    (acts : ∀ {s event next}, I s → ok s event → step s event = some next → v next = if m s event then f (v s) event else v s)
    {s final events} (start : I s) (along : Along step ok s events) (ran : run step s events = some final) :
    v final = (marked step m s events).foldl f (v s) := by
  induction events generalizing s with
  | nil =>
    cases ran
    rfl
  | cons event rest ih =>
    simp only [run,bind,Option.bind_eq_some_iff] at ran
    obtain ⟨next,first,later⟩ := ran
    rw [ih (keeps start along.1 first) (along.2 next first) later,acts start along.1 first,markedCons first]
    split <;> rfl

/-- An invariant of the state together with the marked events so far. -/
theorem markedKeeps {m : σ → κ → Bool} {I : σ → List κ → Prop}
    (keeps : ∀ {s log event next}, I s log → ok s event → step s event = some next → I next (if m s event then log ++ [event] else log))
    {s final events} (along : Along step ok s events) (ran : run step s events = some final) {log} (start : I s log) :
    I final (log ++ marked step m s events) := by
  induction events generalizing s log with
  | nil =>
    cases ran
    rw [marked,append_nil]
    exact start
  | cons event rest ih =>
    simp only [run,bind,Option.bind_eq_some_iff] at ran
    obtain ⟨next,first,later⟩ := ran
    have after := ih (along.2 next first) later (keeps start along.1 first)
    rw [markedCons first]
    split at after <;> simp_all

theorem foldTally [DecidableEq κ] (events : List κ) (tally : κ → Nat) (event : κ) :
    events.foldl (fun tally e => Function.update tally e (tally e + 1)) tally event = tally event + events.count event := by
  induction events generalizing tally with
  | nil => rfl
  | cons e rest ih =>
    rw [foldl_cons,ih,count_cons]
    by_cases same : e = event
    · subst same
      rw [Function.update_self,beq_self_eq_true,if_pos rfl]
      omega
    · rw [Function.update_of_ne (Ne.symm same),if_neg (by simpa using same)]
      rfl

/-- An event that is marked at most once is done exactly if it has been marked. -/
theorem markedCount [DecidableEq κ] {m d : σ → κ → Bool} (keeps : ∀ {s event next}, I s → ok s event → step s event = some next → I next)
    (before : ∀ {s event}, m s event = true → d s event = false)
    (own : ∀ {s event next}, I s → ok s event → step s event = some next → d next event = (m s event || d s event))
    (others : ∀ {s event next other}, step s event = some next → other ≠ event → d next other = d s other)
    {s final events} (start : I s) (along : Along step ok s events) (ran : run step s events = some final) (new : ∀ event, d s event = false)
    (event : κ) : (marked step m s events).count event = (d final event).toNat := by
  have counted : (fun e => (d final e).toNat) = _ :=
    runFolds (f := fun tally e => Function.update tally e (tally e + 1)) (m := m) (v := fun s e => (d s e).toNat) keeps
      (fun {s e next} holds fine stepped => ?_) start along ran
  · have here := congrFun counted event
    rw [foldTally] at here
    simpa [new event] using here.symm
  funext other
  by_cases same : other = e
  · subst same
    rw [own holds fine stepped]
    cases marks : m s other with
    | true => simp [before marks]
    | false => simp
  · rw [others stepped same]
    split
    · rw [Function.update_of_ne same]
    · rfl

end MaxIOFS.Runs
