import MaxIOFS.Runs

/-! Calls that run side by side over a shared state. Each has a point it is at; one turn of a call
reads and writes the shared state and goes to its next point, and a call that waits or has
returned takes no turn. -/
namespace MaxIOFS.Threads
open Runs

structure World (σ π : Type) where
  shared : σ
  point : Nat → π

variable {σ π : Type}

abbrev Turn (σ π : Type) := Nat → π → σ → Option (π × σ)

def move (w : World σ π) (i : Nat) (r : π × σ) : World σ π := ⟨r.2, Function.update w.point i r.1⟩

def step (turn : Turn σ π) (w : World σ π) (i : Nat) : Option (World σ π) := (turn i (w.point i) w.shared).map (move w i)

theorem stepTurn {turn} {w next : World σ π} {i} (stepped : step turn w i = some next) :
    ∃ p s, turn i (w.point i) w.shared = some (p, s) ∧ next = move w i (p, s) := by
  obtain ⟨r,taken,rfl⟩ := Option.map_eq_some_iff.mp stepped
  exact ⟨r.1,r.2,taken,rfl⟩

@[simp] theorem pointMove (w : World σ π) (i : Nat) (r : π × σ) : (move w i r).point i = r.1 := Function.update_self ..

theorem pointOther (w : World σ π) {i j} (r : π × σ) (other : j ≠ i) : (move w i r).point j = w.point j := Function.update_of_ne other _ _

/-- What holds of the shared state and of every call's point, if a turn keeps it for the call
that takes it and for all others. -/
theorem moveAll {P : σ → Nat → π → Prop} {w i r} (own : P r.2 i r.1)
    (others : ∀ j, j ≠ i → P w.shared j (w.point j) → P r.2 j (w.point j)) (before : ∀ j, P w.shared j (w.point j)) (j : Nat) :
    P (move w i r).shared j ((move w i r).point j) := by
  by_cases same : j = i
  · subst same
    rw [pointMove]
    exact own
  · rw [pointOther w r same]
    exact others j same (before j)

def Idle (n : Nat) (p : π) (w : World σ π) : Prop := ∀ j, n ≤ j → w.point j = p

theorem stepIdle {turn n i p} {w next : World σ π} (idle : Idle n p w) (few : i < n) (stepped : step turn w i = some next) : Idle n p next := by
  obtain ⟨q,s,_,rfl⟩ := stepTurn stepped
  intro j many
  exact (pointOther w (q, s) (by omega)).trans (idle j many)

theorem runIdle {turn n p} {w last : World σ π} {events} (idle : Idle n p w)
    (few : ∀ i ∈ events, i < n) (ran : run (step turn) w events = some last) : Idle n p last :=
  runKeeps stepIdle idle (alongOf few w) ran

theorem allPoints {n p} {w : World σ π} {Q : π → Prop} (idle : Idle n p w) (rest : Q p) (first : ∀ j < n, Q (w.point j)) (j : Nat) :
    Q (w.point j) := by
  by_cases few : j < n
  · exact first j few
  · rw [idle j (Nat.le_of_not_lt few)]
    exact rest

end MaxIOFS.Threads
