import MaxIOFS.Effects

/-! A call cut at the points where others may come between. At a point the call makes one action
and goes on to the point the action ends in; where an error leads is a matter of the point. -/
namespace MaxIOFS.Turns
open Effects

structure Cut (σ ε α π : Type) where
  act : π → Action σ ε π
  failed : π → ε → π
  answer : π → Option (Except ε α)

variable {σ ε α π : Type}

def Cut.turn (cut : Cut σ ε α π) (p : π) (s : σ) : π × σ :=
  match cut.act p s with
  | (.ok next, s') => (next, s')
  | (.error e, s') => (cut.failed p e, s')

structure Cut.Means (cut : Cut σ ε α π) (rest : π → Action σ ε α) : Prop where
  answered : ∀ {p r}, cut.answer p = some r → ∀ s, rest p s = (r, s)
  turns : ∀ {p}, cut.answer p = none → ∀ s, rest p s = rest (cut.turn p s).1 (cut.turn p s).2

section
variable {cut : Cut σ ε α π} {p : π} {s : σ}

theorem turnSpec {P} (h : wp (cut.act p) P (fun e => P (cut.failed p e)) s) : P (cut.turn p s).1 (cut.turn p s).2 := by
  unfold wp at h
  unfold Cut.turn
  rcases result : cut.act p s with ⟨_ | _,_⟩
  · rw [result] at h
    exact h
  · rw [result] at h
    exact h

theorem turnsThrough {β} {rest : π → Action σ ε α} {m} {k : β → π} (acts : cut.act p = m >>= fun b => pure (k b))
    (left : rest p s = match m s with | (.ok b, s') => rest (k b) s' | (.error e, s') => rest (cut.failed p e) s') :
    rest p s = rest (cut.turn p s).1 (cut.turn p s).2 := by
  rw [left,Cut.turn,acts,thenEq]
  rcases m s with ⟨_ | _,_⟩ <;> rfl

theorem turnsOn {β} {rest : π → Action σ ε α} {m} {k : β → π} (acts : cut.act p = m >>= fun b => pure (k b))
    (left : rest p s = (m >>= fun b => rest (k b)) s) (refused : ∀ e s', rest (cut.failed p e) s' = (.error e, s')) :
    rest p s = rest (cut.turn p s).1 (cut.turn p s).2 := by
  refine turnsThrough acts (left.trans ?_)
  rw [thenEq]
  rcases m s with ⟨e | _,s'⟩
  · exact (refused e s').symm
  · rfl

end

end MaxIOFS.Turns
