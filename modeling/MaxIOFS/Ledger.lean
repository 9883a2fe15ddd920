import Mathlib

/-! The history of one key that keeps versions: a set of versions by identifier, and the
record the key currently answers with. A record knows its identifier, or that it has none,
and carries a mark when it is the latest version. -/
namespace MaxIOFS.Ledger
open Function

structure Shape (ι ρ : Type) where
  id : ρ → Option ι
  latest : ρ → Bool
  unmark : ρ → ρ
  unmarkId : ∀ r, id (unmark r) = id r
  unmarkLatest : ∀ r, latest (unmark r) = false

@[ext] structure History (ι ρ : Type) where
  current : Option ρ
  versions : ι → Option ρ

variable {ι ρ : Type}

def vacant : History ι ρ := ⟨none, fun _ => none⟩

namespace History

def clear (l : History ι ρ) : History ι ρ := { l with current := none }

section
variable (shape : Shape ι ρ)

def Named (l : History ι ρ) : Prop := ∀ i r, l.versions i = some r → shape.id r = some i

def Pointed (l : History ι ρ) : Prop := ∀ r i, l.current = some r → shape.id r = some i → l.versions i = some r ∧ shape.latest r = true

structure Consistent (l : History ι ρ) : Prop where
  named : l.Named shape
  pointed : l.Pointed shape
  marked : ∀ i r, l.versions i = some r → shape.latest r = true → l.current = some r
  covered : ∀ i r, l.versions i = some r → ∃ c, l.current = some c ∧ shape.id c ≠ none

end

variable {shape : Shape ι ρ} {l : History ι ρ} {i : ι} {r old new : ρ}

theorem consistentVacant : (vacant : History ι ρ).Consistent shape := by
  constructor <;> intro _ _ found <;> simp [vacant] at found

theorem Consistent.only {j c} (consistent : l.Consistent shape) (first : l.versions i = some r)
    (second : l.versions j = some c) (marked : shape.latest r = true) (also : shape.latest c = true) : j = i := by
  have same := (consistent.marked i r first marked).symm.trans (consistent.marked j c second also)
  cases same
  exact Option.some.inj ((consistent.named j r second).symm.trans (consistent.named i r first))

theorem pointedClear : l.clear.Pointed shape := fun _ _ current => by simp [clear] at current

theorem consistentClear (named : l.Named shape) (empty : ∀ j, l.versions j = none) : l.clear.Consistent shape := by
  refine ⟨named,pointedClear,?_,?_⟩
  · intro j c stored
    change l.versions j = some c at stored
    rw [empty] at stored
    contradiction
  · intro j c stored
    change l.versions j = some c at stored
    rw [empty] at stored
    contradiction

variable [DecidableEq ι]

def put (shape : Shape ι ρ) (l : History ι ρ) (r : ρ) : History ι ρ :=
  match shape.id r with
  | none => { l with current := some r }
  | some i => ⟨if shape.latest r then some r else l.current, update l.versions i (some r)⟩

def insert (shape : Shape ι ρ) (l : History ι ρ) (i : ι) (r : ρ) : History ι ρ :=
  ⟨some r, fun j => if j = i then some r else (l.versions j).map shape.unmark⟩

def remove (l : History ι ρ) (i : ι) : History ι ρ := { l with versions := update l.versions i none }

theorem namedInsert (named : l.Named shape) (id : shape.id r = some i) : (l.insert shape i r).Named shape := by
  intro j c found
  unfold insert at found
  dsimp only at found
  split at found
  · rename_i here
    cases found
    rw [here,id]
  · obtain ⟨old,stored,rfl⟩ := Option.map_eq_some_iff.mp found
    rw [shape.unmarkId,named j old stored]

theorem pointedInsert (id : shape.id r = some i) (latest : shape.latest r = true) : (l.insert shape i r).Pointed shape := by
  intro c j current here
  cases current
  rw [id] at here
  cases here
  exact ⟨by simp [insert],latest⟩

theorem consistentInsert (named : l.Named shape) (id : shape.id r = some i) (latest : shape.latest r = true) :
    (l.insert shape i r).Consistent shape := by
  refine ⟨namedInsert named id,pointedInsert id latest,?_,?_⟩
  · intro j c found marked
    unfold insert at found
    dsimp only at found
    split at found
    · exact found
    obtain ⟨_,_,rfl⟩ := Option.map_eq_some_iff.mp found
    rw [shape.unmarkLatest] at marked
    contradiction
  · intro j c _
    exact ⟨r,rfl,by rw [id]; simp⟩

theorem putVersion (id : shape.id new = some i) : l.put shape new =
    ⟨if shape.latest new then some new else l.current,update l.versions i (some new)⟩ := by
  unfold put
  rw [id]

theorem putPlain (id : shape.id new = none) : l.put shape new = { l with current := some new } := by
  unfold put
  rw [id]

theorem namedPut (named : l.Named shape) : (l.put shape new).Named shape := by
  cases id : shape.id new with
  | none => rw [putPlain id]; exact named
  | some i =>
    rw [putVersion id]
    intro j c found
    dsimp only at found
    by_cases here : j = i
    · subst here
      rw [update_self] at found
      cases found
      exact id
    · rw [update_of_ne here] at found
      exact named j c found

theorem pointedPlain (id : shape.id new = none) : (l.put shape new).Pointed shape := by
  rw [putPlain id]
  intro c j current here
  cases current
  rw [id] at here
  contradiction

theorem pointedEdit (pointed : l.Pointed shape) (found : l.versions i = some old) (id : shape.id new = some i)
    (same : shape.latest new = shape.latest old) : (l.put shape new).Pointed shape := by
  rw [putVersion id]
  intro c j current here
  dsimp only at current ⊢
  split at current
  · rename_i latest
    cases current
    rw [id] at here
    cases here
    exact ⟨by simp,latest⟩
  · rename_i older
    obtain ⟨stored,marked⟩ := pointed c j current here
    have other : j ≠ i := by
      rintro rfl
      rw [found] at stored
      cases stored
      exact older (same.trans marked)
    exact ⟨by rw [update_of_ne other]; exact stored,marked⟩

theorem consistentEdit (consistent : l.Consistent shape) (found : l.versions i = some old) (id : shape.id new = some i)
    (same : shape.latest new = shape.latest old) : (l.put shape new).Consistent shape := by
  refine ⟨namedPut consistent.named,pointedEdit consistent.pointed found id same,?_,?_⟩ <;> rw [putVersion id]
  · intro j c stored marked
    dsimp only at stored ⊢
    by_cases here : j = i
    · subst here
      rw [update_self] at stored
      cases stored
      rw [if_pos marked]
    · rw [update_of_ne here] at stored
      rw [if_neg]
      · exact consistent.marked j c stored marked
      · intro latest
        exact here (consistent.only found stored (same ▸ latest) marked)
  · intro j c stored
    dsimp only at stored ⊢
    split
    · exact ⟨new,rfl,by rw [id]; simp⟩
    by_cases here : j = i
    · subst here
      exact consistent.covered j old found
    · rw [update_of_ne here] at stored
      exact consistent.covered j c stored

theorem consistentPlain (consistent : l.Consistent shape) (id : shape.id new = none)
    (free : ∀ c, l.current = some c → shape.id c = none) : (l.put shape new).Consistent shape := by
  have noVersion j c : l.versions j ≠ some c := by
    intro stored
    obtain ⟨m,current,version⟩ := consistent.covered j c stored
    exact version (free m current)
  refine ⟨namedPut consistent.named,pointedPlain id,?_,?_⟩ <;> rw [putPlain id]
  · exact fun j c stored => (noVersion j c stored).elim
  · exact fun j c stored => (noVersion j c stored).elim

theorem removed {j c} (found : (l.remove i).versions j = some c) : j ≠ i ∧ l.versions j = some c := by
  unfold remove at found
  dsimp only at found
  by_cases here : j = i
  · subst here
    simp at found
  · rw [update_of_ne here] at found
    exact ⟨here,found⟩

theorem namedRemove (named : l.Named shape) : (l.remove i).Named shape := fun j c found => named j c (removed found).2

theorem pointedRemove (pointed : l.Pointed shape) (found : l.versions i = some r) (older : shape.latest r = false) :
    (l.remove i).Pointed shape := by
  intro c j current here
  obtain ⟨stored,marked⟩ := pointed c j current here
  have other : j ≠ i := by
    rintro rfl
    rw [found] at stored
    cases stored
    rw [older] at marked
    contradiction
  exact ⟨by unfold remove; dsimp only; rw [update_of_ne other]; exact stored,marked⟩

theorem consistentRemove (consistent : l.Consistent shape) (found : l.versions i = some r)
    (older : shape.latest r = false) : (l.remove i).Consistent shape :=
  ⟨namedRemove consistent.named,pointedRemove consistent.pointed found older,
    fun j c stored marked => consistent.marked j c (removed stored).2 marked,
    fun j c stored => consistent.covered j c (removed stored).2⟩

end History

end MaxIOFS.Ledger
