import Mathlib

/-! Calls that read and write a state and end in a value or an error. An error does
not undo the writes before it: the state is returned beside the result either way.
`wp` is the weakest precondition of such a call, with one postcondition for a value
and one for an error; `Keeps` is the invariant rule built on it. -/
namespace MaxIOFS.Effects

def Action (σ ε α : Type) := σ → Except ε α × σ

variable {σ ε δ α β : Type}

instance : Monad (Action σ ε) where
  pure a := fun s => (.ok a, s)
  bind m next := fun s =>
    match m s with
    | (.ok a, s') => next a s'
    | (.error e, s') => (.error e, s')

theorem toOptionIff {x : Except ε α} {a} : x.toOption = some a ↔ x = .ok a := by
  cases x <;> simp [Except.toOption]

theorem thenEq (m : Action σ ε α) (next : α → Action σ ε β) (s : σ) : (m >>= next) s = match m s with
    | (.ok a, s') => next a s'
    | (.error e, s') => (.error e, s') := rfl

theorem thenAssoc {γ} (m : Action σ ε α) (f : α → Action σ ε β) (g : β → Action σ ε γ) : (m >>= f) >>= g = m >>= fun a => f a >>= g := by
  funext s
  rw [thenEq,thenEq,thenEq]
  rcases m s with ⟨_ | _,_⟩ <;> rfl

def observe (read : σ → Except ε α) : Action σ ε α := fun s => (read s, s)
def gets (read : σ → α) : Action σ ε α := fun s => (.ok (read s), s)
def update (write : σ → σ) : Action σ ε Unit := fun s => (.ok (), write s)
def fail (e : ε) : Action σ ε α := fun s => (.error e, s)
def check (holds : Bool) (e : ε) : Action σ ε Unit := if holds then pure () else fail e

def attempt (m : Action σ ε α) : Action σ δ (Except ε α) := fun s => (.ok (m s).1, (m s).2)

theorem attemptThen (m : Action σ δ α) (next : Except δ α → Action σ ε β) (s : σ) :
    (attempt m >>= next) s = match m s with | (.ok a, s') => next (.ok a) s' | (.error e, s') => next (.error e) s' := by
  change next (m s).1 (m s).2 = _
  rcases m s with ⟨_ | _,_⟩ <;> rfl

def ignore (m : Action σ ε α) : Action σ δ Unit := fun s => (.ok (), (m s).2)
def mapError (f : ε → δ) (m : Action σ ε α) : Action σ δ α := fun s =>
  match m s with
  | (.ok a, s') => (.ok a, s')
  | (.error e, s') => (.error (f e), s')

def within {τ : Type} (get : τ → σ) (put : σ → τ → τ) (m : Action σ ε α) : Action τ ε α := fun t =>
  ((m (get t)).1, put (m (get t)).2 t)

def each (items : List β) (body : β → Action σ ε Unit) : Action σ ε Unit :=
  match items with
  | [] => pure ()
  | item :: rest => do
    body item
    each rest body

def wp (m : Action σ ε α) (Q : α → σ → Prop) (E : ε → σ → Prop) (s : σ) : Prop :=
  match m s with
  | (.ok a, s') => Q a s'
  | (.error e, s') => E e s'

section
variable {Q Q' : α → σ → Prop} {R : β → σ → Prop} {E E' : ε → σ → Prop} {s : σ} {m : Action σ ε α}

theorem wpMono (h : wp m Q E s) (value : ∀ a s', Q a s' → Q' a s') (error : ∀ e s', E e s' → E' e s') : wp m Q' E' s := by
  unfold wp at h ⊢
  split <;> rename_i result
  · rw [result] at h
    exact value _ _ h
  · rw [result] at h
    exact error _ _ h

theorem wpLax (h : wp m Q E s) (value : ∀ a s', Q a s' → Q' a s') : wp m Q' (fun _ _ => True) s := wpMono h value fun _ _ _ => trivial

theorem wpSure (h : wp m Q (fun _ _ => False) s) (value : ∀ a s', Q a s' → Q' a s') : wp m Q' E s := wpMono h value fun _ _ => False.elim

theorem wpValue (h : wp m Q E s) (ok : (m s).1.isOk = true) : ∃ a, Q a (m s).2 := by
  unfold wp at h
  split at h <;> rename_i result <;> rw [result] at ok ⊢
  · exact ⟨_,h⟩
  · simp [Except.toBool] at ok

theorem wpAnd {Q' E'} (h : wp m Q E s) (h' : wp m Q' E' s) : wp m (fun a t => Q a t ∧ Q' a t) (fun e t => E e t ∧ E' e t) s := by
  unfold wp at h h' ⊢
  split <;> rename_i result <;> rw [result] at h h' <;> exact ⟨h,h'⟩

theorem wpState {P} (h : wp m (fun _ => P) (fun _ => P) s) : P (m s).2 := by
  unfold wp at h
  split at h <;> rename_i result <;> rw [result] <;> exact h

theorem wpOfState {P} (h : P (m s).2) : wp m (fun _ => P) (fun _ => P) s := by
  unfold wp
  split <;> rename_i result <;> rw [result] at h <;> exact h

theorem wpResult {x} (h : wp m (fun a _ => .ok a = x) (fun e _ => .error e = x) s) : (m s).1 = x := by
  unfold wp at h
  split at h <;> rename_i result <;> rw [result] <;> exact h

theorem wpOk {a s'} (h : wp m Q E s) (returned : m s = (.ok a, s')) : Q a s' := by
  unfold wp at h
  rw [returned] at h
  exact h

theorem wpEq {a s'} : wp m (fun b t => b = a ∧ t = s') (fun _ _ => False) s ↔ m s = (.ok a, s') := by
  unfold wp
  cases m s with
  | mk result t => cases result <;> simp

theorem wpIs {a s'} (outcome : m s = (.ok a, s')) (value : Q a s') : wp m Q E s := by
  unfold wp
  rw [outcome]
  exact value

@[simp] theorem wpPure (a : α) : wp (pure a : Action σ ε α) Q E s ↔ Q a s := Iff.rfl

@[simp] theorem wpBind (next : α → Action σ ε β) : wp (m >>= next) R E s ↔ wp m (fun a => wp (next a) R E) E s := by
  unfold wp
  rw [thenEq]
  cases m s with
  | mk result s' => cases result <;> exact Iff.rfl

@[simp] theorem wpGets (read : σ → α) : wp (gets read : Action σ ε α) Q E s ↔ Q (read s) s := Iff.rfl

theorem wpObserve (read : σ → Except ε α) :
    wp (observe read) Q E s ↔ match read s with | .ok a => Q a s | .error e => E e s := by
  unfold wp observe
  cases read s <;> exact Iff.rfl

@[simp] theorem wpUpdate (write : σ → σ) {Q} : wp (update write : Action σ ε Unit) Q E s ↔ Q () (write s) := Iff.rfl

@[simp] theorem wpFail (e : ε) : wp (fail e : Action σ ε α) Q E s ↔ E e s := Iff.rfl

@[simp] theorem wpIte (c : Prop) [Decidable c] (n : Action σ ε α) : wp (if c then m else n) Q E s ↔ (c → wp m Q E s) ∧ (¬ c → wp n Q E s) := by
  by_cases h : c <;> simp [h]

@[simp] theorem wpCheck (holds : Bool) (e : ε) {Q} : wp (check holds e) Q E s ↔ (holds = true → Q () s) ∧ (holds = false → E e s) := by
  cases holds <;> simp [check]

@[simp] theorem wpAttempt {Q : Except ε α → σ → Prop} {E : δ → σ → Prop} : wp (attempt m) Q E s ↔
    wp m (fun a => Q (.ok a)) (fun e => Q (.error e)) s := by
  unfold wp attempt
  cases m s with
  | mk result s' => cases result <;> exact Iff.rfl

@[simp] theorem wpIgnore {Q : Unit → σ → Prop} {E : δ → σ → Prop} : wp (ignore m) Q E s ↔ wp m (fun _ => Q ()) (fun _ => Q ()) s := by
  unfold wp ignore
  cases m s with
  | mk result s' => cases result <;> exact Iff.rfl

@[simp] theorem wpMapError (f : ε → δ) {E} : wp (mapError f m) Q E s ↔ wp m Q (fun e => E (f e)) s := by
  unfold wp mapError
  cases m s with
  | mk result s' => cases result <;> exact Iff.rfl

@[simp] theorem wpWithin {τ} (get : τ → σ) (put : σ → τ → τ) {Q E} {t} :
    wp (within get put m) Q E t ↔ wp m (fun a s' => Q a (put s' t)) (fun e s' => E e (put s' t)) (get t) := by
  unfold wp within
  cases m (get t) with
  | mk result s' => cases result <;> exact Iff.rfl

end

theorem wpEach {items} {body : β → Action σ ε Unit} {I E s} (turn : ∀ item ∈ items, ∀ s, I s → wp (body item) (fun _ => I) E s) (start : I s) :
    wp (each items body) (fun _ => I) E s := by
  induction items generalizing s with
  | nil => exact start
  | cons item rest ih =>
    rw [each,wpBind]
    refine wpMono (turn item (by simp) s start) ?_ (fun _ _ h => h)
    intro _ s' kept
    exact ih (fun i mem => turn i (List.mem_cons_of_mem _ mem)) kept

def Keeps (I : σ → Prop) (m : Action σ ε α) : Prop := ∀ s, I s → wp m (fun _ => I) (fun _ => I) s

section
variable {I : σ → Prop} {m : Action σ ε α}

theorem Keeps.pure (a : α) : Keeps I (Pure.pure a : Action σ ε α) := fun _ h => h

theorem Keeps.bind {next : α → Action σ ε β} (first : Keeps I m) (rest : ∀ a, Keeps I (next a)) : Keeps I (m >>= next) := by
  intro s start
  rw [wpBind]
  exact wpMono (first s start) rest (fun _ _ kept => kept)

theorem Keeps.observe (read : σ → Except ε α) : Keeps I (observe read) := by
  intro s start
  rw [wpObserve]
  cases read s <;> exact start

theorem Keeps.gets (read : σ → α) : Keeps I (gets read : Action σ ε α) := fun _ h => h

theorem Keeps.fail (e : ε) : Keeps I (fail e : Action σ ε α) := fun _ h => h

theorem Keeps.check (holds : Bool) (e : ε) : Keeps I (check holds e) := by
  intro s start
  simp [start]

theorem Keeps.update {write} (step : ∀ s, I s → I (write s)) : Keeps I (update write : Action σ ε Unit) := fun s start => step s start

theorem Keeps.ite {c} [Decidable c] {n} (yes : c → Keeps I m) (no : ¬ c → Keeps I n) : Keeps I (if c then m else n) := by
  intro s start
  rw [wpIte]
  exact ⟨fun h => yes h s start,fun h => no h s start⟩

theorem Keeps.attempt (h : Keeps I m) : Keeps I (attempt m : Action σ δ (Except ε α)) := by
  intro s start
  rw [wpAttempt]
  exact h s start

theorem Keeps.ignore (h : Keeps I m) : Keeps I (ignore m : Action σ δ Unit) := by
  intro s start
  rw [wpIgnore]
  exact h s start

theorem Keeps.mapError (f : ε → δ) (h : Keeps I m) : Keeps I (mapError f m) := by
  intro s start
  rw [wpMapError]
  exact h s start

theorem Keeps.each {items} {body : β → Action σ ε Unit} (turn : ∀ item ∈ items, Keeps I (body item)) : Keeps I (each items body) :=
  fun _ start => wpEach turn start

def Surely (I : σ → Prop) (m : Action σ ε α) : Prop := ∀ s, I s → wp m (fun _ => I) (fun _ _ => False) s

theorem Surely.pure (a : α) : Surely I (Pure.pure a : Action σ ε α) := fun _ h => h

theorem Surely.gets (read : σ → α) : Surely I (gets read : Action σ ε α) := fun _ h => h

theorem Surely.bind {next : α → Action σ ε β} (first : Surely I m) (rest : ∀ a, Surely I (next a)) : Surely I (m >>= next) := by
  intro s start
  rw [wpBind]
  exact wpMono (first s start) rest (fun _ _ never => never)

theorem Surely.update {write} (step : ∀ s, I s → I (write s)) : Surely I (update write : Action σ ε Unit) := fun s start => step s start

theorem Surely.ite {c} [Decidable c] {n} (yes : c → Surely I m) (no : ¬ c → Surely I n) : Surely I (if c then m else n) := by
  intro s start
  rw [wpIte]
  exact ⟨fun h => yes h s start,fun h => no h s start⟩

theorem Surely.ignore (h : Keeps I m) : Surely I (ignore m : Action σ δ Unit) := by
  intro s start
  rw [wpIgnore]
  exact h s start

theorem Surely.each {items} {body : β → Action σ ε Unit} (turn : ∀ item ∈ items, Surely I (body item)) : Surely I (each items body) :=
  fun _ start => wpEach turn start

theorem Keeps.after (h : Keeps I m) {s} (start : I s) : I (m s).2 := wpState (h s start)

end

def Agrees (R : σ → σ → Prop) (m : Action σ ε α) : Prop := ∀ s t, R s t → (m s).1 = (m t).1 ∧ R (m s).2 (m t).2

section
variable {R : σ → σ → Prop} {m : Action σ ε α}

theorem Agrees.pure (a : α) : Agrees R (pure a : Action σ ε α) := fun _ _ related => ⟨rfl,related⟩

theorem Agrees.fail (e : ε) : Agrees R (fail e : Action σ ε α) := fun _ _ related => ⟨rfl,related⟩

theorem Agrees.observe {read : σ → Except ε α} (same : ∀ s t, R s t → read s = read t) : Agrees R (observe read) :=
  fun s t related => ⟨same s t related,related⟩

theorem Agrees.gets {read} (same : ∀ s t, R s t → read s = read t) : Agrees R (gets read : Action σ ε α) :=
  fun s t related => ⟨congrArg Except.ok (same s t related),related⟩

theorem Agrees.bind {next : α → Action σ ε β} (first : Agrees R m) (rest : ∀ a, Agrees R (next a)) : Agrees R (m >>= next) := by
  intro s t related
  obtain ⟨same,still⟩ := first s t related
  rw [thenEq,thenEq]
  rcases first : m s with ⟨_ | a,s'⟩ <;> rcases second : m t with ⟨_ | _,t'⟩ <;> rw [first,second] at same still
  · exact ⟨congrArg Except.error (Except.error.inj same),still⟩
  · contradiction
  · contradiction
  · cases same
    exact rest a s' t' still

theorem Agrees.getsBind {read} {P : α → Prop} {next : α → Action σ ε β} (same : ∀ s t, R s t → read s = read t ∧ P (read s))
    (rest : ∀ a, P a → Agrees R (next a)) : Agrees R (Effects.gets read >>= next) := by
  intro s t related
  obtain ⟨equal,known⟩ := same s t related
  have later := rest (read s) known s t related
  change (next (read s) s).1 = (next (read t) t).1 ∧ R (next (read s) s).2 (next (read t) t).2
  rw [← equal]
  exact later

theorem Agrees.check (holds : Bool) (e : ε) : Agrees R (check holds e) := by
  unfold Effects.check
  split
  · exact .pure _
  · exact .fail _

theorem Agrees.mapError {f : ε → δ} (h : Agrees R m) : Agrees R (mapError f m) := by
  intro s t related
  obtain ⟨same,still⟩ := h s t related
  unfold Effects.mapError
  rcases first : m s with ⟨_ | _,_⟩ <;> rcases second : m t with ⟨_ | _,_⟩ <;> rw [first,second] at same still
  · exact ⟨congrArg (fun e => Except.error (f e)) (Except.error.inj same),still⟩
  · contradiction
  · contradiction
  · exact ⟨congrArg Except.ok (Except.ok.inj same),still⟩

theorem Agrees.within {τ S get} {put : σ → τ → τ} (h : Agrees R m) (enter : ∀ s t, S s t → R (get s) (get t))
    (leave : ∀ s t a b, S s t → R a b → S (put a s) (put b t)) : Agrees S (within get put m) := by
  intro s t related
  obtain ⟨same,still⟩ := h _ _ (enter s t related)
  exact ⟨same,leave s t _ _ related still⟩

end

end MaxIOFS.Effects
