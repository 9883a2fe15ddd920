import MaxIOFS.ByteString

/-! The rate limit of the S3 API: a bucket of tokens for each key, refilled as time passes and capped
at one second's worth; idle buckets are removed. -/
namespace MaxIOFS.RateLimit
open ByteString Function

structure Request where
  (authorization remoteAddr : Bytes)

structure Bucket (α : Type) where
  (tokens lastFill : α)

inductive Event (α : Type) where
  | request (now : α) (r : Request)
  | cleanup (now : α)

def Event.time {α : Type} : Event α → α
  | .request now _ | .cleanup now => now

def bucketKey (r : Request) : Bytes := (if r.authorization = [] then r.remoteAddr else r.authorization).take 64

section
variable {α : Type} [Field α] [LinearOrder α] (rate : Nat)

/-- The tokens of a key after a refill; a new bucket is full. -/
def level (now : α) (found : Option (Bucket α)) : α :=
  let b := found.getD ⟨rate, now⟩
  min (b.tokens + (now - b.lastFill) * rate) rate

def allow (now : α) (key : Bytes) (buckets : Bytes → Option (Bucket α)) : Bool × (Bytes → Option (Bucket α)) :=
  if rate = 0 then (true, buckets) else
    let tokens := level rate now (buckets key)
    if tokens < 1 then (false, update buckets key (some ⟨tokens, now⟩)) else (true, update buckets key (some ⟨tokens - 1, now⟩))

def cleanup (now : α) (buckets : Bytes → Option (Bucket α)) : Bytes → Option (Bucket α) := fun key =>
  (buckets key).filter fun b => ¬ 120 < now - b.lastFill

/-- The requests that are let through, with their times. -/
def passed (buckets : Bytes → Option (Bucket α)) : List (Event α) → List (α × Request)
  | [] => []
  | .request now r :: rest =>
    let next := allow rate now (bucketKey r) buckets
    if next.1 then (now, r) :: passed next.2 rest else passed next.2 rest
  | .cleanup now :: rest => passed (cleanup now buckets) rest

def between (client : Request → Prop) [DecidablePred client] (a b : α) (requests : List (α × Request)) : Nat :=
  requests.countP fun p => decide (client p.2 ∧ a ≤ p.1 ∧ p.1 ≤ b)

/-- What may still pass between the times `a` and `b` from the time `t` on. -/
def bound (a b t : α) (found : Option (Bucket α)) : α := if t ≤ b then level rate (max t a) found + rate * (b - max t a) else 0

structure Fit (t : α) (found : Option (Bucket α)) : Prop where
  nonneg : ∀ b ∈ found, 0 ≤ b.tokens
  filled : ∀ b ∈ found, b.lastFill ≤ t

theorem cleanupFit {t now : α} {key} {buckets : Bytes → Option (Bucket α)} (later : t ≤ now) (fit : Fit t (buckets key)) :
    Fit now (cleanup now buckets key) := by
  have old : ∀ {b}, b ∈ cleanup now buckets key → b ∈ buckets key := fun mem => (Option.filter_eq_some_iff.mp mem).1
  exact ⟨fun b mem => fit.nonneg b (old mem),fun b mem => (fit.filled b (old mem)).trans later⟩

theorem fitNow {tokens now : α} (nonneg : 0 ≤ tokens) : Fit now (some ⟨tokens, now⟩) :=
  ⟨by rintro _ ⟨⟩; exact nonneg,by rintro _ ⟨⟩; exact le_refl now⟩

variable [IsStrictOrderedRing α] {rate} {t t' : α} {found : Option (Bucket α)}

theorem levelNonneg (fit : Fit t found) : 0 ≤ level rate t found := by
  cases found with
  | none => simp [level]
  | some b =>
    have waited := sub_nonneg.mpr (fit.filled b rfl)
    exact le_min (add_nonneg (fit.nonneg b rfl) (mul_nonneg waited (Nat.cast_nonneg rate))) (Nat.cast_nonneg rate)

theorem levelLater (later : t ≤ t') : level rate t' found ≤ level rate t found + rate * (t' - t) := by
  have grown : 0 ≤ (rate : α) * (t' - t) := mul_nonneg (Nat.cast_nonneg rate) (sub_nonneg.mpr later)
  cases found with
  | none =>
    simp only [level,Option.getD_none,sub_self,zero_mul,add_zero,min_self]
    linarith
  | some b =>
    simp only [level,Option.getD_some]
    rw [← min_add_add_right]
    apply min_le_min <;> linarith

/-- A bucket that holds no more than the refill at one time holds no more later. -/
theorem levelTaken {k} (less : k ≤ level rate t found) : level rate t' (some ⟨k, t⟩) ≤ level rate t' found := by
  cases found with
  | none =>
    simp only [level,Option.getD_none,sub_self,zero_mul,add_zero,min_self]
    exact min_le_right _ _
  | some b =>
    simp only [level,Option.getD_some,le_min_iff] at less ⊢
    exact ⟨(min_le_left _ _).trans (by linarith [less.1]),min_le_right _ _⟩

section
variable {now : α} {key : Bytes} {buckets : Bytes → Option (Bucket α)}

theorem cleanupKept (fit : Fit t (buckets key)) (later : now ≤ t') : level rate t' (cleanup now buckets key) ≤ level rate t' (buckets key) := by
  unfold cleanup
  cases found : buckets key with
  | none => exact le_refl _
  | some b =>
    rw [Option.filter_some]
    split
    · exact le_refl _
    rename_i idle
    -- the bucket that is removed is full again
    have tokens := fit.nonneg b found
    have full : (rate : α) * 1 ≤ rate * (t' - b.lastFill) := by
      refine mul_le_mul_of_nonneg_left ?_ (Nat.cast_nonneg rate)
      simp only [decide_not,Bool.not_eq_true',decide_eq_false_iff_not,not_not] at idle
      linarith
    simp only [level,Option.getD_none,Option.getD_some,sub_self,zero_mul,add_zero,min_self,le_min_iff]
    exact ⟨by linarith,le_refl _⟩

theorem allowNext (t' : α) (other : Bytes) (positive : 1 ≤ rate) (later : t ≤ now) (fit : Fit t (buckets key)) :
    Fit now ((allow rate now other buckets).2 key) ∧ level rate t' ((allow rate now other buckets).2 key) ≤ level rate t' (buckets key) ∧
    (other = key → (allow rate now other buckets).1 = true →
      level rate now ((allow rate now other buckets).2 key) ≤ level rate now (buckets key) - 1) := by
  have fit : Fit now (buckets key) := ⟨fit.nonneg,fun b mem => (fit.filled b mem).trans later⟩
  by_cases same : other = key
  · subst same
    unfold allow
    rw [if_neg (by omega)]
    by_cases short : level rate now (buckets other) < 1
    · simp only [if_pos short,update_self]
      exact ⟨fitNow (levelNonneg fit),levelTaken (le_refl _),nofun⟩
    simp only [if_neg short,update_self]
    refine ⟨fitNow (sub_nonneg.mpr (not_lt.mp short)),levelTaken (by linarith),fun _ _ => ?_⟩
    rw [level]
    exact (min_le_left _ _).trans (by simp)
  · have kept : (allow rate now other buckets).2 key = buckets key := by
      unfold allow
      dsimp only
      split
      · rfl
      · split <;> exact update_of_ne (Ne.symm same) _ _
    rw [kept]
    exact ⟨fit,le_refl _,fun here => absurd here same⟩

end

section
variable {a b : α}

theorem boundNonneg (valid : a ≤ b) (fit : Fit t found) : 0 ≤ bound rate a b t found := by
  unfold bound
  split
  · have left : 0 ≤ level rate (max t a) found := levelNonneg ⟨fit.nonneg,fun b mem => (fit.filled b mem).trans (le_max_left _ _)⟩
    exact add_nonneg left (mul_nonneg (Nat.cast_nonneg rate) (sub_nonneg.mpr (max_le ‹_› valid)))
  · exact le_refl 0

/-- An event takes what it lets through off the bound on what passes from then on. -/
theorem boundTaken {now next} {n : Nat} (spent : α) (valid : a ≤ b) (reached : t ≤ now) (fit : Fit t found)
    (taken : level rate (max now a) next ≤ level rate (max now a) found - spent) (inside : spent = 0 ∨ now ≤ b)
    (rest : n ≤ bound rate a b now next) : n + spent ≤ bound rate a b t found := by
  unfold bound at rest
  by_cases early : now ≤ b
  · have later : level rate (max now a) found ≤ _ := levelLater (max_le_max_right a reached)
    rw [if_pos early] at rest
    rw [bound,if_pos (reached.trans early)]
    linarith
  · rw [if_neg early] at rest
    rw [inside.resolve_right early,add_zero]
    exact rest.trans (boundNonneg valid fit)

theorem passedBounded (positive : 1 ≤ rate) (key : Bytes) (valid : a ≤ b) {events} (buckets : Bytes → Option (Bucket α))
    (fit : Fit t (buckets key)) (ordered : events.Pairwise fun e e' => e.time ≤ e'.time) (late : ∀ e ∈ events, t ≤ e.time) :
    (between (bucketKey · = key) a b (passed rate buckets events) : α) ≤ bound rate a b t (buckets key) := by
  induction events generalizing t buckets with
  | nil => exact Nat.cast_zero.trans_le (boundNonneg valid fit)
  | cons e rest ih =>
    obtain ⟨first,sorted⟩ := List.pairwise_cons.mp ordered
    cases e with
    | cleanup now =>
      have reached : t ≤ now := late _ List.mem_cons_self
      have kept := boundTaken 0 valid reached fit ((cleanupKept fit (le_max_left now a)).trans (sub_zero _).ge) (.inl rfl)
        (ih _ (cleanupFit reached fit) sorted first)
      rwa [add_zero] at kept
    | request now r =>
      have reached : t ≤ now := late _ List.mem_cons_self
      obtain ⟨fits,kept,spent⟩ := allowNext (max now a) (bucketKey r) positive reached fit
      have after := ih _ fits sorted first
      simp only [passed]
      by_cases counted : (allow rate now (bucketKey r) buckets).1 = true ∧ bucketKey r = key ∧ a ≤ now ∧ now ≤ b
      · obtain ⟨ok,here,low,high⟩ := counted
        have fewer := boundTaken 1 valid reached fit ((max_eq_left low).symm ▸ spent here ok) (.inr high) after
        rw [if_pos ok,between,List.countP_cons_of_pos (by simp [here,low,high])]
        exact_mod_cast fewer
      · have same := boundTaken 0 valid reached fit (kept.trans (sub_zero _).ge) (.inl rfl) after
        rw [add_zero] at same
        split
        · rename_i ok
          rw [between,List.countP_cons_of_neg (by simpa [ok] using counted)]
          exact same
        · exact same

/-- A client is held to the rate, in every interval of every run, exactly if its requests share a bucket. -/
theorem rateBounded (client : Request → Prop) [DecidablePred client] :
    (∀ rate, 1 ≤ rate → ∀ events : List (Event α), (events.Pairwise fun e e' => e.time ≤ e'.time) → ∀ a T, 0 ≤ T →
      (between client a (a + T) (passed rate (fun _ => none) events) : α) ≤ rate * (T + 1)) ↔ ∀ r r', client r →
      client r' → bucketKey r = bucketKey r' := by
  constructor
  · intro bounded r r' mine mine'
    by_contra apart
    have two := bounded 1 (le_refl 1) [.request 0 r, .request 0 r'] (by simp [Event.time]) 0 0 (le_refl 0)
    simp [passed,allow,level,between,update_of_ne (Ne.symm apart),mine,mine'] at two
  · intro shared rate positive events ordered a T long
    have rates : (0 : α) ≤ rate := Nat.cast_nonneg rate
    obtain ⟨key,own⟩ : ∃ key, ∀ r, client r → bucketKey r = key := by
      by_cases any : ∃ r, client r
      · obtain ⟨r,mine⟩ := any
        exact ⟨_,fun r' mine' => shared r' r mine' mine⟩
      · exact ⟨[],fun r mine => absurd ⟨r,mine⟩ any⟩
    obtain ⟨t,late⟩ : ∃ t, ∀ e ∈ events, t ≤ e.time := by
      cases events with
      | nil => exact ⟨a,nofun⟩
      | cons e rest => exact ⟨e.time,List.forall_mem_cons.mpr ⟨le_refl _,(List.pairwise_cons.mp ordered).1⟩⟩
    have fewer : between client a (a + T) (passed rate (fun _ => none) events) ≤ between (bucketKey · = key) a (a + T) _ :=
      List.countP_mono_left fun p _ counted => by simp_all
    refine (Nat.cast_le.mpr fewer).trans ((passedBounded positive key (le_add_of_nonneg_right long)
      (fun _ => none) ⟨nofun,nofun⟩ ordered late).trans ?_)
    unfold bound
    split
    · have full : level rate (max t a) none ≤ (rate : α) := min_le_right _ _
      have flow : rate * (a + T - max t a) ≤ rate * T := mul_le_mul_of_nonneg_left (by linarith [le_max_right t a]) rates
      linarith
    · exact mul_nonneg rates (by linarith)

end

end

def twoPorts (header : Bytes) : List (Event ℚ) := [.request 0 ⟨header, ascii "10.0.0.1:1000"⟩, .request 0 ⟨header, ascii "10.0.0.1:1001"⟩]

theorem signedBounded : (between (·.authorization = ascii "AWS4") 0 (0 + 0) (passed 1 (fun _ => none) (twoPorts (ascii "AWS4"))) : ℚ) ≤
    (1 : Nat) * (0 + 1) := by
  refine (rateBounded _).mpr (fun r r' mine mine' => ?_) 1 (le_refl 1) _ (by simp [twoPorts,Event.time]) 0 0 (le_refl 0)
  rw [bucketKey,bucketKey,mine,mine']
  rfl

-- Without the header, every connection of an address has a bucket of its own.
theorem portsApart : ¬ (between (fun r => r.authorization = [] ∧ hasPrefix (ascii "10.0.0.1:") r.remoteAddr) 0 (0 + 0)
    (passed 1 (fun _ => none) (twoPorts [])) : ℚ) ≤ (1 : Nat) * (0 + 1) := by
  decide +kernel

end MaxIOFS.RateLimit
