import MaxIOFS.ByteString

/-! UTF-8 as an encoder of text writes it: a byte at which no code point begins becomes U+FFFD. -/
namespace MaxIOFS.Utf8
open ByteString (Bytes)

def continuation : UInt8 × UInt8 := (0x80, 0xBF)

/-- The ranges of the bytes that follow a first byte: no overlong form, no surrogate, nothing above U+10FFFF. -/
def following (b : UInt8) : Option (List (UInt8 × UInt8)) :=
  if b < 0x80 then some []
  else if b < 0xC2 then none
  else if b < 0xE0 then some [continuation]
  else if b < 0xF0 then some [(if b = 0xE0 then 0xA0 else 0x80, if b = 0xED then 0x9F else 0xBF), continuation]
  else if b < 0xF5 then some [(if b = 0xF0 then 0x90 else 0x80, if b = 0xF4 then 0x8F else 0xBF), continuation, continuation]
  else none

def within : List (UInt8 × UInt8) → Bytes → Bool
  | [], _ => true
  | _ :: _, [] => false
  | (low, high) :: ranges, b :: rest => low ≤ b && b ≤ high && within ranges rest

def begins (b : UInt8) (rest : Bytes) : Option Nat := (following b).bind fun ranges => if within ranges rest then some ranges.length else none

def replacement : Bytes := [0xEF, 0xBF, 0xBD]

/-- What becomes of the bytes behind a code point of which some are still to come. -/
def coercedBehind : Nat → Bytes → Bytes
  | _, [] => []
  | left + 1, b :: rest => b :: coercedBehind left rest
  | 0, b :: rest => match begins b rest with
    | some left => b :: coercedBehind left rest
    | none => replacement ++ coercedBehind 0 rest

def coerced (s : Bytes) : Bytes := coercedBehind 0 s

def Text (s : Bytes) : Prop := coerced s = s

instance (s : Bytes) : Decidable (Text s) := inferInstanceAs (Decidable (_ = _))

theorem withinBehind {ranges rest} (inside : within ranges rest = true) (n : Nat) (long : ranges.length ≤ n) :
    within ranges (coercedBehind n rest) = true := by
  induction ranges generalizing rest n with
  | nil => rfl
  | cons range ranges ih =>
    obtain ⟨low,high⟩ := range
    cases rest with
    | nil => cases inside
    | cons b rest =>
      obtain ⟨n,rfl⟩ : ∃ m, n = m + 1 := ⟨n - 1,by rw [List.length_cons] at long; omega⟩
      simp only [within,coercedBehind,Bool.and_eq_true] at inside ⊢
      exact ⟨inside.1,ih inside.2 n (by simpa using long)⟩

theorem beginsBehind {b rest n} (here : begins b rest = some n) : begins b (coercedBehind n rest) = some n := by
  obtain ⟨ranges,first,inside⟩ := Option.bind_eq_some_iff.mp here
  split at inside <;> try contradiction
  rename_i fits
  cases inside
  rw [begins,first,Option.bind_some,if_pos (withinBehind fits _ le_rfl)]

theorem coercedTwice (n : Nat) (s : Bytes) : coercedBehind n (coercedBehind n s) = coercedBehind n s := by
  induction s generalizing n with
  | nil => cases n <;> rfl
  | cons b rest ih =>
    cases n with
    | succ n => rw [coercedBehind,coercedBehind,ih]
    | zero =>
      cases here : begins b rest with
      | some n => simp only [coercedBehind,here,beginsBehind here,ih]
      | none =>
        have whole (s : Bytes) : coercedBehind 0 (replacement ++ s) = replacement ++ coercedBehind 0 s := rfl
        simp only [coercedBehind,here,whole,ih]

theorem coercedText (s : Bytes) : Text (coerced s) := coercedTwice 0 s

theorem coercedLonger (n : Nat) (s : Bytes) : s.length ≤ (coercedBehind n s).length := by
  induction s generalizing n with
  | nil => exact Nat.zero_le _
  | cons b rest ih =>
    cases n with
    | succ n => exact Nat.succ_le_succ (ih n)
    | zero =>
      rw [coercedBehind]
      split
      · exact Nat.succ_le_succ (ih _)
      · rw [List.length_append]
        exact Nat.le_trans (Nat.succ_le_succ (ih 0)) (by simp [replacement])

theorem followingHigh {b ranges} (follows : following b = some ranges) : ∀ range ∈ ranges, 0x80 ≤ range.1 := by
  unfold following at follows
  split_ifs at follows <;> cases follows <;> simp [continuation]

theorem withinAt {c ranges} (high : ∀ range ∈ ranges, 0x80 ≤ range.1) (low : c < 0x80) (a b : Bytes) :
    within ranges (a ++ c :: b) = within ranges a := by
  induction ranges generalizing a with
  | nil => cases a <;> rfl
  | cons range ranges ih =>
    cases a with
    | nil =>
      have above : ¬ range.1 ≤ c := not_le.mpr (low.trans_le (high range List.mem_cons_self))
      simp [within,above]
    | cons d a => simp only [List.cons_append,within,ih fun r mem => high r (List.mem_cons_of_mem _ mem)]

theorem withinLong {ranges a} (inside : within ranges a = true) : ranges.length ≤ a.length := by
  induction ranges generalizing a with
  | nil => exact Nat.zero_le _
  | cons range ranges ih =>
    cases a with
    | nil => cases inside
    | cons d a => exact Nat.succ_le_succ (ih ((Bool.and_eq_true _ _).mp inside).2)

theorem beginsAt {c} (low : c < 0x80) (d : UInt8) (a b : Bytes) : begins d (a ++ c :: b) = begins d a := by
  unfold begins
  cases follows : following d with
  | none => rfl
  | some ranges => simp only [Option.bind_some,withinAt (followingHigh follows) low]

-- No code point reaches beyond a byte below 80.
theorem coercedAt {c n} (low : c < 0x80) {a : Bytes} (left : n ≤ a.length) (b : Bytes) :
    coercedBehind n (a ++ c :: b) = coercedBehind n a ++ c :: coercedBehind 0 b := by
  induction a generalizing n with
  | nil =>
    cases Nat.le_zero.mp left
    have here : begins c b = some 0 := by simp [begins,following,low,within]
    simp only [List.nil_append,coercedBehind,here]
  | cons d a ih =>
    cases n with
    | succ n => exact congrArg (d :: ·) (ih (Nat.le_of_succ_le_succ left))
    | zero =>
      rw [List.cons_append,coercedBehind,coercedBehind,beginsAt low]
      cases here : begins d a with
      | none => simp only [ih (Nat.zero_le _),List.append_assoc]
      | some n =>
        obtain ⟨ranges,-,inside⟩ := Option.bind_eq_some_iff.mp here
        split at inside <;> try contradiction
        rename_i fits
        cases inside
        simp only [ih (withinLong fits),List.cons_append]

theorem textAt {c} (low : c < 0x80) (a b : Bytes) : Text (a ++ c :: b) ↔ Text a ∧ Text b := by
  unfold Text coerced
  rw [coercedAt low (Nat.zero_le _)]
  refine ⟨fun same => ?_,fun both => by rw [both.1,both.2]⟩
  have size := congrArg List.length same
  have longer := coercedLonger 0 a
  have longer' := coercedLonger 0 b
  simp only [List.length_append,List.length_cons] at size
  obtain ⟨front,back⟩ := List.append_inj same (by omega)
  exact ⟨front,(List.cons.inj back).2⟩

theorem textLow {s : Bytes} (low : ∀ b ∈ s, b < 0x80) : Text s := by
  induction s with
  | nil => rfl
  | cons b rest ih => exact (textAt (low b List.mem_cons_self) [] rest).mpr ⟨rfl,ih fun c mem => low c (List.mem_cons_of_mem _ mem)⟩

end MaxIOFS.Utf8
