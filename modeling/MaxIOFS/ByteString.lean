import Mathlib

/-! Byte strings with the operations of the host language's string library that
the models use. A string is its bytes; comparison is bytewise lexicographic. No
character encoding is assumed and no value is rejected for being ill-formed. -/
namespace MaxIOFS.ByteString
open List

abbrev Bytes := List UInt8

def ascii (s : String) : Bytes := s.toList.map (fun c => c.toNat.toUInt8)

instance byteOrder : LinearOrder UInt8 where
  le_refl := UInt8.le_refl
  le_trans := fun _ _ _ => UInt8.le_trans
  lt_iff_le_not_ge := fun a b => by simp only [UInt8.le_iff_toNat_le, UInt8.lt_iff_toNat_lt]; omega
  le_antisymm := fun _ _ => UInt8.le_antisymm
  le_total := UInt8.le_total
  toDecidableLE := inferInstance
  toDecidableLT := inferInstance

instance bytesLawful : LawfulBEq Bytes := inferInstance

def slash : UInt8 := 47
def colon : UInt8 := 58

def hasPrefix (p s : Bytes) : Bool := p.isPrefixOf s
def hasSuffix (p s : Bytes) : Bool := p.isSuffixOf s

@[simp] theorem hasPrefixIff {p s} : hasPrefix p s = true ↔ p <+: s := by
  simp [hasPrefix]

@[simp] theorem hasSuffixIff {p s} : hasSuffix p s = true ↔ p <:+ s := by
  simp [hasSuffix]

/-- Splits at every separator and keeps empty pieces; the empty string has one. -/
def split (separator : UInt8) : Bytes → List Bytes
  | [] => [[]]
  | b :: bs =>
    let rest := split separator bs
    if b = separator then [] :: rest else
      match rest with
      | [] => [[b]]
      | head :: tail => (b :: head) :: tail

theorem splitNonempty (separator : UInt8) (s : Bytes) : split separator s ≠ [] := by
  cases s with
  | nil => simp [split]
  | cons b bs =>
    simp only [split]
    split
    · simp
    · split <;> simp

theorem splitAppend (separator : UInt8) (a b : Bytes) : split separator (a ++ separator :: b) = split separator a ++ split separator b := by
  induction a with
  | nil => simp [split]
  | cons c rest ih =>
    obtain ⟨_,_,shape⟩ := exists_cons_of_ne_nil (splitNonempty separator rest)
    rw [cons_append,split,split,ih,shape]
    by_cases here : c = separator
    · simp [here]
    · simp [here]

theorem splitSegment {separator a} (free : separator ∉ a) : split separator a = [a] := by
  induction a with
  | nil => rfl
  | cons c rest ih =>
    obtain ⟨other,free⟩ := not_or.mp (List.mem_cons.not.mp free)
    rw [split,ih free,if_neg (Ne.symm other)]

/-- The part before the first separator and, when there is one, the part after it. -/
def splitFirst (separator : UInt8) : Bytes → Bytes × Option Bytes
  | [] => ([], none)
  | b :: bs =>
    if b = separator then ([], some bs) else
      let rest := splitFirst separator bs
      (b :: rest.1, rest.2)

theorem lastSeparator {c} {a a' b b' : Bytes} (same : a ++ c :: b = a' ++ c :: b') (free : c ∉ b) (free' : c ∉ b') : a = a' ∧ b = b' := by
  rcases append_eq_append_iff.mp same with ⟨m,rfl,tail⟩ | ⟨m,rfl,tail⟩
  · cases m with
    | nil => simpa using tail
    | cons x m =>
      rw [cons_append,List.cons.injEq] at tail
      exact absurd (tail.2 ▸ mem_append_right m mem_cons_self) free
  · cases m with
    | nil => simpa [eq_comm] using tail
    | cons x m =>
      rw [cons_append,List.cons.injEq] at tail
      exact absurd (tail.2 ▸ mem_append_right m mem_cons_self) free'

/-! Decimal numbers as `%d` prints them and as a base ten, 64 bit parse reads them. -/

def digits : Nat → Nat → Bytes
  | 0, _ => []
  | fuel + 1, n =>
    if n < 10 then [UInt8.ofNat (48 + n)]
    else digits fuel (n / 10) ++ [UInt8.ofNat (48 + n % 10)]

def formatNat (n : Nat) : Bytes := digits (n + 1) n

def formatInt : Int → Bytes
  | .ofNat n => formatNat n
  | .negSucc n => 45 :: formatNat (n + 1)

def digit (b : UInt8) : Option Nat := if 48 ≤ b ∧ b ≤ 57 then some (b.toNat - 48) else none

def readDigits (acc : Nat) : Bytes → Option Nat
  | [] => some acc
  | b :: bs => do
    let d ← digit b
    readDigits (acc * 10 + d) bs

def maxInt64 : Int := 2 ^ 63 - 1
def minInt64 : Int := -2 ^ 63

/-- The value and whether it was read: a value out of range is clamped and reported. -/
def parseInt (s : Bytes) : Int × Bool :=
  let negative := s.head? = some 45
  let body := if negative ∨ s.head? = some 43 then s.tail else s
  if body = [] then (0, false) else
    match readDigits 0 body with
    | none => (0, false)
    | some n =>
      let v : Int := if negative then -(n : Int) else n
      if v < minInt64 then (minInt64, false)
      else if maxInt64 < v then (maxInt64, false)
      else (v, true)

theorem digitOfNat : ∀ k < 10, digit (UInt8.ofNat (48 + k)) = some k := by decide

theorem readDigitsAppend (acc : Nat) (front : Bytes) (b : UInt8) :
    readDigits acc (front ++ [b]) = (readDigits acc front).bind fun n => (digit b).map (n * 10 + ·) := by
  induction front generalizing acc with
  | nil => cases h : digit b <;> simp [readDigits,h]
  | cons c rest ih =>
    cases h : digit c with
    | none => simp [readDigits,h]
    | some d => simpa [readDigits,h] using ih (acc * 10 + d)

theorem readDigitsDigits {fuel n} (enough : n < fuel) : readDigits 0 (digits fuel n) = some n := by
  induction fuel generalizing n with
  | zero => omega
  | succ fuel ih =>
    simp only [digits]
    split
    · rename_i small
      simp only [readDigits,digitOfNat n small,bind,Option.bind,Nat.zero_mul,Nat.zero_add]
    have last := digitOfNat (n % 10) (Nat.mod_lt _ (by omega))
    have front := ih (n := n / 10) (by omega)
    simp only [readDigitsAppend,front,last,Option.bind_some,Option.map_some,Option.some.injEq]
    omega

theorem digitByte {fuel n b} (mem : b ∈ digits fuel n) : 48 ≤ b ∧ b ≤ 57 := by
  have small : ∀ k < 10, 48 ≤ UInt8.ofNat (48 + k) ∧ UInt8.ofNat (48 + k) ≤ 57 := by decide
  induction fuel generalizing n with
  | zero => simp [digits] at mem
  | succ fuel ih =>
    unfold digits at mem
    split at mem
    · rename_i less
      rw [mem_singleton.mp mem]
      exact small n less
    rcases mem_append.mp mem with front | last
    · exact ih front
    · rw [mem_singleton.mp last]
      exact small _ (Nat.mod_lt _ (by decide))

theorem formatNatByte {n b} (mem : b ∈ formatNat n) : 48 ≤ b ∧ b ≤ 57 := digitByte mem

theorem formatNatNonempty (n : Nat) : formatNat n ≠ [] := by
  unfold formatNat digits
  split <;> simp

theorem formatIntNonempty (i : Int) : formatInt i ≠ [] := by
  cases i with
  | ofNat n => exact formatNatNonempty n
  | negSucc n => simp [formatInt]

theorem formatIntByte {i b} (mem : b ∈ formatInt i) : b = 45 ∨ 48 ≤ b ∧ b ≤ 57 := by
  cases i with
  | ofNat n => exact .inr (formatNatByte mem)
  | negSucc n =>
    rcases mem_cons.mp mem with sign | digit
    · exact .inl sign
    · exact .inr (formatNatByte digit)

theorem formatNatUnsigned (n : Nat) : (formatNat n).head? ≠ some 45 := fun sign =>
  absurd (formatNatByte (List.mem_of_head? sign)).1 (by decide)

theorem parseUnsigned {s} (unsigned : s.head? ≠ some 45) : 0 ≤ (parseInt s).1 := by
  have top : (0 : Int) ≤ maxInt64 := by decide
  simp only [parseInt,unsigned,if_false,false_or]
  generalize (if s.head? = some 43 then s.tail else s) = body
  split
  · exact Int.le_refl 0
  split
  · exact Int.le_refl 0
  rename_i n _
  have low : ¬ (n : Int) < minInt64 := by
    have bottom : minInt64 ≤ 0 := by decide
    omega
  rw [if_neg low]
  split
  · exact top
  · exact Int.natCast_nonneg n

theorem parseFormatted (n : Nat) : parseInt (formatNat n) = if maxInt64 < (n : Int) then (maxInt64, false) else ((n : Int), true) := by
  have value : readDigits 0 (formatNat n) = some n := readDigitsDigits (Nat.lt_succ_self n)
  have noMinus : ¬ (formatNat n).head? = some 45 := formatNatUnsigned n
  have noPlus : ¬ (formatNat n).head? = some 43 := fun h => absurd (formatNatByte (List.mem_of_head? h)).1 (by decide)
  have low : ¬ (n : Int) < minInt64 := by
    have bottom : minInt64 ≤ 0 := by decide
    omega
  simp only [parseInt,noMinus,noPlus,or_self,if_false,value,if_neg (formatNatNonempty n),if_neg low]

theorem parseFormatNat {n v} (read : parseInt (formatNat n) = (v, true)) : v = n := by
  rw [parseFormatted] at read
  split at read
  · simp at read
  · exact (congrArg Prod.fst read).symm

end MaxIOFS.ByteString
