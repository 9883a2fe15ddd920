import MaxIOFS.ByteString

/-! Hexadecimal text. A writer uses lower case; a reader takes either case. -/
namespace MaxIOFS.Hex
open ByteString

def digit (n : Nat) : UInt8 := if n < 10 then UInt8.ofNat (48 + n) else UInt8.ofNat (87 + n)

def value (b : UInt8) : Option Nat :=
  if 48 ≤ b ∧ b ≤ 57 then some (b.toNat - 48)
  else if 97 ≤ b ∧ b ≤ 102 then some (b.toNat - 87)
  else if 65 ≤ b ∧ b ≤ 70 then some (b.toNat - 55)
  else none

def encodeToString : Bytes → Bytes
  | [] => []
  | b :: rest => digit (b.toNat / 16) :: digit (b.toNat % 16) :: encodeToString rest

def decodeString : Bytes → Option Bytes
  | [] => some []
  | [_] => none
  | high :: low :: rest => do
    let high ← value high
    let low ← value low
    let bytes ← decodeString rest
    some (UInt8.ofNat (16 * high + low) :: bytes)

theorem valueDigit {n} (small : n < 16) : value (digit n) = some n := by
  have each : ∀ n < 16, value (digit n) = some n := by decide
  exact each n small

theorem byteHalves (b : UInt8) : UInt8.ofNat (16 * (b.toNat / 16) + b.toNat % 16) = b := by
  rw [Nat.div_add_mod]
  exact UInt8.ofNat_toNat

theorem decodeEncode (bytes : Bytes) : decodeString (encodeToString bytes) = some bytes := by
  induction bytes with
  | nil => rfl
  | cons b rest ih =>
    have high : b.toNat / 16 < 16 := by
      have := b.toNat_lt
      omega
    have low : b.toNat % 16 < 16 := Nat.mod_lt _ (by decide)
    simp only [encodeToString,decodeString,valueDigit high,valueDigit low,ih,Option.bind_eq_bind,Option.bind_some,byteHalves]

theorem encodeLength (bytes : Bytes) : (encodeToString bytes).length = 2 * bytes.length := by
  induction bytes with
  | nil => rfl
  | cons b rest ih =>
    simp only [encodeToString,List.length_cons]
    omega

theorem decodeLength {text bytes} (decoded : decodeString text = some bytes) : text.length = 2 * bytes.length := by
  induction text using decodeString.induct generalizing bytes with
  | case1 =>
    cases decoded
    rfl
  | case2 => contradiction
  | case3 high low rest ih =>
    simp only [decodeString,Option.bind_eq_bind,Option.bind_eq_some_iff] at decoded
    obtain ⟨_,_,_,_,_,rest',same⟩ := decoded
    cases same
    simp only [List.length_cons,ih rest']
    omega

end MaxIOFS.Hex
