import NodeFuzzer.Encoding.Types

/-!
# Hexadecimal text

`hex::encode` and `hex::decode`.  What is encoded is decoded again (`hexDecode_hexEncode`).
-/

namespace NodeFuzzer

/-- A digit of `hex::encode`. -/
def hexChar (n : UInt8) : Char :=
  if n < 10 then Char.ofNat (n.toNat + '0'.toNat) else Char.ofNat (n.toNat - 10 + 'a'.toNat)

/-- `hex::encode`. -/
def hexEncode (bytes : Bytes) : String :=
  String.ofList (bytes.flatMap fun b : UInt8 => [hexChar (b >>> 4), hexChar (b &&& 15)])

/-- `hex::decode`, on the bytes of the text. -/
def hexDigit (b : UInt8) : Option Nat :=
  let n := b.toNat
  if 48 ≤ n ∧ n ≤ 57 then some (n - 48)
  else if 97 ≤ n ∧ n ≤ 102 then some (n - 87)
  else if 65 ≤ n ∧ n ≤ 70 then some (n - 55)
  else none

@[inherit_doc hexDigit]
def hexDecode : Bytes → Option Bytes
  | [] => some []
  | [_] => none
  | hi :: lo :: rest => do
      let h ← hexDigit hi
      let l ← hexDigit lo
      let bytes ← hexDecode rest
      return UInt8.ofNat (h * 16 + l) :: bytes

/-- The two digits of a byte are digits of its halves. -/
theorem hexChar_digits (b : UInt8) :
    (hexChar (b >>> 4)).toNat < 128 ∧ (hexChar (b &&& 15)).toNat < 128 ∧
      hexDigit (UInt8.ofNat (hexChar (b >>> 4)).toNat) = some (b.toNat / 16) ∧
      hexDigit (UInt8.ofNat (hexChar (b &&& 15)).toNat) = some (b.toNat % 16) := by
  have hall : ∀ n < 256, (hexChar (UInt8.ofNat n >>> 4)).toNat < 128 ∧
      (hexChar (UInt8.ofNat n &&& 15)).toNat < 128 ∧
      hexDigit (UInt8.ofNat (hexChar (UInt8.ofNat n >>> 4)).toNat) =
        some ((UInt8.ofNat n).toNat / 16) ∧
      hexDigit (UInt8.ofNat (hexChar (UInt8.ofNat n &&& 15)).toNat) =
        some ((UInt8.ofNat n).toNat % 16) := by decide +kernel
  have h := hall b.toNat b.toNat_lt
  rwa [UInt8.ofNat_toNat] at h

theorem utf8_hexEncode (bytes : Bytes) : utf8 (hexEncode bytes) = bytes.flatMap fun b : UInt8 =>
    [UInt8.ofNat (hexChar (b >>> 4)).toNat, UInt8.ofNat (hexChar (b &&& 15)).toNat] := by
  rw [hexEncode, utf8_ofList, List.map_flatMap]
  · rfl
  · intro c hc
    obtain ⟨b, _, hc⟩ := List.mem_flatMap.mp hc
    obtain ⟨high, low, _⟩ := hexChar_digits b
    simp only [List.mem_cons, List.not_mem_nil, or_false] at hc
    obtain rfl | rfl := hc
    · exact high
    · exact low

@[simp] theorem utf8_hexEncode_length (bytes : Bytes) :
    (utf8 (hexEncode bytes)).length = 2 * bytes.length := by
  rw [utf8_hexEncode]
  simp [List.length_flatMap, Nat.mul_comm]

@[simp] theorem hexDecode_hexEncode (bytes : Bytes) : hexDecode (utf8 (hexEncode bytes)) = some bytes := by
  rw [utf8_hexEncode]
  induction bytes with
  | nil => rfl
  | cons b bytes ih =>
      obtain ⟨_, _, high, low⟩ := hexChar_digits b
      have hbyte : UInt8.ofNat (b.toNat / 16 * 16 + b.toNat % 16) = b := by
        rw [Nat.mul_comm, Nat.div_add_mod, UInt8.ofNat_toNat]
      simp [hexDecode, high, low, ih, hbyte, -UInt8.ofNat_add, -UInt8.ofNat_mul]

end NodeFuzzer
