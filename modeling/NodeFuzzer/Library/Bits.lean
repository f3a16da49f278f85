import Mathlib.Data.Nat.Digits.Defs
import NodeFuzzer.Library.Bytes

/-!
# Bits

Numbers written as bits, the most significant bit first, and the passage
between bits and bytes.
-/

namespace NodeFuzzer

/-- The number a list of bits stands for, most significant bit first. -/
def ofBits (bits : List Bool) : Nat := bits.foldl (fun n b => 2 * n + b.toNat) 0

theorem foldl_bits (bits : List Bool) (n : Nat) :
    bits.foldl (fun n b => 2 * n + b.toNat) n = n * 2 ^ bits.length + ofBits bits := by
  induction bits generalizing n with
  | nil => simp [ofBits]
  | cons b bits ih =>
      have hbits : ofBits (b :: bits) = (2 * 0 + b.toNat) * 2 ^ bits.length + ofBits bits := ih _
      rw [List.foldl_cons, ih, hbits, List.length_cons, Nat.pow_succ]
      ring

@[simp] theorem ofBits_nil : ofBits [] = 0 := rfl

theorem ofBits_append (a b : List Bool) :
    ofBits (a ++ b) = ofBits a * 2 ^ b.length + ofBits b := by
  rw [ofBits, List.foldl_append, foldl_bits]
  rfl

theorem ofBits_cons (b : Bool) (bits : List Bool) :
    ofBits (b :: bits) = b.toNat * 2 ^ bits.length + ofBits bits := by
  have h := ofBits_append [b] bits
  simpa [ofBits] using h

theorem ofBits_lt (bits : List Bool) : ofBits bits < 2 ^ bits.length := by
  induction bits with
  | nil => simp
  | cons b bits ih =>
      rw [ofBits_cons, List.length_cons, Nat.pow_succ]
      cases b <;> simp <;> omega

@[simp] theorem ofBits_replicate_append (k : Nat) (bits : List Bool) :
    ofBits (List.replicate k false ++ bits) = ofBits bits := by
  induction k with
  | zero => rfl
  | succ k ih => simp [List.replicate_succ, ofBits_cons, ih]

/-- Zeros in front of a number can be dropped. -/
theorem ofBits_dropWhile (bits : List Bool) : ofBits (bits.dropWhile (!·)) = ofBits bits := by
  induction bits with
  | nil => rfl
  | cons b bits ih =>
      cases b with
      | true => rfl
      | false => simpa [ofBits_cons] using ih

/-- The bits of a byte, most significant first. -/
def bitsOfByte (x : UInt8) : List Bool := [7, 6, 5, 4, 3, 2, 1, 0].map x.toNat.testBit

theorem ofBits_bitsOfByte (x : UInt8) : ofBits (bitsOfByte x) = x.toNat := by
  have h : ∀ n < 256, ofBits ([7, 6, 5, 4, 3, 2, 1, 0].map (Nat.testBit n)) = n := by decide +kernel
  exact h x.toNat x.toNat_lt

end NodeFuzzer
