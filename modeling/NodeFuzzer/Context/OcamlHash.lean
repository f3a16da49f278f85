import Mathlib.Tactic.NormNum
import NodeFuzzer.Library.Bytes

/-!
# OCaml's string hash

The port of OCaml's `caml_hash_mix_string` in `hash/ocaml.rs`.  A string is mixed
four bytes at a time into a state that starts as the seed.

Two blocks can change the state in ways that cancel.  `mix_mix_eq` gives pairs of
words that are mixed to the same state from every state.  Strings that advance the
state alike have the same hash under every seed (`Advances.ocamlHashString_eq`).
-/

namespace NodeFuzzer

/-! ## The hash -/

/-- `mix`: mix a word into the state. -/
def mix (h w : UInt32) : UInt32 :=
  let w := w * 0xcc9e2d51
  let w := w <<< 15 ||| w >>> 17
  let w := w * 0x1b873593
  let h := h ^^^ w
  let h := h <<< 13 ||| h >>> 19
  h * 5 + 0xe6546b64

/-- `u32::from_le_bytes`, also of fewer than four bytes. -/
def ofLe : Bytes → UInt32
  | [] => 0
  | b :: rest => (ofLe rest) <<< 8 ||| b.toUInt32

/-- The blocks of four bytes, and the up to three bytes that are left. -/
def mixBlocks : UInt32 → Bytes → UInt32
  | h, b₀ :: b₁ :: b₂ :: b₃ :: rest => mixBlocks (mix h (ofLe [b₀, b₁, b₂, b₃])) rest
  | h, [] => h
  | h, rest => mix h (ofLe rest)

/-- The final mix, folded to 30 bits. -/
def finalMix (h : UInt32) : UInt32 :=
  let h := h ^^^ (h >>> 16)
  let h := h * 0x85ebca6b
  let h := h ^^^ (h >>> 13)
  let h := h * 0xc2b2ae35
  let h := h ^^^ (h >>> 16)
  h &&& 0x3FFFFFFF

/-- `ocaml_hash_string`.  The length is cast to 32 bits; close to that bound the
loop counter overflows. -/
def ocamlHashString (seed : UInt32) (s : Bytes) : Option UInt32 :=
  let len := s.length % 2 ^ 32
  if len < 2 ^ 32 - 4 then
    some (finalMix (mixBlocks seed (s.take len) ^^^ UInt32.ofNat len))
  else none

example : ocamlHashString 0 [] = some 0 := by decide
example : ocamlHashString 0 [97] = some 721651713 := by decide
example : ocamlHashString 0 [97, 98, 99, 100, 101, 102] = some 926323203 := by decide

theorem ocamlHashString_isSome (seed : UInt32) (s : Bytes) :
    (ocamlHashString seed s).isSome ↔ s.length % 2 ^ 32 < 2 ^ 32 - 4 := by
  simp [ocamlHashString]

/-! ## Words that cancel -/

/-- What `mix` makes of a word before it meets the state. -/
def scramble (w : UInt32) : UInt32 :=
  let w := w * 0xcc9e2d51
  let w := w <<< 15 ||| w >>> 17
  w * 0x1b873593

/-- What `mix` makes of the state after that. -/
def stir (h : UInt32) : UInt32 := (h <<< 13 ||| h >>> 19) * 5 + 0xe6546b64

theorem mix_eq (h w : UInt32) : mix h w = stir (h ^^^ scramble w) := rfl

/-- The top bit has no carry: flipping it adds it. -/
theorem xor_top (y : UInt32) : y ^^^ 0x80000000 = y + 0x80000000 := by
  apply UInt32.toNat_inj.mp
  rw [UInt32.toNat_xor, UInt32.toNat_add]
  show y.toNat ^^^ 2 ^ 31 = (y.toNat + 2 ^ 31) % 2 ^ 32
  have hy := y.toNat_lt
  have hdiv := @Nat.xor_div_two_pow y.toNat (2 ^ 31) 31
  have hmod := @Nat.xor_mod_two_pow y.toNat (2 ^ 31) 31
  rw [Nat.div_self (by decide)] at hdiv
  rw [Nat.mod_self, Nat.xor_zero] at hmod
  have htop : y.toNat / 2 ^ 31 = 0 ∨ y.toNat / 2 ^ 31 = 1 := by omega
  rcases htop with h | h <;> rw [h] at hdiv <;> norm_num at hdiv hmod h ⊢ <;> omega

/-- Rotating by 13 takes bit 18 to the top. -/
theorem rotl_xor (x : UInt32) :
    (x ^^^ 0x40000) <<< 13 ||| (x ^^^ 0x40000) >>> 19 =
      (x <<< 13 ||| x >>> 19) ^^^ 0x80000000 := by
  apply UInt32.eq_of_toBitVec_eq
  show (x.toBitVec ^^^ BitVec.twoPow 32 18) <<< 13 |||
      (x.toBitVec ^^^ BitVec.twoPow 32 18) >>> 19 =
    (x.toBitVec <<< 13 ||| x.toBitVec >>> 19) ^^^ BitVec.twoPow 32 31
  ext i hi
  simp only [BitVec.getElem_or, BitVec.getElem_shiftLeft, BitVec.getElem_xor,
    BitVec.getElem_twoPow, BitVec.getElem_ushiftRight, BitVec.getLsbD_xor,
    BitVec.getLsbD_twoPow]
  have hlow : decide (18 = 19 + i) = false := decide_eq_false (by omega)
  rw [hlow]
  by_cases h31 : i = 31
  · subst h31
    simp
  · have hmid : decide (i - 13 = 18) = false := decide_eq_false (by omega)
    simp [hmid, h31]

theorem stir_xor (x : UInt32) : stir (x ^^^ 0x40000) = stir x ^^^ 0x80000000 := by
  have h5 : (0x80000000 : UInt32) * 5 = 0x80000000 := by decide
  unfold stir
  rw [rotl_xor, xor_top, xor_top, UInt32.add_mul, h5, UInt32.add_assoc, UInt32.add_assoc,
    UInt32.add_comm 0x80000000]

/-- Two words change the state in the same way as two others when the first ones
differ in bit 18 of their scrambled form and the second ones in the top bit. -/
theorem mix_mix_eq (a a' b b' : UInt32) (first : scramble b = scramble a ^^^ 0x40000)
    (second : scramble b' = scramble a' ^^^ 0x80000000) (h : UInt32) :
    mix (mix h a) a' = mix (mix h b) b' := by
  have hb : mix h b = mix h a ^^^ 0x80000000 := by
    rw [mix_eq, mix_eq, first, ← UInt32.xor_assoc, stir_xor]
  have hcancel : mix h a ^^^ 0x80000000 ^^^ scramble b' = mix h a ^^^ scramble a' := by
    rw [second, UInt32.xor_comm (scramble a'), UInt32.xor_assoc,
      ← UInt32.xor_assoc 0x80000000, UInt32.xor_self, UInt32.zero_xor]
  rw [hb, mix_eq _ a', mix_eq _ b', hcancel]

theorem mixBlocks_word (h : UInt32) (b₀ b₁ b₂ b₃ : UInt8) (rest : Bytes) :
    mixBlocks h (b₀ :: b₁ :: b₂ :: b₃ :: rest) = mixBlocks (mix h (ofLe [b₀, b₁, b₂, b₃])) rest := by
  conv =>
    lhs
    unfold mixBlocks

/-- Mixing the whole blocks `s` takes every state to its value under `f`. -/
def Advances (s : Bytes) (f : UInt32 → UInt32) : Prop :=
  ∀ h rest, mixBlocks h (s ++ rest) = mixBlocks (f h) rest

namespace Advances

variable {s t : Bytes} {f g : UInt32 → UInt32}

theorem nil : Advances [] id := fun _ _ => rfl

theorem append (first : Advances s f) (second : Advances t g) : Advances (s ++ t) (g ∘ f) := by
  intro h rest
  rw [List.append_assoc, first, second]
  rfl

theorem words (b₀ b₁ b₂ b₃ c₀ c₁ c₂ c₃ : UInt8) :
    Advances [b₀, b₁, b₂, b₃, c₀, c₁, c₂, c₃] fun h =>
      mix (mix h (ofLe [b₀, b₁, b₂, b₃])) (ofLe [c₀, c₁, c₂, c₃]) :=
  fun h rest => (mixBlocks_word h b₀ b₁ b₂ b₃ _).trans (mixBlocks_word _ c₀ c₁ c₂ c₃ rest)

/-- Strings that advance the state alike have the same hash under every seed. -/
theorem ocamlHashString_eq (hs : Advances s f) (ht : Advances t f) (length : s.length = t.length)
    (short : s.length < 2 ^ 32) (seed : UInt32) :
    ocamlHashString seed s = ocamlHashString seed t := by
  have hmix : mixBlocks seed s = mixBlocks seed t := by
    rw [← List.append_nil s, ← List.append_nil t, hs, ht]
  have htake : s.take (s.length % 2 ^ 32) = s := by
    rw [Nat.mod_eq_of_lt short, List.take_length]
  have htake' : t.take (s.length % 2 ^ 32) = t := by
    rw [Nat.mod_eq_of_lt short, length, List.take_length]
  simp only [ocamlHashString, ← length, htake, htake', hmix]

end Advances

end NodeFuzzer
