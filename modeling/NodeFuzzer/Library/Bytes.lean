import Mathlib.Data.List.Basic
import Mathlib.Algebra.Order.Group.Nat
import Mathlib.Tactic.NormNum
import Mathlib.Tactic.Ring

/-!
# Byte strings

Fixed-width big-endian numbers and the LEB128 form of unsigned numbers, as
lists of bytes.  A big-endian number of `w` bytes is read back modulo `256 ^ w`
(`ofBe_toBe`).  An LEB128 number is self-delimiting: two byte strings that start
with one determine the number and the rest (`leb128_append_inj`).  Lists of
self-delimiting codes are read back in one way (`Delimited.flatMap_inj`).
-/

namespace NodeFuzzer

/-- A byte string. -/
abbrev Bytes : Type := List UInt8

/-! ## Big-endian numbers -/

/-- The `w` low bytes of `n`, most significant first. -/
def toBe : Nat → Nat → Bytes
  | 0, _ => []
  | w + 1, n => UInt8.ofNat (n / 256 ^ w) :: toBe w n

/-- The number a byte string spells, most significant byte first. -/
def ofBe (b : Bytes) : Nat := b.foldl (fun n x => n * 256 + x.toNat) 0

@[simp] theorem toBe_length (w n : Nat) : (toBe w n).length = w := by
  induction w with
  | zero => rfl
  | succ w ih => simp [toBe, ih]

theorem foldl_be (b : Bytes) (n : Nat) :
    b.foldl (fun n x => n * 256 + x.toNat) n = n * 256 ^ b.length + ofBe b := by
  induction b generalizing n with
  | nil => simp [ofBe]
  | cons x rest ih =>
      rw [ofBe, List.foldl_cons, List.foldl_cons, ih, ih (0 * 256 + x.toNat), List.length_cons]
      ring

theorem ofBe_cons (x : UInt8) (b : Bytes) : ofBe (x :: b) = x.toNat * 256 ^ b.length + ofBe b := by
  rw [ofBe, List.foldl_cons, foldl_be]
  simp

theorem ofBe_append (a b : Bytes) : ofBe (a ++ b) = ofBe a * 256 ^ b.length + ofBe b := by
  rw [ofBe, List.foldl_append, foldl_be]
  rfl

theorem ofBe_lt (b : Bytes) : ofBe b < 256 ^ b.length := by
  induction b with
  | nil => simp [ofBe]
  | cons x rest ih =>
      have hx : x.toNat < 256 := x.toNat_lt
      have hm : x.toNat * 256 ^ rest.length ≤ 255 * 256 ^ rest.length :=
        Nat.mul_le_mul_right _ (by omega)
      rw [ofBe_cons, List.length_cons, pow_succ]
      omega

/-- Reading `w` big-endian bytes gives the number modulo `256 ^ w`. -/
theorem ofBe_toBe (w n : Nat) : ofBe (toBe w n) = n % 256 ^ w := by
  induction w with
  | zero => simp [toBe, ofBe, Nat.mod_one]
  | succ w ih =>
      rw [toBe, ofBe_cons, ih, toBe_length, UInt8.toNat_ofNat', show 2 ^ 8 = 256 from rfl,
        pow_succ, Nat.mod_mul]
      ring

theorem ofBe_toBe_of_lt {w n : Nat} (h : n < 256 ^ w) : ofBe (toBe w n) = n := by
  rw [ofBe_toBe, Nat.mod_eq_of_lt h]

theorem toBe_inj {w n m : Nat} (hn : n < 256 ^ w) (hm : m < 256 ^ w)
    (h : toBe w n = toBe w m) : n = m := by
  have h' := congrArg ofBe h
  rwa [ofBe_toBe_of_lt hn, ofBe_toBe_of_lt hm] at h'

/-- Only the `w` low bytes of a number are written. -/
theorem toBe_add_mul (w n k : Nat) : toBe w (k * 256 ^ w + n) = toBe w n := by
  induction w generalizing k with
  | zero => rfl
  | succ w ih =>
      have hpow : k * 256 ^ (w + 1) + n = k * 256 * 256 ^ w + n := by
        rw [pow_succ]
        ring
      have hdiv : (k * 256 * 256 ^ w + n) / 256 ^ w = k * 256 + n / 256 ^ w := by
        rw [Nat.add_comm, Nat.add_mul_div_right _ _ (by positivity), Nat.add_comm]
      have hbyte : UInt8.ofNat (k * 256 + n / 256 ^ w) = UInt8.ofNat (n / 256 ^ w) := by
        apply UInt8.toNat_inj.mp
        simp [UInt8.toNat_ofNat']
      rw [toBe, toBe, hpow, ih (k * 256), hdiv, hbyte]

/-- A byte string is written back from the number it spells. -/
theorem toBe_ofBe (b : Bytes) : toBe b.length (ofBe b) = b := by
  induction b with
  | nil => rfl
  | cons x rest ih =>
      have hdiv : (x.toNat * 256 ^ rest.length + ofBe rest) / 256 ^ rest.length = x.toNat := by
        rw [Nat.add_comm, Nat.add_mul_div_right _ _ (by positivity),
          Nat.div_eq_of_lt (ofBe_lt rest), Nat.zero_add]
      rw [List.length_cons, toBe, ofBe_cons, toBe_add_mul, ih, hdiv, UInt8.ofNat_toNat]

/-! ## LEB128 -/

/-- At most `fuel` groups of seven bits of `n`, least significant first, each but
the last with its high bit set. -/
def lebGroups : Nat → Nat → Bytes
  | 0, _ => []
  | fuel + 1, n =>
      if n < 128 then [UInt8.ofNat n]
      else UInt8.ofNat (n % 128 + 128) :: lebGroups fuel (n / 128)

/-- The LEB128 form of a 64-bit number. -/
def leb128 (n : Nat) : Bytes := lebGroups 10 n

theorem lebGroups_append_inj {fuel n m : Nat} {r r' : Bytes} (hn : n < 128 ^ fuel)
    (hm : m < 128 ^ fuel) (h : lebGroups fuel n ++ r = lebGroups fuel m ++ r') :
    n = m ∧ r = r' := by
  -- One group at a time: the high bit of the first byte says whether more follow.
  induction fuel generalizing n m with
  | zero =>
      simp only [pow_zero, Nat.lt_one_iff] at hn hm
      exact ⟨hn.trans hm.symm, by simpa [lebGroups] using h⟩
  | succ fuel ih =>
      have byte : ∀ {a b : Nat}, a < 256 → b < 256 → UInt8.ofNat a = UInt8.ofNat b → a = b := by
        intro a b ha hb hab
        have := congrArg UInt8.toNat hab
        rw [UInt8.toNat_ofNat', UInt8.toNat_ofNat'] at this
        omega
      simp only [lebGroups] at h
      split at h <;> split at h
      next h1 h2 =>
        rw [List.cons_append, List.cons_append, List.cons.injEq] at h
        exact ⟨byte (by omega) (by omega) h.1, by simpa using h.2⟩
      next h1 h2 =>
        rw [List.cons_append, List.cons_append, List.cons.injEq] at h
        have := byte (by omega) (by omega) h.1
        omega
      next h1 h2 =>
        rw [List.cons_append, List.cons_append, List.cons.injEq] at h
        have := byte (by omega) (by omega) h.1
        omega
      next h1 h2 =>
        rw [List.cons_append, List.cons_append, List.cons.injEq] at h
        have hlow := byte (by omega) (by omega) h.1
        rw [pow_succ] at hn hm
        obtain ⟨hhigh, hr⟩ := ih (by omega) (by omega) h.2
        exact ⟨by omega, hr⟩

/-- An LEB128 number at the front of a byte string is read in one way. -/
theorem leb128_append_inj {n m : Nat} {r r' : Bytes} (hn : n < 2 ^ 64) (hm : m < 2 ^ 64)
    (h : leb128 n ++ r = leb128 m ++ r') : n = m ∧ r = r' := by
  have hpow : 2 ^ 64 < 128 ^ 10 := by norm_num
  exact lebGroups_append_inj (by omega) (by omega) h

/-! ## Self-delimiting codes -/

/-- Codes of elements that satisfy `P`, of which none starts another one. -/
def Delimited {α : Type} (P : α → Prop) (code : α → Bytes) : Prop :=
  ∀ {a b : α} {r r' : Bytes}, P a → P b → code a ++ r = code b ++ r' → a = b ∧ r = r'

/-- The concatenated codes of two lists of one length are read in one way. -/
theorem Delimited.flatMap_inj {α : Type} {P : α → Prop} {code : α → Bytes}
    (delimited : Delimited P code) {l l' : List α} (length : l.length = l'.length)
    (hl : ∀ a ∈ l, P a) (hl' : ∀ a ∈ l', P a) {r r' : Bytes}
    (h : l.flatMap code ++ r = l'.flatMap code ++ r') : l = l' ∧ r = r' := by
  induction l generalizing l' with
  | nil =>
      obtain rfl : l' = [] := List.length_eq_zero_iff.mp length.symm
      exact ⟨rfl, h⟩
  | cons a rest ih =>
      cases l' with
      | nil => simp at length
      | cons b rest' =>
          rw [List.flatMap_cons, List.flatMap_cons, List.append_assoc, List.append_assoc] at h
          obtain ⟨rfl, htail⟩ := delimited (hl a List.mem_cons_self) (hl' b List.mem_cons_self) h
          obtain ⟨rfl, hr⟩ := ih (by simpa using length)
            (fun c hc => hl c (List.mem_cons_of_mem _ hc))
            (fun c hc => hl' c (List.mem_cons_of_mem _ hc)) htail
          exact ⟨rfl, hr⟩

/-! ## Lists related element by element -/

theorem exists_mem_of_forall₂ {α β : Type} {R : α → β → Prop} {as : List α} {bs : List β}
    (h : List.Forall₂ R as bs) {a : α} (ha : a ∈ as) : ∃ b ∈ bs, R a b := by
  induction h with
  | nil => cases ha
  | @cons x y xs ys hxy _ ih =>
      rcases List.mem_cons.mp ha with rfl | ha
      · exact ⟨y, List.mem_cons_self, hxy⟩
      · obtain ⟨b, hb, hr⟩ := ih ha
        exact ⟨b, List.mem_cons_of_mem _ hb, hr⟩

end NodeFuzzer
