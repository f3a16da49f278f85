import Mathlib.Data.Nat.Digits.Lemmas

/-!
# Changing the radix

A list of digits, most significant first, in another radix: the zeros in front are kept one
for one, and the number that the others spell is written without zeros in front.  Changed
back, the list is the one it was (`change_change`), so that no two lists of digits become the
same one.

The length of the new list is bounded by bounds of the number (`change_length_le_iff`), and its
first digits by an interval around it (`change_of_interval`).
-/

namespace NodeFuzzer

namespace Radix

/-- The zeros in front of a list. -/
def leadingZeros : List Nat → Nat
  | 0 :: l => leadingZeros l + 1
  | _ => 0

/-- The number that digits in a radix spell, most significant first. -/
def value (a : Nat) (l : List Nat) : Nat := Nat.ofDigits a l.reverse

/-- The digits of a number, most significant first. -/
def digits (b n : Nat) : List Nat := (Nat.digits b n).reverse

/-- Digits of the radix `a` in the radix `b`. -/
def change (a b : Nat) (l : List Nat) : List Nat :=
  List.replicate (leadingZeros l) 0 ++ digits b (value a l)

/-! ## Zeros in front -/

theorem leadingZeros_replicate_append {r : List Nat} (hr : r.head? ≠ some 0) (k : Nat) :
    leadingZeros (List.replicate k 0 ++ r) = k := by
  induction k with
  | zero =>
      cases r with
      | nil => rfl
      | cons x r =>
          cases x with
          | zero => exact absurd rfl hr
          | succ x => rfl
  | succ k ih => simp [List.replicate_succ, leadingZeros, ih]

/-- A list is its zeros in front and a list without any. -/
theorem eq_replicate_append (l : List Nat) :
    ∃ r, l = List.replicate (leadingZeros l) 0 ++ r ∧ r.head? ≠ some 0 := by
  induction l with
  | nil => exact ⟨[], rfl, by simp⟩
  | cons x l ih =>
      cases x with
      | zero =>
          obtain ⟨r, hl, hr⟩ := ih
          refine ⟨r, ?_, hr⟩
          rw [leadingZeros, List.replicate_succ, List.cons_append, ← hl]
      | succ x => exact ⟨(x + 1) :: l, rfl, by simp⟩

theorem leadingZeros_le_length (l : List Nat) : leadingZeros l ≤ l.length := by
  obtain ⟨r, hl, _⟩ := eq_replicate_append l
  have hlen := congrArg List.length hl
  rw [List.length_append, List.length_replicate] at hlen
  omega

@[simp] theorem value_replicate_append (a k : Nat) (r : List Nat) :
    value a (List.replicate k 0 ++ r) = value a r := by
  rw [value, value, List.reverse_append, List.reverse_replicate, Nat.ofDigits_append_replicate_zero]

/-! ## Digits of a number -/

@[simp] theorem value_digits (b n : Nat) : value b (digits b n) = n := by
  rw [value, digits, List.reverse_reverse, Nat.ofDigits_digits]

theorem digits_head? (b n : Nat) : (digits b n).head? ≠ some 0 := by
  intro h
  rw [digits, List.head?_reverse, List.getLast?_eq_some_iff] at h
  obtain ⟨l, hl⟩ := h
  have hn : n ≠ 0 := by
    intro hn
    simp [hn] at hl
  have hlast := Nat.getLast_digit_ne_zero b hn
  simp [hl] at hlast

theorem digits_value {a : Nat} (ha : 1 < a) {r : List Nat} (valid : ∀ d ∈ r, d < a)
    (hr : r.head? ≠ some 0) : digits a (value a r) = r := by
  have hback : Nat.digits a (value a r) = r.reverse := by
    refine Nat.digits_ofDigits a ha _ (fun d hd => valid d (List.mem_reverse.mp hd)) ?_
    intro hne hzero
    refine hr ?_
    rw [← List.getLast?_reverse, List.getLast?_eq_some_getLast hne, hzero]
  rw [digits, hback, List.reverse_reverse]

theorem lt_of_mem_digits {b n d : Nat} (hb : 1 < b) (h : d ∈ digits b n) : d < b :=
  Nat.digits_lt_base hb (List.mem_reverse.mp h)

/-! ## Changed lists -/

@[simp] theorem leadingZeros_change (a b : Nat) (l : List Nat) :
    leadingZeros (change a b l) = leadingZeros l :=
  leadingZeros_replicate_append (digits_head? b _) _

@[simp] theorem value_change (a b : Nat) (l : List Nat) : value b (change a b l) = value a l := by
  rw [change, value_replicate_append, value_digits]

theorem lt_of_mem_change {a b d : Nat} {l : List Nat} (hb : 1 < b) (h : d ∈ change a b l) : d < b := by
  rcases List.mem_append.mp h with hzero | hdigit
  · rw [List.eq_of_mem_replicate hzero]
    exact Nat.zero_lt_of_lt hb
  · exact lt_of_mem_digits hb hdigit

/-- Changed back, a list is the one it was. -/
theorem change_change {a b : Nat} (ha : 1 < a) {l : List Nat} (valid : ∀ d ∈ l, d < a) :
    change b a (change a b l) = l := by
  obtain ⟨r, hl, hr⟩ := eq_replicate_append l
  have hvalid : ∀ d ∈ r, d < a := by
    intro d hd
    refine valid d ?_
    rw [hl]
    exact List.mem_append_right _ hd
  have hvalue : value a l = value a r := by
    rw [hl, value_replicate_append]
  rw [change, leadingZeros_change, value_change, hvalue, digits_value ha hvalid hr, ← hl]

theorem change_length_le_iff {a b k : Nat} (hb : 1 < b) (l : List Nat) :
    (change a b l).length ≤ k ↔ leadingZeros l ≤ k ∧ value a l < b ^ (k - leadingZeros l) := by
  have hdigits := @Nat.digits_length_le_iff b (k - leadingZeros l) hb (value a l)
  have hlen : (change a b l).length = leadingZeros l + (Nat.digits b (value a l)).length := by
    rw [change, List.length_append, List.length_replicate, digits, List.length_reverse]
  rw [hlen, ← hdigits]
  omega

theorem value_lt {a : Nat} (ha : 1 < a) {l : List Nat} (valid : ∀ d ∈ l, d < a) :
    value a l < a ^ (l.length - leadingZeros l) := by
  obtain ⟨r, hl, _⟩ := eq_replicate_append l
  have hlen := congrArg List.length hl
  rw [List.length_append, List.length_replicate] at hlen
  have hvalue : value a l = value a r := by
    rw [hl, value_replicate_append]
  have hrest : l.length - leadingZeros l = r.reverse.length := by
    rw [List.length_reverse]
    omega
  rw [hvalue, hrest, value]
  refine Nat.ofDigits_lt_base_pow_length ha fun d hd => valid d ?_
  rw [hl]
  exact List.mem_append_right _ (List.mem_reverse.mp hd)

/-- A list in a smaller radix is as short as the powers of the two radices are close. -/
theorem change_length_le {a b m k : Nat} (hb : 1 < b) (hab : b ≤ a) {l : List Nat}
    (valid : ∀ d ∈ l, d < a) (hlen : l.length ≤ m) (hpow : a ^ m ≤ b ^ k) :
    (change a b l).length ≤ k := by
  have ha : 1 < a := hb.trans_le hab
  have hmk : m ≤ k := (Nat.pow_le_pow_iff_right ha).mp (hpow.trans (Nat.pow_le_pow_left hab k))
  have hzeros := leadingZeros_le_length l
  refine (change_length_le_iff hb l).mpr ⟨by omega, (value_lt ha valid).trans_le ?_⟩
  -- Each zero in front takes a digit of either radix.
  have hpos : 0 < b ^ leadingZeros l := Nat.pow_pos (Nat.zero_lt_of_lt hb)
  refine Nat.le_of_mul_le_mul_right ?_ hpos
  calc a ^ (l.length - leadingZeros l) * b ^ leadingZeros l
      ≤ a ^ (l.length - leadingZeros l) * a ^ leadingZeros l :=
        Nat.mul_le_mul_left _ (Nat.pow_le_pow_left hab _)
    _ = a ^ l.length := by rw [← Nat.pow_add, Nat.sub_add_cancel hzeros]
    _ ≤ a ^ m := Nat.pow_le_pow_right (Nat.zero_lt_of_lt ha) hlen
    _ ≤ b ^ k := hpow
    _ = b ^ (k - leadingZeros l) * b ^ leadingZeros l := by
        rw [← Nat.pow_add, Nat.sub_add_cancel (hzeros.trans (hlen.trans hmk))]

/-- A number between two multiples of a power has the digits of the multiplier in front. -/
theorem digits_of_interval {b j m n : Nat} (hb : 1 < b) (hm : 0 < m) (low : m * b ^ j ≤ n)
    (high : n < (m + 1) * b ^ j) : ∃ rest, digits b n = digits b m ++ rest ∧ rest.length = j := by
  have hpos : 0 < b ^ j := Nat.pow_pos (Nat.zero_lt_of_lt hb)
  have hrest : n - m * b ^ j < b ^ j := by
    rw [Nat.add_mul, Nat.one_mul] at high
    omega
  have hlen : (Nat.digits b (n - m * b ^ j)).length ≤ j := (Nat.digits_length_le_iff hb _).mpr hrest
  have happend := @Nat.digits_append_zeroes_append_digits b
    (j - (Nat.digits b (n - m * b ^ j)).length) m (n - m * b ^ j) hb hm
  have hsum : n - m * b ^ j + b ^ j * m = n := by
    rw [Nat.mul_comm (b ^ j), Nat.sub_add_cancel low]
  rw [Nat.add_sub_cancel' hlen, hsum] at happend
  refine ⟨(Nat.digits b (n - m * b ^ j) ++
    List.replicate (j - (Nat.digits b (n - m * b ^ j)).length) 0).reverse, ?_, ?_⟩
  · rw [digits, ← happend, List.reverse_append, digits]
  · rw [List.length_reverse, List.length_append, List.length_replicate]
    omega

theorem change_of_interval {a b j m : Nat} {l : List Nat} (hb : 1 < b) (hm : 0 < m)
    (hl : leadingZeros l = 0) (low : m * b ^ j ≤ value a l) (high : value a l < (m + 1) * b ^ j) :
    ∃ rest, change a b l = digits b m ++ rest ∧ rest.length = j := by
  rw [change, hl, List.replicate_zero, List.nil_append]
  exact digits_of_interval hb hm low high

end Radix

end NodeFuzzer
