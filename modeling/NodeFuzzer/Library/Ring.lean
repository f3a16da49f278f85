import Mathlib.Data.Nat.Bitwise

/-!
# Counters of laps

A ring of `n` places can be counted by numbers that hold a lap and a place: the place in
the low bits and the lap above them.  The mask of the low bits is a power of two that need
not be the size of the ring.  `lapCount n mask p` is the counter after `p` places; counters
are ordered as the numbers of places are.
-/

namespace NodeFuzzer

/-- The counter after `p` places. -/
def lapCount (n mask p : Nat) : Nat := p / n * mask + p % n

section Counters

variable {n mask p q : Nat}

theorem lapCount_mod (hn : 0 < n) (hmask : n ≤ mask) : lapCount n mask p % mask = p % n := by
  have hlt : p % n < mask := Nat.lt_of_lt_of_le (Nat.mod_lt p hn) hmask
  rw [lapCount, Nat.mul_add_mod', Nat.mod_eq_of_lt hlt]

theorem lapCount_div (hn : 0 < n) (hmask : n ≤ mask) : lapCount n mask p / mask = p / n := by
  have hlt : p % n < mask := Nat.lt_of_lt_of_le (Nat.mod_lt p hn) hmask
  have hpos : 0 < mask := Nat.lt_of_lt_of_le hn hmask
  rw [lapCount, Nat.add_comm, Nat.add_mul_div_right _ _ hpos, Nat.div_eq_of_lt hlt, Nat.zero_add]

/-- A lap further on. -/
theorem lapCount_add_lap (hn : 0 < n) : lapCount n mask (p + n) = lapCount n mask p + mask := by
  rw [lapCount, lapCount, Nat.add_div_right p hn, Nat.add_mod_right, Nat.succ_mul]
  omega

/-- Several places further on, at most one lap. -/
theorem lapCount_add {m : Nat} (hn : 0 < n) (hm : m ≤ n) : lapCount n mask (p + m) =
    if p % n + m < n then lapCount n mask p + m
    else p / n * mask + mask + (p % n + m) % n := by
  have hp := Nat.div_add_mod p n
  have hlt := Nat.mod_lt p hn
  split
  next hsmall =>
    have hdiv : (p + m) / n = p / n := by
      rw [Nat.div_eq_of_lt_le]
      · rw [Nat.mul_comm]
        omega
      · rw [Nat.succ_mul, Nat.mul_comm]
        omega
    have hmod : (p + m) % n = p % n + m := by
      have hsum : p + m = n * (p / n) + (p % n + m) := by omega
      rw [hsum, Nat.mul_add_mod, Nat.mod_eq_of_lt hsmall]
    rw [lapCount, lapCount, hdiv, hmod]
    omega
  next hlarge =>
    have hsum : p + m = n * (p / n + 1) + (p % n + m - n) := by
      rw [Nat.mul_succ]
      omega
    have hwrap : (p % n + m) % n = p % n + m - n := by
      rw [Nat.mod_eq_sub_mod (Nat.not_lt.mp hlarge), Nat.mod_eq_of_lt (by omega)]
    have hrest : p % n + m - n < n := by omega
    rw [lapCount, hwrap, hsum, Nat.mul_add_mod, Nat.mod_eq_of_lt hrest, Nat.mul_add_div hn,
      Nat.div_eq_of_lt hrest, Nat.add_zero, Nat.succ_mul]

/-- A place further on. -/
theorem lapCount_succ (hn : 0 < n) : lapCount n mask (p + 1) =
    if p % n + 1 < n then lapCount n mask p + 1 else p / n * mask + mask := by
  rw [lapCount_add hn hn]
  split
  · rfl
  next hlarge =>
    have hend : p % n + 1 = n := by
      have := Nat.mod_lt p hn
      omega
    rw [hend, Nat.mod_self, Nat.add_zero]

/-- The counter at a place of a lap. -/
theorem lapCount_mul_add {k r : Nat} (hr : r < n) : lapCount n mask (k * n + r) = k * mask + r := by
  have hn : 0 < n := Nat.zero_lt_of_lt hr
  have hdiv : (k * n + r) / n = k := by
    rw [Nat.mul_comm, Nat.mul_add_div hn, Nat.div_eq_of_lt hr, Nat.add_zero]
  have hmod : (k * n + r) % n = r := by
    rw [Nat.mul_add_mod', Nat.mod_eq_of_lt hr]
  rw [lapCount, hdiv, hmod]

theorem lapCount_lt_lapCount (hn : 0 < n) (hmask : n ≤ mask) (h : p < q) :
    lapCount n mask p < lapCount n mask q := by
  induction q with
  | zero => exact absurd h (Nat.not_lt_zero p)
  | succ q ih =>
      have step : lapCount n mask q < lapCount n mask (q + 1) := by
        rw [lapCount_succ hn]
        split
        · exact Nat.lt_succ_self _
        · have := Nat.mod_lt q hn
          rw [lapCount]
          omega
      rcases Nat.lt_succ_iff_lt_or_eq.mp h with hlt | heq
      · exact (ih hlt).trans step
      · rw [heq]
        exact step

theorem lapCount_lt_iff (hn : 0 < n) (hmask : n ≤ mask) :
    lapCount n mask p < lapCount n mask q ↔ p < q := by
  constructor
  · intro h
    by_contra hle
    rcases Nat.lt_or_eq_of_le (Nat.not_lt.mp hle) with hlt | heq
    · exact absurd (lapCount_lt_lapCount hn hmask hlt) (Nat.not_lt.mpr h.le)
    · rw [heq] at h
      exact Nat.lt_irrefl _ h
  · exact lapCount_lt_lapCount hn hmask

theorem lapCount_inj (hn : 0 < n) (hmask : n ≤ mask) :
    lapCount n mask p = lapCount n mask q ↔ p = q := by
  constructor
  · intro h
    rcases Nat.lt_trichotomy p q with hlt | heq | hgt
    · exact absurd h (lapCount_lt_lapCount hn hmask hlt).ne
    · exact heq
    · exact absurd h (lapCount_lt_lapCount hn hmask hgt).ne'
  · intro h
    rw [h]

/-- Places less than a lap apart are different. -/
theorem mod_ne_of_lt {i j : Nat} (hij : i < j) (hj : j < i + n) : i % n ≠ j % n := by
  intro h
  have hzero : (j - i) % n = 0 := Nat.sub_mod_eq_zero_of_mod_eq h.symm
  have hsmall : (j - i) % n = j - i := Nat.mod_eq_of_lt (by omega)
  omega

/-- The place `j` further on, less than a lap. -/
theorem add_mod_eq_ite {j : Nat} (hj : j < n) :
    (p + j) % n = if p % n + j < n then p % n + j else p % n + j - n := by
  have hp : p % n < n := Nat.mod_lt p (Nat.zero_lt_of_lt hj)
  rw [← Nat.mod_add_mod]
  split
  next hlt => exact Nat.mod_eq_of_lt hlt
  next hge => rw [Nat.mod_eq_sub_mod (Nat.not_lt.mp hge), Nat.mod_eq_of_lt (by omega)]

end Counters

/-! ## Slices -/

/-- How many places lie before the end of a slice of `m` places, when the end is computed
with at most one lap. -/
def sliceEnd (n p m : Nat) : Nat :=
  if p % n + m < n then p + m else (p / n + 1) * n + (p % n + m) % n

section Slices

variable {n p m : Nat}

/-- A slice that is longer than the ring ends in the next lap. -/
theorem sliceEnd_of_lt (hm : n < m) :
    sliceEnd n p m = p - p % n + n + (p % n + m) % n := by
  have hp := Nat.div_add_mod' p n
  have hwrap : ¬ p % n + m < n := by omega
  rw [sliceEnd, if_neg hwrap, Nat.succ_mul]
  omega

theorem le_sliceEnd (hn : 0 < n) : p ≤ sliceEnd n p m := by
  have hp := Nat.div_add_mod' p n
  have hlt := Nat.mod_lt p hn
  unfold sliceEnd
  split
  next => exact Nat.le_add_right p m
  next =>
    rw [Nat.succ_mul]
    omega

/-- The places before the end are among those of the slice, which go around the end of the
ring. -/
theorem mod_of_lt_sliceEnd {j : Nat} (hn : 0 < n) (hle : p ≤ j) (hj : j < sliceEnd n p m) :
    p % n ≤ j % n ∧ j % n < p % n + m ∨ j % n + n < p % n + m := by
  have hp := Nat.div_add_mod' p n
  have hlt := Nat.mod_lt p hn
  -- A place of this lap or of the next one, seen from the start of this lap.
  have hplace : ∀ r k, r < n → j = p / n * n + k * n + r → j % n = r := by
    intro r k hr heq
    rw [heq, ← Nat.add_mul, Nat.mul_add_mod', Nat.mod_eq_of_lt hr]
  unfold sliceEnd at hj
  split at hj
  next hfit =>
    have hmod := hplace (p % n + (j - p)) 0 (by omega) (by omega)
    omega
  next hwrap =>
    rw [Nat.succ_mul] at hj
    have hrest := Nat.mod_lt (p % n + m) hn
    have hsub : (p % n + m) % n ≤ p % n + m - n := by
      rw [Nat.mod_eq_sub_mod (Nat.not_lt.mp hwrap)]
      exact Nat.mod_le _ n
    by_cases hlap : j < p / n * n + n
    · have hmod := hplace (p % n + (j - p)) 0 (by omega) (by omega)
      omega
    · have hmod := hplace (j - (p / n * n + n)) 1 (by omega) (by omega)
      omega

end Slices

/-! ## Bits of counters -/

/-- Clearing the low bits. -/
theorem and_not_low {t k w : Nat} (ht : t < 2 ^ w) :
    t &&& (2 ^ w - 1 - (2 ^ k - 1)) = t / 2 ^ k * 2 ^ k := by
  have hone : 0 < 2 ^ k := Nat.two_pow_pos k
  have hsub : 2 ^ w - 1 - (2 ^ k - 1) = 2 ^ w - 2 ^ k := by omega
  rw [hsub]
  by_cases hk : k ≤ w
  · refine Nat.eq_of_testBit_eq fun i => ?_
    have hlow : 2 ^ w - 2 ^ k = 2 ^ w - ((2 ^ k - 1) + 1) := by omega
    have hlt : 2 ^ k - 1 < 2 ^ w :=
      Nat.lt_of_lt_of_le (Nat.sub_lt hone Nat.one_pos) (Nat.pow_le_pow_right Nat.two_pos hk)
    rw [Nat.testBit_and, hlow, Nat.testBit_two_pow_sub_succ hlt, Nat.testBit_two_pow_sub_one,
      Nat.testBit_mul_two_pow, Nat.testBit_div_two_pow]
    by_cases hik : k ≤ i
    · by_cases hiw : i < w
      · simp [hik, hiw]
      · have hzero : t.testBit i = false :=
          Nat.testBit_lt_two_pow (ht.trans_le (Nat.pow_le_pow_right Nat.two_pos (Nat.not_lt.mp hiw)))
        simp [hik, hzero]
    · simp [hik, Nat.lt_of_not_le hik]
  · have hle : 2 ^ w ≤ 2 ^ k := Nat.pow_le_pow_right Nat.two_pos (Nat.le_of_not_le hk)
    rw [Nat.sub_eq_zero_of_le hle, Nat.and_zero, Nat.div_eq_of_lt (ht.trans_le hle), Nat.zero_mul]

end NodeFuzzer
