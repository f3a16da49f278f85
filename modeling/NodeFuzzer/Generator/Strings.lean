import NodeFuzzer.Generator.RandomState

/-!
# Random strings

`gen_string` draws as many characters as the string may have bytes, and cuts the text at the last
boundary below that number.  `genStringBytes` is the loop of the code, on the bytes of the text;
`genString` is the same loop on the characters (`truncateLoop_encode`).

There is a boundary in every four places, so the cut takes at most four bytes more than it has to.
-/

namespace NodeFuzzer

namespace RandomState

/-- The loop of `gen_string`. -/
def truncateLoop (string : Bytes) : Nat → Option Bytes
  | 0 => some string
  | i + 1 =>
    if Utf8.isCharBoundary string i then Utf8.truncate string i else truncateLoop string i

/-- `gen_string`, on the bytes of the string. -/
def genStringBytes (maxSizeBytes : Nat) : Gen Bytes := do
  let string ← collect maxSizeBytes (genT Char)
  Exec.orAbort (truncateLoop (utf8 (String.ofList string)) maxSizeBytes)

theorem utf8_ofList_eq_encode (cs : List Char) : utf8 (String.ofList cs) = Utf8.encode cs := by
  simp [utf8, List.utf8Encode, Utf8.encode]

/-! ## The loop on the characters -/

variable {cs : List Char} {i : Nat}

theorem isCharBoundary_encode (cs : List Char) (i : Nat) :
    Utf8.isCharBoundary (Utf8.encode cs) i = isCharBoundary cs i := by
  induction cs, i using isCharBoundary.induct with
  | case1 cs => cases cs <;> rfl
  | case2 i => rfl
  | case3 c cs i hle ih =>
      rw [Utf8.isCharBoundary_encode_cons, isCharBoundary, if_pos hle, if_pos hle, ih]
  | case4 c cs i hlt =>
      rw [Utf8.isCharBoundary_encode_cons, isCharBoundary, if_neg hlt, if_neg hlt]

theorem truncate_encode (h : isCharBoundary cs i = true) :
    Utf8.truncate (Utf8.encode cs) i = some (Utf8.encode (truncate cs i)) := by
  obtain ⟨⟨rest, hrest⟩, width⟩ := truncate_spec h
  have bytes : Utf8.encode cs = Utf8.encode (truncate cs i) ++ Utf8.encode rest := by
    rw [← Utf8.encode_append, hrest]
  have len : (Utf8.encode (truncate cs i)).length = i := by rw [Utf8.length_encode, width]
  have fits : i ≤ (Utf8.encode cs).length := by
    rw [bytes, List.length_append, len]
    exact Nat.le_add_right i _
  rw [Utf8.truncate, if_pos fits, if_pos ((isCharBoundary_encode cs i).trans h), bytes,
    List.take_left' len]

/-- The loop never cuts a character, which would panic. -/
theorem truncateLoop_encode (cs : List Char) (n : Nat) :
    truncateLoop (Utf8.encode cs) n = some (Utf8.encode (truncateBelow cs n)) := by
  induction n with
  | zero => rfl
  | succ i ih =>
      rw [truncateLoop, truncateBelow, isCharBoundary_encode]
      split
      next h => exact truncate_encode h
      next => exact ih

/-- The loop stops at the last boundary. -/
theorem truncateBelow_last (cs : List Char) {n : Nat} (hn : 0 < n) : ∃ i < n, isCharBoundary cs i = true ∧
    truncateBelow cs n = truncate cs i ∧ ∀ j < n, isCharBoundary cs j = true → j ≤ i := by
  induction n with
  | zero => cases hn
  | succ n ih =>
      rw [truncateBelow]
      split
      next h => exact ⟨n, Nat.lt_succ_self n, h, rfl, fun j hj _ => Nat.le_of_lt_succ hj⟩
      next h =>
        have pos : 0 < n := by
          refine Nat.pos_of_ne_zero fun zero => h ?_
          rw [zero]
          cases cs <;> rfl
        obtain ⟨i, hi, boundary, eq, last⟩ := ih pos
        refine ⟨i, Nat.lt_succ_of_lt hi, boundary, eq, fun j hj hb => last j ?_ hb⟩
        refine Nat.lt_of_le_of_ne (Nat.le_of_lt_succ hj) ?_
        rintro rfl
        exact h hb

/-- What is kept of a text, when the loop is given as many bytes as the text has characters. -/
theorem truncateBelow_spec {n : Nat} (h : cs.length = n) :
    truncateBelow cs n <+: cs ∧ n - 4 ≤ Utf8.width (truncateBelow cs n) ∧
      Utf8.width (truncateBelow cs n) ≤ n - 1 := by
  rcases Nat.eq_zero_or_pos n with rfl | pos
  · rw [List.length_eq_zero_iff.mp h]
    exact ⟨List.prefix_rfl, Nat.le_refl 0, Nat.le_refl 0⟩
  · obtain ⟨i, hi, boundary, eq, last⟩ := truncateBelow_last cs pos
    obtain ⟨isPrefix, width⟩ := truncate_spec boundary
    rw [eq, width]
    have inside : n - 1 ≤ Utf8.width cs := by
      have := Utf8.length_le_width cs
      omega
    obtain ⟨j, hj, near, hb⟩ := Utf8.boundary_near cs inside
    rw [isCharBoundary_encode] at hb
    have := last j (by omega) hb
    exact ⟨isPrefix, by omega, by omega⟩

/-! ## The drawn text -/

/-- Every scalar value can be drawn. -/
theorem exists_sample (c : Char) : ∃ n, c = Standard.sample n := by
  rcases (show c.toNat.isValidChar from c.valid) with low | high
  · refine ⟨c.toNat, ?_⟩
    have small : c.toNat % (0x110000 - 0x800) = c.toNat := Nat.mod_eq_of_lt (by omega)
    show c = Char.ofNat (if 0x800 + c.toNat % (0x110000 - 0x800) ≤ 0xDFFF then _ else _)
    rw [small, if_pos (by omega), Nat.add_sub_cancel_left, Char.ofNat_toNat]
  · refine ⟨c.toNat - 0x800, ?_⟩
    have small : (c.toNat - 0x800) % (0x110000 - 0x800) = c.toNat - 0x800 :=
      Nat.mod_eq_of_lt (by omega)
    have back : 0x800 + (c.toNat - 0x800) = c.toNat := by omega
    show c = Char.ofNat (if 0x800 + (c.toNat - 0x800) % (0x110000 - 0x800) ≤ 0xDFFF then _ else _)
    rw [small, back, if_neg (by omega), Char.ofNat_toNat]

@[simp] theorem returns_genVec_char {size : Nat} {drawn : List Char} :
    (Draw.genVec Char size).Returns drawn ↔ drawn.length = size := by
  have char : ∀ c, (Draw.genT Char).Returns c := exists_sample
  simp [Draw.genVec, char]

/-- What `gen_string` does after it drew a text. -/
theorem genString_of_drawn {n : Nat} {s s' : RandomState} {drawn : List Char}
    (run : collect n (genT Char) s = (.ok drawn, s')) :
    genStringBytes n s = (.ok (utf8 (String.ofList (truncateBelow drawn n))), s') ∧
      genString n s = (.ok (String.ofList (truncateBelow drawn n)), s') := by
  rw [genStringBytes, genString, Exec.bind_ok run, Exec.bind_ok run, utf8_ofList_eq_encode,
    truncateLoop_encode, utf8_ofList_eq_encode]
  exact ⟨rfl, rfl⟩

/-- A generated string is a part of the text that was drawn, with at most four bytes less than
its bound; and every text can be drawn. -/
theorem genString_budget :
    (∀ maxSizeBytes s, ∃ drawn kept s', collect maxSizeBytes (genT Char) s = (.ok drawn, s') ∧
      drawn.length = maxSizeBytes ∧ kept <+: drawn ∧
      genStringBytes maxSizeBytes s = (.ok (utf8 (String.ofList kept)), s') ∧
      genString maxSizeBytes s = (.ok (String.ofList kept), s') ∧
      maxSizeBytes - 4 ≤ (utf8 (String.ofList kept)).length ∧
      (utf8 (String.ofList kept)).length ≤ maxSizeBytes - 1) ∧
    ∀ (drawn : List Char) (s : RandomState), ∃ rng s',
      collect drawn.length (genT Char) { s with rng := rng } = (.ok drawn, s') := by
  constructor
  · intro n s
    have draws : Exec.wp (genVec Char n) (fun cs _ => cs.length = n) (fun _ => False) s :=
      wp_genVec fun _ _ len => len
    obtain ⟨drawn, s', run, len⟩ := Exec.wp_returns draws
    obtain ⟨bytes, chars⟩ := genString_of_drawn run
    obtain ⟨isPrefix, lower, upper⟩ := truncateBelow_spec len
    rw [← Utf8.length_encode, ← utf8_ofList_eq_encode] at lower upper
    exact ⟨drawn, _, s', run, len, isPrefix, bytes, chars, lower, upper⟩
  · intro drawn s
    obtain ⟨rng, rng', run⟩ : ∃ rng rng',
        ((Draw.genVec Char drawn.length).run : Exec Rng Empty _) rng = (.ok drawn, rng') :=
      Draw.returns_iff_run.mp (returns_genVec_char.mpr rfl)
    refine ⟨rng, { s with rng := rng' }, ?_⟩
    show genVec Char drawn.length _ = _
    rw [← ofDraw_genVec, ofDraw, draws, Exec.onPart]
    simp only [run]

end RandomState

end NodeFuzzer
