import NodeFuzzer.Library.Bytes

/-!
# Places in a UTF-8 text

A text is kept as its bytes, and a place in it is an index of a byte.  `isCharBoundary` looks at
one byte only; on an encoded text it finds the places where a character starts or the text ends
(`isCharBoundary_encode`).  `boundary_near` finds one of them in every four places.
-/

namespace NodeFuzzer.Utf8

/-- `is_utf8_char_boundary`, of a byte. -/
def isUtf8CharBoundary (b : UInt8) : Bool := b.toNat < 128 || 192 ≤ b.toNat

/-- `str::is_char_boundary`. -/
def isCharBoundary (data : Bytes) (index : Nat) : Bool :=
  if index = 0 then true
  else if h : index < data.length then isUtf8CharBoundary data[index]
  else index == data.length

/-- `String::truncate`, which panics off a boundary. -/
def truncate (data : Bytes) (newLen : Nat) : Option Bytes :=
  if newLen ≤ data.length then
    if isCharBoundary data newLen then some (data.take newLen) else none
  else some data

/-- The bytes of the characters. -/
def encode (cs : List Char) : Bytes := cs.flatMap String.utf8EncodeChar

/-- The number of bytes of the characters. -/
def width (cs : List Char) : Nat := (cs.map Char.utf8Size).sum

@[simp] theorem encode_nil : encode [] = [] := rfl

@[simp] theorem encode_cons (c : Char) (cs : List Char) :
    encode (c :: cs) = String.utf8EncodeChar c ++ encode cs := rfl

@[simp] theorem encode_append (cs ds : List Char) : encode (cs ++ ds) = encode cs ++ encode ds := by
  simp [encode]

@[simp] theorem width_nil : width [] = 0 := rfl

@[simp] theorem width_cons (c : Char) (cs : List Char) :
    width (c :: cs) = c.utf8Size + width cs := rfl

@[simp] theorem length_encode (cs : List Char) : (encode cs).length = width cs := by
  induction cs with
  | nil => rfl
  | cons c cs ih => simp [ih]

theorem length_le_width (cs : List Char) : cs.length ≤ width cs := by
  induction cs with
  | nil => simp
  | cons c cs ih =>
      have := c.utf8Size_pos
      simp only [List.length_cons, width_cons]
      omega

theorem isUtf8CharBoundary_tail (n : Nat) :
    isUtf8CharBoundary (UInt8.ofNat (n % 64) + 128) = false := by
  have low : n % 64 < 64 := Nat.mod_lt n (by decide)
  have byte : (UInt8.ofNat (n % 64) + 128).toNat = n % 64 + 128 := by
    rw [UInt8.toNat_add, UInt8.toNat_ofNat']
    show (n % 64 % 256 + 128) % 256 = _
    omega
  simp only [isUtf8CharBoundary, byte]
  simp [low]

theorem isUtf8CharBoundary_lead {n : Nat} (h : n < 256) (lead : n < 128 ∨ 192 ≤ n) :
    isUtf8CharBoundary (UInt8.ofNat n) = true := by
  simp [isUtf8CharBoundary, Nat.mod_eq_of_lt h, lead]

/-- Of the bytes of a character only the first is a boundary. -/
theorem exists_lead_tail (c : Char) : ∃ lead tail, String.utf8EncodeChar c = lead :: tail ∧
    isUtf8CharBoundary lead = true ∧ ∀ b ∈ tail, isUtf8CharBoundary b = false := by
  rw [String.utf8EncodeChar]
  generalize c.val.toNat = v
  split
  · exact ⟨_, _, rfl, isUtf8CharBoundary_lead (by omega) (by omega), by simp⟩
  split
  · refine ⟨_, _, rfl, isUtf8CharBoundary_lead (by omega) (by omega), ?_⟩
    simp [isUtf8CharBoundary_tail]
  split
  · refine ⟨_, _, rfl, isUtf8CharBoundary_lead (by omega) (by omega), ?_⟩
    simp [isUtf8CharBoundary_tail]
  · refine ⟨_, _, rfl, isUtf8CharBoundary_lead (by omega) (by omega), ?_⟩
    simp [isUtf8CharBoundary_tail]

@[simp] theorem isCharBoundary_zero (data : Bytes) : isCharBoundary data 0 = true := rfl

/-- Away from the start of a text, what stands before makes no difference. -/
theorem isCharBoundary_append (pre data : Bytes) {i : Nat} (hi : 0 < i) :
    isCharBoundary (pre ++ data) (pre.length + i) = isCharBoundary data i := by
  have pos : pre.length + i ≠ 0 := by omega
  unfold isCharBoundary
  simp only [pos, Nat.ne_of_gt hi, if_false, List.length_append, Nat.add_lt_add_iff_left]
  split
  next => rw [List.getElem_append_right (Nat.le_add_right _ _)]; simp
  next => simp

/-- A text starts with a boundary or is empty. -/
theorem isCharBoundary_append_encode (pre : Bytes) (cs : List Char) :
    isCharBoundary (pre ++ encode cs) pre.length = true := by
  unfold isCharBoundary
  split
  next => rfl
  next =>
    cases cs with
    | nil => simp
    | cons c cs =>
        obtain ⟨lead, tail, enc, hlead, -⟩ := exists_lead_tail c
        simp [enc, hlead]

/-- Inside its first character a text has no boundary, and after it the boundaries are those of
the rest. -/
theorem isCharBoundary_encode_cons (c : Char) (cs : List Char) (i : Nat) :
    isCharBoundary (encode (c :: cs)) (i + 1) =
      if c.utf8Size ≤ i + 1 then isCharBoundary (encode cs) (i + 1 - c.utf8Size) else false := by
  rw [encode_cons]
  split
  next hle =>
    rw [← String.length_utf8EncodeChar] at hle ⊢
    obtain ⟨k, hk⟩ := Nat.exists_eq_add_of_le hle
    rw [hk, Nat.add_sub_cancel_left]
    cases k with
    | zero => exact isCharBoundary_append_encode _ cs
    | succ k => exact isCharBoundary_append _ _ (Nat.succ_pos k)
  next hlt =>
    obtain ⟨lead, tail, enc, -, htail⟩ := exists_lead_tail c
    rw [← String.length_utf8EncodeChar, enc, List.length_cons, Nat.add_le_add_iff_right,
      Nat.not_le] at hlt
    have inside : i + 1 < (lead :: tail ++ encode cs).length := by simp; omega
    have byte : (lead :: tail ++ encode cs)[i + 1] = tail[i] := by
      simp [List.getElem_append_left hlt]
    rw [enc, isCharBoundary, if_neg (Nat.succ_ne_zero i), dif_pos inside, byte]
    exact htail _ (List.getElem_mem hlt)

/-- Every four places in a row hold a boundary. -/
theorem boundary_near (cs : List Char) {i : Nat} (h : i ≤ width cs) :
    ∃ j, j ≤ i ∧ i < j + 4 ∧ isCharBoundary (encode cs) j = true := by
  induction cs generalizing i with
  | nil => exact ⟨0, Nat.zero_le i, by simp_all, rfl⟩
  | cons c cs ih =>
      have size := c.utf8Size_pos
      have four := c.utf8Size_le_four
      rw [width_cons] at h
      rcases Nat.lt_or_ge i c.utf8Size with hlt | hle
      · exact ⟨0, Nat.zero_le i, by omega, rfl⟩
      · obtain ⟨j, hji, hij, hj⟩ := ih (i := i - c.utf8Size) (by omega)
        refine ⟨j + c.utf8Size, by omega, by omega, ?_⟩
        obtain ⟨k, hk⟩ : ∃ k, j + c.utf8Size = k + 1 := ⟨j + c.utf8Size - 1, by omega⟩
        rw [hk, isCharBoundary_encode_cons, ← hk, if_pos (Nat.le_add_left _ _), Nat.add_sub_cancel]
        exact hj

end NodeFuzzer.Utf8
