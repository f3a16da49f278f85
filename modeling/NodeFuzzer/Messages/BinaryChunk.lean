import NodeFuzzer.Library.Bytes

/-!
# Binary chunks

`BinaryChunk` of `binary_message.rs`: the size of a content in two bytes and the content.
A chunk is made from its content or from its raw bytes, and in both cases the size is that
of the content, which is the field `sized` here.
-/

namespace NodeFuzzer

/-- Size in bytes of the content length field. -/
def CONTENT_LENGTH_FIELD_BYTES : Nat := 2

/-- Max allowed message length in bytes. -/
def CONTENT_LENGTH_MAX : Nat := 65535

/-- `BinaryChunkError`. -/
inductive BinaryChunkError where
  | overflowError
  | missingSizeInformation
  | incorrectSizeInformation (expected actual : Nat)
deriving DecidableEq

/-- `BinaryChunk`.  No value is made whose first two bytes are not the size of the rest. -/
structure BinaryChunk where
  raw : Bytes
  sized : raw.take 2 = toBe 2 (raw.length - 2) ∧ 2 ≤ raw.length ∧ raw.length - 2 ≤ CONTENT_LENGTH_MAX
deriving DecidableEq

namespace BinaryChunk

/-- `content`. -/
def content (chunk : BinaryChunk) : Bytes := chunk.raw.drop CONTENT_LENGTH_FIELD_BYTES

/-- The number in the first two bytes, `get_u16`. -/
def getU16 (raw : Bytes) : Nat := ofBe (raw.take 2)

theorem ext {c d : BinaryChunk} (h : c.raw = d.raw) : c = d := by
  cases c
  cases d
  cases h
  rfl

theorem sized_content {content : Bytes} (h : content.length ≤ CONTENT_LENGTH_MAX) :
    (toBe 2 content.length ++ content).take 2 =
        toBe 2 ((toBe 2 content.length ++ content).length - 2) ∧
      2 ≤ (toBe 2 content.length ++ content).length ∧
      (toBe 2 content.length ++ content).length - 2 ≤ CONTENT_LENGTH_MAX := by
  have hlen : (toBe 2 content.length ++ content).length - 2 = content.length := by simp
  refine ⟨?_, by simp, ?_⟩
  · rw [hlen, List.take_left' (toBe_length 2 _)]
  · rw [hlen]
    exact h

/-- `from_content`. -/
def fromContent (content : Bytes) : Except BinaryChunkError BinaryChunk :=
  if h : content.length ≤ CONTENT_LENGTH_MAX then
    .ok ⟨toBe 2 content.length ++ content, sized_content h⟩
  else .error .overflowError

theorem sized_raw {raw : Bytes} (hlen : ¬ raw.length < CONTENT_LENGTH_FIELD_BYTES)
    (hmax : raw.length ≤ CONTENT_LENGTH_MAX + CONTENT_LENGTH_FIELD_BYTES)
    (h : getU16 raw + CONTENT_LENGTH_FIELD_BYTES = raw.length) :
    raw.take 2 = toBe 2 (raw.length - 2) ∧ 2 ≤ raw.length ∧ raw.length - 2 ≤ CONTENT_LENGTH_MAX := by
  unfold CONTENT_LENGTH_FIELD_BYTES at hlen hmax h
  have htake : (raw.take 2).length = 2 := by simp; omega
  refine ⟨?_, by omega, by omega⟩
  rw [← h, Nat.add_sub_cancel, getU16]
  have hback := toBe_ofBe (raw.take 2)
  rw [htake] at hback
  exact hback.symm

/-- `TryFrom<Vec<u8>>`. -/
def tryFrom (value : Bytes) : Except BinaryChunkError BinaryChunk :=
  if hlen : value.length < CONTENT_LENGTH_FIELD_BYTES then .error .missingSizeInformation
  else if hmax : value.length ≤ CONTENT_LENGTH_MAX + CONTENT_LENGTH_FIELD_BYTES then
    let expectedContentLength := getU16 value
    if h : expectedContentLength + CONTENT_LENGTH_FIELD_BYTES = value.length then
      .ok ⟨value, sized_raw hlen hmax h⟩
    else .error (.incorrectSizeInformation expectedContentLength value.length)
  else .error .overflowError

/-- The first two bytes are the size of the content. -/
theorem getU16_raw (chunk : BinaryChunk) : getU16 chunk.raw = chunk.content.length := by
  obtain ⟨hsize, _, hmax⟩ := chunk.sized
  rw [getU16, hsize, content, CONTENT_LENGTH_FIELD_BYTES, List.length_drop]
  exact ofBe_toBe_of_lt (Nat.lt_of_le_of_lt hmax (by decide))

theorem length_raw (chunk : BinaryChunk) : chunk.raw.length = chunk.content.length + 2 := by
  have := chunk.sized.2.1
  rw [content, CONTENT_LENGTH_FIELD_BYTES, List.length_drop]
  omega

theorem tryFrom_raw (chunk : BinaryChunk) : tryFrom chunk.raw = .ok chunk := by
  have hlen := chunk.length_raw
  have hmax := chunk.sized.2.2
  have hsize := chunk.getU16_raw
  have h₁ : ¬ chunk.raw.length < CONTENT_LENGTH_FIELD_BYTES := by
    rw [hlen, CONTENT_LENGTH_FIELD_BYTES]
    omega
  have h₂ : chunk.raw.length ≤ CONTENT_LENGTH_MAX + CONTENT_LENGTH_FIELD_BYTES := by
    rw [CONTENT_LENGTH_FIELD_BYTES]
    omega
  have h₃ : getU16 chunk.raw + CONTENT_LENGTH_FIELD_BYTES = chunk.raw.length := by
    rw [hsize, hlen, CONTENT_LENGTH_FIELD_BYTES]
  simp only [tryFrom, dif_neg h₁, dif_pos h₂, dif_pos h₃]

theorem fromContent_ok {content : Bytes} (h : content.length ≤ CONTENT_LENGTH_MAX) :
    ∃ chunk, fromContent content = .ok chunk ∧ chunk.content = content := by
  refine ⟨⟨toBe 2 content.length ++ content, sized_content h⟩, dif_pos h, ?_⟩
  exact List.drop_left' (toBe_length 2 _)

end BinaryChunk

end NodeFuzzer
