import NodeFuzzer.Crypto.CryptoBox
import NodeFuzzer.Generator.RandomState
import NodeFuzzer.Messages.BinaryChunk

/-!
# Cutting bytes into chunks

`gen_chunks` and `gen_byte_chunks` draw sizes until nothing remains, shuffle them and cut
the bytes along them.  `write_bytes_encrypted` has a plain split into pieces of the largest
size.  Whatever is drawn, the pieces are not empty and their concatenation is the input;
each sealed piece opens under its own nonce.
-/

namespace NodeFuzzer

variable {Key : Type} [CryptoBox Key]

namespace RandomState

/-- `bytes[start..stop]`; `none` is a panic. -/
def slice (bytes : Bytes) (start stop : Nat) : Option Bytes :=
  if start ≤ stop ∧ stop ≤ bytes.length then some ((bytes.drop start).take (stop - start)) else none

/-- The loop that draws the sizes, with `gen remaining` as the next one.  At most `fuel`
passes are made. -/
def drawSizes (gen : Nat → Gen Nat) : Nat → Nat → Gen (List Nat)
  | 0, _ => Exec.abort
  | fuel + 1, remaining =>
      if remaining ≤ 1 then pure (if remaining = 1 then [1] else [])
      else do
        let size ← gen remaining
        if size ≤ remaining then do
          let sizes ← drawSizes gen fuel (remaining - size)
          pure (size :: sizes)
        else Exec.abort

/-- The sizes, in the order in which the bytes are cut. -/
def shuffledSizes (gen : Nat → Gen Nat) (length : Nat) : Gen (List Nat) := do
  let sizes ← drawSizes gen length.succ length
  shuffle sizes

/-- Seal one piece and put it into a chunk. -/
def sealPiece (key : Key) (piece : Bytes) (nonce : Nonce) : Gen BinaryChunk := do
  let enc ← Exec.unwrap (encrypt key piece nonce)
  Exec.unwrap (BinaryChunk.fromContent enc)

/-- The loop of `gen_chunks` over the sizes. -/
def cutChunks (key : Key) (bytes : Bytes) : List Nat → Nat → Nonce → Gen (List BinaryChunk × Nonce)
  | [], _, nonce => pure ([], nonce)
  | size :: sizes, start, nonce => do
      let piece ← Exec.orAbort (slice bytes start (start + size))
      let chunk ← sealPiece key piece nonce
      let (chunks, nonce) ← cutChunks key bytes sizes (start + size) nonce.increment
      pure (chunk :: chunks, nonce)

/-- `max_size` of `gen_chunks`. -/
def maxSize (s : RandomState) : Nat := min s.maxChunkSize (CONTENT_LENGTH_MAX - MACBYTES)

/-- The next size `gen_chunks` draws. -/
def chunkSize (maxSize remaining : Nat) : Gen Nat :=
  match maxSize with
  | 1 => pure 1
  | _ => genRange 1 (min remaining maxSize)

/-- `gen_chunks`: the chunks, and the nonce after them. -/
def genChunks (bytes : Bytes) (key : Key) (nonce : Nonce) : Gen (List BinaryChunk × Nonce) := do
  let maxSize ← Exec.gets maxSize
  let chunkSizes ← shuffledSizes (chunkSize maxSize) bytes.length
  cutChunks key bytes chunkSizes 0 nonce

/-- The loop of `gen_byte_chunks` over the sizes. -/
def cutBytes (bytes : Bytes) : List Nat → Nat → Gen (List Bytes)
  | [], _ => pure []
  | size :: sizes, start => do
      let piece ← Exec.orAbort (slice bytes start (start + size))
      let pieces ← cutBytes bytes sizes (start + size)
      pure (piece :: pieces)

/-- `gen_byte_chunks`. -/
def genByteChunks (bytes : Bytes) : Gen (List Bytes) := do
  let chunkSizes ← shuffledSizes (genRange 1) bytes.length
  cutBytes bytes chunkSizes 0

/-- `chunks` of a slice: pieces of `size` bytes, the last one of what remains. -/
def chunksOf (size : Nat) : Nat → Bytes → List Bytes
  | 0, _ => []
  | _ + 1, [] => []
  | fuel + 1, b :: bytes => (b :: bytes).take size :: chunksOf size fuel ((b :: bytes).drop size)

/-- The pieces of the plain split. -/
def plainPieces (bytes : Bytes) : List Bytes :=
  chunksOf (CONTENT_LENGTH_MAX - MACBYTES) bytes.length bytes

/-- Seal the pieces one after the other. -/
def sealPieces (key : Key) : List Bytes → Nonce → Gen (List BinaryChunk × Nonce)
  | [], nonce => pure ([], nonce)
  | piece :: pieces, nonce => do
      let chunk ← sealPiece key piece nonce
      let (chunks, nonce) ← sealPieces key pieces nonce.increment
      pure (chunk :: chunks, nonce)

/-- The plain split of `write_bytes_encrypted`. -/
def plainChunks (bytes : Bytes) (key : Key) (nonce : Nonce) : Gen (List BinaryChunk × Nonce) :=
  sealPieces key (plainPieces bytes) nonce

/-! ## Sizes -/

variable {s : RandomState} {E : RandomState → Prop}

/-- Sizes along which bytes can be cut. -/
structure Sizes (length max : Nat) (sizes : List Nat) : Prop where
  sum : sizes.sum = length
  pos : ∀ size ∈ sizes, 1 ≤ size ∧ size ≤ max

theorem Sizes.perm {length max : Nat} {sizes sizes' : List Nat} (h : Sizes length max sizes)
    (perm : sizes'.Perm sizes) : Sizes length max sizes' :=
  ⟨perm.sum_eq.trans h.sum, fun size mem => h.pos size (perm.mem_iff.mp mem)⟩

/-- Drawing sizes ends, with sizes that add up to what was there. -/
theorem wp_drawSizes {gen : Nat → Gen Nat} {max length fuel remaining : Nat} (hmax : 1 ≤ max)
    (enough : remaining < fuel) (hle : remaining ≤ length)
    (next : ∀ remaining s, 1 < remaining → remaining ≤ length → Exec.wp (gen remaining)
      (fun size t => (1 ≤ size ∧ size ≤ max ∧ size ≤ remaining) ∧ SameBut s t) (fun _ => False) s) :
    Exec.wp (drawSizes gen fuel remaining)
      (fun sizes t => Sizes remaining max sizes ∧ SameBut s t) (fun _ => False) s := by
  induction fuel generalizing remaining s with
  | zero => exact absurd enough (Nat.not_lt_zero _)
  | succ fuel ih =>
      rw [drawSizes]
      split
      next hsmall =>
        refine ⟨⟨?_, ?_⟩, rfl⟩
        · split <;> simp <;> omega
        · intro size mem
          split at mem
          · simp only [List.mem_singleton] at mem
            omega
          · cases mem
      next hlarge =>
        rw [Exec.wp_bind]
        refine Exec.wp_mono (next remaining s (Nat.not_le.mp hlarge) hle) ?_ fun _ h => h
        intro size t h
        obtain ⟨⟨hpos, hbound, hfits⟩, same⟩ := h
        rw [if_pos hfits, Exec.wp_bind]
        have rest := @ih t (remaining - size) (by omega) (by omega)
        refine Exec.wp_mono rest ?_ fun _ h => h
        intro sizes t' h
        obtain ⟨drawn, same'⟩ := h
        refine ⟨⟨?_, ?_⟩, ?_⟩
        · rw [List.sum_cons, drawn.sum]
          omega
        · intro size' mem
          obtain rfl | mem := List.mem_cons.mp mem
          · exact ⟨hpos, hbound⟩
          · exact drawn.pos size' mem
        · rw [SameBut] at same same' ⊢
          rw [same', same]

theorem wp_shuffledSizes {gen : Nat → Gen Nat} {max length : Nat} (hmax : 1 ≤ max)
    (next : ∀ remaining s, 1 < remaining → remaining ≤ length → Exec.wp (gen remaining)
      (fun size t => (1 ≤ size ∧ size ≤ max ∧ size ≤ remaining) ∧ SameBut s t) (fun _ => False) s) :
    Exec.wp (shuffledSizes gen length) (fun sizes _ => Sizes length max sizes) (fun _ => False) s := by
  rw [shuffledSizes, Exec.wp_bind]
  refine Exec.wp_mono (wp_drawSizes hmax (Nat.lt_succ_self length) le_rfl next) ?_ fun _ h => h
  intro sizes t h
  obtain ⟨drawn, _⟩ := h
  exact wp_shuffle fun sizes' rng perm => drawn.perm perm

/-- A size of `gen_chunks` is below the maximum, or one. -/
theorem wp_chunkSize {max remaining : Nat} (hmax : 1 ≤ max) (hlarge : 1 < remaining) :
    Exec.wp (chunkSize max remaining)
      (fun size t => (1 ≤ size ∧ size ≤ max ∧ size ≤ remaining) ∧ SameBut s t) (fun _ => False) s := by
  unfold chunkSize
  split
  next =>
    simp only [Exec.wp_pure]
    exact ⟨by omega, rfl⟩
  next hne =>
    have hmany : max ≠ 1 := fun h => hne h
    have hrange : 1 < min remaining max := by omega
    exact wp_genRange hrange fun n rng hlo hhi => ⟨by omega, rfl⟩

theorem wp_byteSize {length remaining : Nat} (hle : remaining ≤ length) (hlarge : 1 < remaining) :
    Exec.wp (genRange 1 remaining)
      (fun size t => (1 ≤ size ∧ size ≤ length ∧ size ≤ remaining) ∧ SameBut s t)
      (fun _ => False) s :=
  wp_genRange hlarge fun n rng hlo hhi => ⟨by omega, rfl⟩

/-! ## Pieces -/

/-- Pieces of some bytes: none is empty or too long, and nothing is lost. -/
structure Pieces (bytes : Bytes) (max : Nat) (pieces : List Bytes) : Prop where
  flatten : pieces.flatten = bytes
  bounds : ∀ piece ∈ pieces, piece ≠ [] ∧ piece.length ≤ max

theorem Pieces.cons {bytes : Bytes} {max size : Nat} {pieces : List Bytes} (hpos : 1 ≤ size)
    (hle : size ≤ max) (hfits : size ≤ bytes.length) (rest : Pieces (bytes.drop size) max pieces) :
    Pieces bytes max (bytes.take size :: pieces) := by
  refine ⟨?_, ?_⟩
  · rw [List.flatten_cons, rest.flatten, List.take_append_drop]
  · intro piece mem
    obtain rfl | mem := List.mem_cons.mp mem
    · have hlen : (bytes.take size).length = size := List.length_take_of_le hfits
      refine ⟨fun hnil => ?_, by omega⟩
      rw [hnil] at hlen
      exact absurd hlen (by simp; omega)
    · exact rest.bounds piece mem

theorem slice_some {bytes : Bytes} {start size : Nat} (h : start + size ≤ bytes.length) :
    slice bytes start (start + size) = some ((bytes.drop start).take size) := by
  rw [slice, if_pos ⟨Nat.le_add_right _ _, h⟩, Nat.add_sub_cancel_left]

theorem wp_cutBytes {bytes : Bytes} {max start : Nat} {sizes : List Nat}
    (cut : Sizes (bytes.length - start) max sizes) (hstart : start ≤ bytes.length) :
    Exec.wp (cutBytes bytes sizes start) (fun pieces _ => Pieces (bytes.drop start) max pieces)
      (fun _ => False) s := by
  induction sizes generalizing start with
  | nil =>
      have hsum := cut.sum
      rw [List.sum_nil] at hsum
      refine ⟨?_, nofun⟩
      rw [List.flatten_nil, List.drop_eq_nil_of_le (by omega)]
  | cons size sizes ih =>
      have hsum := cut.sum
      rw [List.sum_cons] at hsum
      obtain ⟨hpos, hle⟩ := cut.pos size List.mem_cons_self
      have hrest : Sizes (bytes.length - (start + size)) max sizes :=
        ⟨by omega, fun size' mem => cut.pos size' (List.mem_cons_of_mem _ mem)⟩
      have hfits : start + size ≤ bytes.length := by omega
      rw [cutBytes, slice_some hfits, Exec.wp_bind]
      refine (Exec.wp_pure _).mpr ?_
      rw [Exec.wp_bind]
      refine Exec.wp_mono (ih hrest hfits) ?_ fun _ h => h
      intro pieces t rest
      rw [← List.drop_drop] at rest
      exact rest.cons hpos hle (by rw [List.length_drop]; omega)

/-- The chunks open one after the other, from a nonce on, to the pieces, and the first two
bytes of each are the size of its content. -/
def Opens (key : Key) : Nonce → List BinaryChunk → List Bytes → Prop
  | _, [], [] => True
  | nonce, chunk :: chunks, piece :: pieces =>
      decrypt key chunk.content nonce = .ok piece ∧
        BinaryChunk.getU16 chunk.raw = chunk.content.length ∧ Opens key nonce.increment chunks pieces
  | _, _, _ => False

theorem wp_sealPiece (correct : CryptoBox.Correct Key) (key : Key) {piece : Bytes} {nonce : Nonce}
    (hnonce : nonce.value < 2 ^ 192) (hle : piece.length ≤ CONTENT_LENGTH_MAX - MACBYTES) :
    Exec.wp (sealPiece key piece nonce)
      (fun chunk _ => decrypt key chunk.content nonce = .ok piece) (fun _ => False) s := by
  obtain ⟨enc, hencrypt, hlen, hdecrypt⟩ := encrypt_ok correct key piece hnonce
  have hmax : enc.length ≤ CONTENT_LENGTH_MAX := by
    rw [hlen]
    unfold CONTENT_LENGTH_MAX MACBYTES at *
    omega
  obtain ⟨chunk, hchunk, hcontent⟩ := BinaryChunk.fromContent_ok hmax
  rw [sealPiece, Exec.wp_bind, hencrypt, Exec.wp_unwrap_ok, hchunk, Exec.wp_unwrap_ok, hcontent]
  exact hdecrypt

/-- What a split into sealed chunks leaves: the chunks open to pieces of the bytes, and the
nonce counts them. -/
def Lossless (key : Key) (bytes : Bytes) (max : Nat) (nonce : Nonce)
    (result : List BinaryChunk × Nonce) : Prop :=
  ∃ pieces, Pieces bytes max pieces ∧ Opens key nonce result.1 pieces ∧
    result.2 = nonce.after result.1.length

theorem wp_sealPieces (correct : CryptoBox.Correct Key) (key : Key) {pieces : List Bytes}
    {nonce : Nonce} (hnonce : nonce.value + pieces.length ≤ 2 ^ 192)
    (hle : ∀ piece ∈ pieces, piece.length ≤ CONTENT_LENGTH_MAX - MACBYTES) :
    Exec.wp (sealPieces key pieces nonce) (fun result _ => Opens key nonce result.1 pieces ∧
      result.2 = nonce.after result.1.length) (fun _ => False) s := by
  induction pieces generalizing nonce s with
  | nil => exact ⟨trivial, rfl⟩
  | cons piece pieces ih =>
      rw [List.length_cons] at hnonce
      rw [sealPieces, Exec.wp_bind]
      refine Exec.wp_mono (wp_sealPiece correct key (by omega) (hle piece List.mem_cons_self)) ?_
        fun _ h => h
      intro chunk t hopen
      rw [Exec.wp_bind]
      have rest := @ih t nonce.increment (by simp only [Nonce.increment]; omega)
        fun piece mem => hle piece (List.mem_cons_of_mem _ mem)
      refine Exec.wp_mono rest ?_ fun _ h => h
      intro result t' h
      obtain ⟨hrest, hcount⟩ := h
      refine ⟨⟨hopen, chunk.getU16_raw, hrest⟩, ?_⟩
      rw [hcount, List.length_cons, Nonce.increment_after]

theorem wp_cutChunks (correct : CryptoBox.Correct Key) (key : Key) {bytes : Bytes}
    {max start : Nat} {sizes : List Nat} {nonce : Nonce}
    (cut : Sizes (bytes.length - start) max sizes) (hstart : start ≤ bytes.length)
    (hmax : max ≤ CONTENT_LENGTH_MAX - MACBYTES)
    (hnonce : nonce.value + sizes.length ≤ 2 ^ 192) :
    Exec.wp (cutChunks key bytes sizes start nonce)
      (fun result _ => Lossless key (bytes.drop start) max nonce result) (fun _ => False) s := by
  induction sizes generalizing start nonce s with
  | nil =>
      have hsum := cut.sum
      rw [List.sum_nil] at hsum
      refine ⟨[], ⟨?_, by simp⟩, trivial, rfl⟩
      rw [List.flatten_nil, List.drop_eq_nil_of_le (by omega)]
  | cons size sizes ih =>
      have hsum := cut.sum
      rw [List.sum_cons] at hsum
      rw [List.length_cons] at hnonce
      obtain ⟨hpos, hle⟩ := cut.pos size List.mem_cons_self
      have hrest : Sizes (bytes.length - (start + size)) max sizes :=
        ⟨by omega, fun size' mem => cut.pos size' (List.mem_cons_of_mem _ mem)⟩
      have hfits : start + size ≤ bytes.length := by omega
      have hpiece : ((bytes.drop start).take size).length ≤ CONTENT_LENGTH_MAX - MACBYTES :=
        (List.length_take_le _ _).trans (hle.trans hmax)
      rw [cutChunks, slice_some hfits, Exec.wp_bind]
      refine (Exec.wp_pure _).mpr ?_
      rw [Exec.wp_bind]
      refine Exec.wp_mono (wp_sealPiece correct key (by omega) hpiece) ?_ fun _ h => h
      intro chunk t hopen
      rw [Exec.wp_bind]
      have next := @ih t (start + size) nonce.increment hrest hfits
        (by simp only [Nonce.increment]; omega)
      refine Exec.wp_mono next ?_ fun _ h => h
      intro result t' h
      obtain ⟨pieces, hpieces, hopens, hcount⟩ := h
      rw [← List.drop_drop] at hpieces
      refine ⟨_ :: pieces, hpieces.cons hpos hle (by rw [List.length_drop]; omega),
        ⟨hopen, chunk.getU16_raw, hopens⟩, ?_⟩
      rw [hcount, List.length_cons, Nonce.increment_after]

theorem chunksOf_pieces {size fuel : Nat} {bytes : Bytes} (hsize : 1 ≤ size)
    (enough : bytes.length ≤ fuel) : Pieces bytes size (chunksOf size fuel bytes) := by
  induction fuel generalizing bytes with
  | zero =>
      have : bytes = [] := List.length_eq_zero_iff.mp (Nat.le_zero.mp enough)
      subst this
      exact ⟨rfl, nofun⟩
  | succ fuel ih =>
      cases bytes with
      | nil => exact ⟨rfl, nofun⟩
      | cons b bytes =>
          have rest : Pieces ((b :: bytes).drop size) size
              (chunksOf size fuel ((b :: bytes).drop size)) := ih (by
            rw [List.length_drop]
            rw [List.length_cons] at enough ⊢
            omega)
          rw [chunksOf]
          by_cases hfits : size ≤ (b :: bytes).length
          · exact rest.cons hsize le_rfl hfits
          · -- The last piece takes all that remains.
            have hall : (b :: bytes).take size = (b :: bytes).take (b :: bytes).length := by
              rw [List.take_of_length_le (Nat.le_of_not_le hfits), List.take_length]
            have hnone : (b :: bytes).drop size = (b :: bytes).drop (b :: bytes).length := by
              rw [List.drop_of_length_le (Nat.le_of_not_le hfits), List.drop_length]
            rw [hnone] at rest ⊢
            rw [hall]
            exact rest.cons (Nat.succ_pos _) (Nat.le_of_not_le hfits) le_rfl

/-- Nothing is lost when bytes are cut into chunks, whatever is drawn: by `gen_chunks`, by
the plain split of `write_bytes_encrypted`, and by `gen_byte_chunks`. -/
theorem chunking_lossless (correct : CryptoBox.Correct Key) (s : RandomState) (bytes : Bytes)
    (key : Key) (nonce : Nonce) :
    (1 ≤ s.maxChunkSize →
      (∀ sizes t, shuffledSizes (chunkSize s.maxSize) bytes.length s = (.ok sizes, t) →
        nonce.value + sizes.length ≤ 2 ^ 192) →
      ∃ result t, genChunks bytes key nonce s = (.ok result, t) ∧
        Lossless key bytes (min s.maxChunkSize (CONTENT_LENGTH_MAX - MACBYTES)) nonce result) ∧
    (nonce.value + (plainPieces bytes).length ≤ 2 ^ 192 →
      ∃ result t, plainChunks bytes key nonce s = (.ok result, t) ∧
        Lossless key bytes (CONTENT_LENGTH_MAX - MACBYTES) nonce result) ∧
    (∃ pieces t, genByteChunks bytes s = (.ok pieces, t) ∧ pieces.flatten = bytes ∧
      ∀ piece ∈ pieces, piece ≠ []) := by
  refine ⟨fun hpos hnonce => ?_, fun hnonce => ?_, ?_⟩
  · have hmax : 1 ≤ s.maxSize := by
      unfold maxSize CONTENT_LENGTH_MAX MACBYTES
      omega
    obtain ⟨sizes, t, hdraw, hsizes⟩ := Exec.wp_returns (s := s)
      (@wp_shuffledSizes s (chunkSize s.maxSize) s.maxSize bytes.length hmax
        fun remaining t hlarge _ => wp_chunkSize hmax hlarge)
    have run : genChunks bytes key nonce s = cutChunks key bytes sizes 0 nonce t := by
      show (shuffledSizes (chunkSize s.maxSize) bytes.length >>=
        fun sizes => cutChunks key bytes sizes 0 nonce) s = _
      exact Exec.bind_ok hdraw
    rw [run]
    exact Exec.wp_returns (wp_cutChunks correct key hsizes (Nat.zero_le _) (Nat.min_le_right _ _)
      (hnonce sizes t hdraw))
  · have hpieces : Pieces bytes (CONTENT_LENGTH_MAX - MACBYTES) (plainPieces bytes) :=
      chunksOf_pieces (by decide) le_rfl
    obtain ⟨result, t, run, hopens, hcount⟩ := Exec.wp_returns (s := s)
      (wp_sealPieces correct key hnonce fun piece mem => (hpieces.bounds piece mem).2)
    exact ⟨result, t, run, _, hpieces, hopens, hcount⟩
  · have cut : Exec.wp (genByteChunks bytes) (fun pieces _ => Pieces bytes (max 1 bytes.length) pieces)
        (fun _ => False) s := by
      rw [genByteChunks, Exec.wp_bind]
      have sizes := @wp_shuffledSizes s (genRange 1) (max 1 bytes.length) bytes.length
        (le_max_left _ _) fun remaining t hlarge hle =>
          wp_byteSize (hle.trans (le_max_right _ _)) hlarge
      refine Exec.wp_mono sizes ?_ fun _ h => h
      intro sizes t hsizes
      exact wp_cutBytes hsizes (Nat.zero_le _)
    obtain ⟨pieces, t, run, hpieces⟩ := Exec.wp_returns cut
    exact ⟨pieces, t, run, hpieces.flatten, fun piece mem => (hpieces.bounds piece mem).1⟩

theorem chunking_lossless_three :
    ∃ result t, genChunks [1, 2, 3] PlainKey.plain ⟨7⟩ (new ⟨fun _ => 0⟩ 0 2) = (.ok result, t) ∧
      Lossless PlainKey.plain [1, 2, 3] 2 ⟨7⟩ result := by
  refine (chunking_lossless plain_correct (new ⟨fun _ => 0⟩ 0 2) [1, 2, 3] PlainKey.plain ⟨7⟩).1
    (by decide) ?_
  intro sizes t h
  have : sizes = [1, 1, 1] := by
    cases h
    rfl
  rw [this]
  decide

end RandomState

end NodeFuzzer
