import NodeFuzzer.Generator.Chunks

/-!
# Writing messages

`write_bytes`, `write_bytes_encrypted` and `write_msg` of the fuzzer.  A message is cut into
pieces, each is sealed into a chunk, and the bytes of each chunk are written in one go or in
slices.  On the way bits may be flipped and a chunk may be broken off, each with a probability of
the options.

Whatever is drawn, the wire gets the chunks, or their beginnings when they are broken off, and
nothing else (`writeBytesEncrypted_wire`).
-/

namespace NodeFuzzer

variable {Key : Type} [CryptoBox Key]

/-! ## Options -/

/-- A probability as `gen_bool` compares it: one, or the number below which a number of 64 bits
has to be. -/
inductive Chance where
  | always
  | below (pInt : Nat)

/-- The probability is zero. -/
def Chance.Never (chance : Chance) : Prop := chance = .below 0

/-- `gen_bool`. -/
def Chance.toss : Chance → Gen Bool
  | .always => pure true
  | .below pInt => RandomState.draws do
      let v ← Rng.draw
      pure (decide (v % 2 ^ 64 < pInt))

/-- `ChunkOptions`, without the length of a sleep. -/
structure ChunkOptions where
  flipBits : Chance
  splitChunks : Chance
  splitBytes : Chance
  incompleteSend : Chance
  writeBytesSleep : Chance

/-! ## The stream -/

/-- The only error of writing. -/
inductive WriteError where
  | brokenStream
deriving DecidableEq

/-- A stream that is written to: the bytes it took, and how many bytes each of the next writes
gets through before the stream breaks; nothing when all do. -/
structure TcpSink where
  sent : Bytes
  failures : Nat → Option Nat

/-- No write fails any more. -/
def TcpSink.Whole (stream : TcpSink) : Prop := ∀ k, stream.failures k = none

/-- `write_all`. -/
def TcpSink.writeAll (bytes : Bytes) : Exec TcpSink WriteError Unit := fun stream =>
  match stream.failures 0 with
  | none => (.ok (), ⟨stream.sent ++ bytes, fun k => stream.failures (k + 1)⟩)
  | some n =>
      (.err .brokenStream, ⟨stream.sent ++ bytes.take n, fun k => stream.failures (k + 1)⟩)

/-! ## Writing -/

/-- What the fuzzer writes with. -/
structure Sender where
  generator : RandomState
  nonce : Nonce
  stream : TcpSink

namespace Sender

/-- A call of the generator. -/
def draws {α : Type} (x : Gen α) : Exec Sender WriteError α :=
  Exec.mapErr Empty.elim (Exec.onPart generator (fun g s => { s with generator := g }) x)

/-- A call on the stream. -/
def onStream {α : Type} (x : Exec TcpSink WriteError α) : Exec Sender WriteError α :=
  Exec.onPart stream (fun stream s => { s with stream := stream }) x

/-- The loop of `write_bytes`. -/
def writeSlices (options : ChunkOptions) (incompleteSend : Bool) :
    List Bytes → Exec Sender WriteError Unit
  | [] => pure ()
  | chunk :: chunks => do
      onStream (TcpSink.writeAll chunk)
      if incompleteSend then pure ()
      else do
        -- The sleep itself changes nothing.
        let _ ← draws options.writeBytesSleep.toss
        writeSlices options incompleteSend chunks

/-- `write_bytes`. -/
def writeBytes (options : ChunkOptions) (bytes : Bytes) : Exec Sender WriteError Unit := do
  let split ← draws options.splitBytes.toss
  let chunks ← (if split then draws (RandomState.genByteChunks bytes) else pure [bytes])
  let incompleteSend ← draws options.incompleteSend.toss
  writeSlices options incompleteSend chunks

/-- The loop that flips bits, with the number of flips that remain. -/
def flipBits : Nat → Bytes → Gen Bytes
  | _, [] => pure []
  | 0, b :: bytes => do
      let mutated ← flipBits 0 bytes
      pure (b :: mutated)
  | remainingFlips + 1, b :: bytes => do
      let flip ← RandomState.genT Bool
      if flip then do
        let bit ← RandomState.genRange 0 8
        let mutated ← flipBits remainingFlips bytes
        pure ((b ^^^ (1 <<< UInt8.ofNat bit)) :: mutated)
      else do
        let mutated ← flipBits (remainingFlips + 1) bytes
        pure (b :: mutated)

/-- The number of flips in some bytes. -/
def flips (length : Nat) : Gen Nat :=
  if length > 0 then do
    let n ← RandomState.genRange 0 length
    pure (n >>> 3)
  else pure 0

/-- The bytes with some bits flipped. -/
def mutate (bytes : Bytes) : Gen Bytes := do
  let remainingFlips ← flips bytes.length
  flipBits remainingFlips bytes

/-- The chunks of some bytes, split by the generator or plainly. -/
def sealChunks (split : Bool) (bytes : Bytes) (key : Key) (nonce : Nonce) :
    Gen (List BinaryChunk × Nonce) :=
  if split then RandomState.genChunks bytes key nonce else RandomState.plainChunks bytes key nonce

/-- The part of `write_bytes_encrypted` behind the flips. -/
def writeSealed (options : ChunkOptions) (bytes : Bytes) (key : Key) :
    Exec Sender WriteError Unit := do
  let split ← draws options.splitChunks.toss
  let nonce ← Exec.gets nonce
  let chunks ← draws (sealChunks split bytes key nonce)
  Exec.modify fun s => { s with nonce := chunks.2 }
  Exec.forEach (fun chunk => writeBytes options chunk.raw) chunks.1

/-- `write_bytes_encrypted`. -/
def writeBytesEncrypted (options : ChunkOptions) (bytes : Bytes) (key : Key) :
    Exec Sender WriteError Unit := do
  let flip ← draws options.flipBits.toss
  let bytes ← (if flip then draws (mutate bytes) else pure bytes)
  writeSealed options bytes key

/-- `write_msg`, of a message that is written as some bytes. -/
def writeMsg (options : ChunkOptions) (asBytes : Except BinaryWriterError Bytes) (key : Key) :
    Exec Sender WriteError Unit := do
  let bytes ← Exec.unwrap asBytes
  writeBytesEncrypted options bytes key

end Sender

/-! ## What is drawn -/

namespace RandomState

variable {s : RandomState}

theorem Sizes.length_le {length max : Nat} {sizes : List Nat} (h : Sizes length max sizes) :
    sizes.length ≤ length := by
  rw [← h.sum]
  exact List.length_le_sum_of_one_le sizes fun size mem => (h.pos size mem).1

theorem wp_genByteChunks {bytes : Bytes} :
    Exec.wp (genByteChunks bytes) (fun pieces _ => pieces.flatten = bytes) (fun _ => False) s := by
  rw [genByteChunks, Exec.wp_bind]
  have drawn := @wp_shuffledSizes s (genRange 1) (max 1 bytes.length) bytes.length
    (le_max_left _ _) fun remaining t hlarge hle => wp_byteSize (hle.trans (le_max_right _ _)) hlarge
  refine Exec.wp_mono drawn ?_ fun _ h => h
  intro sizes t hsizes
  refine Exec.wp_mono (wp_cutBytes hsizes (Nat.zero_le _)) ?_ fun _ h => h
  exact fun pieces _ hpieces => hpieces.flatten

/-- The chunks of a random split. -/
theorem wp_genChunks (correct : CryptoBox.Correct Key) {key : Key} {bytes : Bytes} {nonce : Nonce}
    (hmax : 1 ≤ s.maxChunkSize) (hnonce : nonce.value + bytes.length ≤ 2 ^ 192) :
    Exec.wp (genChunks bytes key nonce) (fun result _ =>
      Lossless key bytes (CONTENT_LENGTH_MAX - MACBYTES) nonce result) (fun _ => False) s := by
  have hpos : 1 ≤ s.maxSize := by
    unfold maxSize CONTENT_LENGTH_MAX MACBYTES
    omega
  rw [genChunks, Exec.wp_bind, Exec.wp_gets, Exec.wp_bind]
  have drawn := @wp_shuffledSizes s (chunkSize s.maxSize) s.maxSize bytes.length hpos
    fun remaining t hlarge _ => wp_chunkSize hpos hlarge
  refine Exec.wp_mono drawn ?_ fun _ h => h
  intro sizes t hsizes
  have hle := hsizes.length_le
  have hwide : Sizes bytes.length (CONTENT_LENGTH_MAX - MACBYTES) sizes := by
    refine ⟨hsizes.sum, fun size mem => ⟨(hsizes.pos size mem).1, ?_⟩⟩
    exact (hsizes.pos size mem).2.trans (Nat.min_le_right _ _)
  exact wp_cutChunks correct key hwide (Nat.zero_le _) le_rfl (by omega)

theorem Pieces.length_le {bytes : Bytes} {max : Nat} {pieces : List Bytes}
    (h : Pieces bytes max pieces) : pieces.length ≤ bytes.length := by
  rw [← h.flatten, List.length_flatten, ← List.length_map (f := List.length)]
  refine List.length_le_sum_of_one_le _ fun n mem => ?_
  obtain ⟨piece, hpiece, rfl⟩ := List.mem_map.mp mem
  exact List.length_pos_iff.mpr (h.bounds piece hpiece).1

/-- The chunks of the plain split. -/
theorem wp_plainChunks (correct : CryptoBox.Correct Key) {key : Key} {bytes : Bytes}
    {nonce : Nonce} (hnonce : nonce.value + bytes.length ≤ 2 ^ 192) :
    Exec.wp (plainChunks bytes key nonce) (fun result _ =>
      Lossless key bytes (CONTENT_LENGTH_MAX - MACBYTES) nonce result) (fun _ => False) s := by
  have hpieces : Pieces bytes (CONTENT_LENGTH_MAX - MACBYTES) (plainPieces bytes) :=
    chunksOf_pieces (by decide) le_rfl
  have hle := hpieces.length_le
  have hbound : nonce.value + (plainPieces bytes).length ≤ 2 ^ 192 := by omega
  have sealed := wp_sealPieces (s := s) correct key hbound fun piece mem =>
    (hpieces.bounds piece mem).2
  refine Exec.wp_mono sealed ?_ fun _ h => h
  exact fun result _ h => ⟨_, hpieces, h.1, h.2⟩

/-- Some bits were flipped, at most so many, each in a byte of its own. -/
inductive Flipped : Nat → Bytes → Bytes → Prop where
  | nil {n : Nat} : Flipped n [] []
  | keep {n : Nat} {b : UInt8} {bytes bytes' : Bytes} (rest : Flipped n bytes bytes') :
      Flipped n (b :: bytes) (b :: bytes')
  | flip {n bit : Nat} {b : UInt8} {bytes bytes' : Bytes} (lt : bit < 8)
      (rest : Flipped n bytes bytes') :
      Flipped (n + 1) (b :: bytes) ((b ^^^ (1 <<< UInt8.ofNat bit)) :: bytes')

theorem Flipped.length_eq {n : Nat} {bytes bytes' : Bytes} (h : Flipped n bytes bytes') :
    bytes'.length = bytes.length := by
  induction h with
  | nil => rfl
  | keep rest ih => rw [List.length_cons, List.length_cons, ih]
  | flip lt rest ih => rw [List.length_cons, List.length_cons, ih]

theorem Flipped.mono {n m : Nat} {bytes bytes' : Bytes} (h : Flipped n bytes bytes') (le : n ≤ m) :
    Flipped m bytes bytes' := by
  induction h generalizing m with
  | nil => exact .nil
  | keep rest ih => exact .keep (ih le)
  | flip lt rest ih =>
      obtain ⟨m, rfl⟩ := Nat.exists_eq_add_of_le' (Nat.lt_of_lt_of_le (Nat.succ_pos _) le)
      exact .flip lt (ih (Nat.le_of_succ_le_succ le))

theorem Flipped.refl (n : Nat) (bytes : Bytes) : Flipped n bytes bytes := by
  induction bytes with
  | nil => exact .nil
  | cons b bytes ih => exact .keep ih

end RandomState

namespace Sender

/-! ## What is written -/

/-- Bytes went over the wire, and the nonce stayed. -/
structure Wrote (s : Sender) (bytes : Bytes) (t : Sender) : Prop where
  sent : t.stream.sent = s.stream.sent ++ bytes
  nonce : t.nonce = s.nonce
  whole : s.stream.Whole → t.stream.Whole

variable {s : Sender} {options : ChunkOptions} {E : Sender → Prop}

theorem Wrote.nothing (s : Sender) (g : RandomState) : Wrote s [] { s with generator := g } :=
  ⟨(List.append_nil _).symm, rfl, id⟩

theorem Wrote.trans {t u : Sender} {bytes bytes' : Bytes} (first : Wrote s bytes t)
    (second : Wrote t bytes' u) : Wrote s (bytes ++ bytes') u := by
  refine ⟨?_, second.nonce.trans first.nonce, fun whole => second.whole (first.whole whole)⟩
  rw [second.sent, first.sent, List.append_assoc]

/-- The stream broke, and a beginning of the bytes went over the wire. -/
structure Broke (s : Sender) (bytes : Bytes) (t : Sender) : Prop where
  sent : ∃ part, part <+: bytes ∧ t.stream.sent = s.stream.sent ++ part
  broken : ¬ s.stream.Whole

theorem Broke.mono {t : Sender} {bytes bytes' : Bytes} (broke : Broke s bytes t)
    (le : bytes <+: bytes') : Broke s bytes' t := by
  obtain ⟨part, isPrefix, sent⟩ := broke.sent
  exact ⟨⟨part, isPrefix.trans le, sent⟩, broke.broken⟩

/-- The stream broke behind what was written. -/
theorem Wrote.broke {t u : Sender} {bytes bytes' : Bytes} (wrote : Wrote s bytes t)
    (broke : Broke t bytes' u) : Broke s (bytes ++ bytes') u := by
  obtain ⟨part, isPrefix, sent⟩ := broke.sent
  refine ⟨⟨bytes ++ part, (List.prefix_append_right_inj bytes).mpr isPrefix, ?_⟩, ?_⟩
  · rw [sent, wrote.sent, List.append_assoc]
  · exact fun whole => broke.broken (wrote.whole whole)

/-- A call of the generator writes nothing. -/
theorem wp_draws {α : Type} {x : Gen α} {Q : α → Sender → Prop}
    (h : Exec.wp x (fun a g => Q a { s with generator := g })
      (fun g => E { s with generator := g }) s.generator) : Exec.wp (draws x) Q E s :=
  (Exec.wp_mapErr _ _).mpr ((Exec.wp_onPart _ _).mpr h)

theorem wp_toss {chance : Chance} {Q : Bool → Sender → Prop}
    (post : ∀ b g, RandomState.SameBut s.generator g → (chance.Never → b = false) →
      Q b { s with generator := g }) : Exec.wp (draws chance.toss) Q E s := by
  refine wp_draws ?_
  cases chance with
  | always =>
      refine post true s.generator rfl ?_
      intro never
      cases never
  | below pInt =>
      refine RandomState.wp_draws ?_
      rw [Exec.wp_bind]
      refine Rng.wp_draw fun v rng => post _ _ rfl ?_
      intro never
      cases never
      exact decide_eq_false (Nat.not_lt_zero _)

/-- The stream takes the bytes, unless it breaks. -/
theorem wp_writeAll {bytes : Bytes} {Q : Unit → Sender → Prop}
    (post : ∀ t, Wrote s bytes t → Q () t) (broken : ∀ t, Broke s bytes t → E t) :
    Exec.wp (onStream (TcpSink.writeAll bytes)) Q E s := by
  refine (Exec.wp_onPart _ _).mpr ?_
  unfold Exec.wp TcpSink.writeAll
  cases failure : s.stream.failures 0 with
  | none => exact post _ ⟨rfl, rfl, fun whole k => whole (k + 1)⟩
  | some n =>
      refine broken _ ⟨⟨bytes.take n, List.take_prefix n bytes, rfl⟩, ?_⟩
      intro whole
      rw [whole 0] at failure
      cases failure

/-- What is written of some bytes: all of them, unless a chunk may be broken off. -/
structure Delivered (options : ChunkOptions) (bytes written : Bytes) : Prop where
  isPrefix : written <+: bytes
  complete : options.incompleteSend.Never → written = bytes

theorem Delivered.full (bytes : Bytes) : Delivered options bytes bytes :=
  ⟨List.prefix_refl bytes, fun _ => rfl⟩

/-- All slices are written, or the first one when the chunk is broken off. -/
theorem wp_writeSlices {incompleteSend : Bool} {chunks : List Bytes} :
    Exec.wp (writeSlices options incompleteSend chunks)
      (fun _ t => ∃ written, written <+: chunks.flatten ∧
        (incompleteSend = false → written = chunks.flatten) ∧ Wrote s written t)
      (Broke s chunks.flatten) s := by
  induction chunks generalizing s with
  | nil => exact ⟨[], List.prefix_refl _, fun _ => rfl, Wrote.nothing s s.generator⟩
  | cons chunk chunks ih =>
      rw [writeSlices, Exec.wp_bind]
      refine wp_writeAll (fun t wrote => ?_) fun t broke => broke.mono (List.prefix_append _ _)
      cases incompleteSend with
      | true => exact ⟨chunk, List.prefix_append _ _, Bool.noConfusion, wrote⟩
      | false =>
          rw [if_neg Bool.false_ne_true, Exec.wp_bind]
          refine wp_toss fun b g _ _ => ?_
          refine Exec.wp_mono ih ?_ ?_
          · intro _ u h
            obtain ⟨written, _, all, rest⟩ := h
            have slept : Wrote s chunk { t with generator := g } :=
              ⟨wrote.sent, wrote.nonce, wrote.whole⟩
            have same : chunk ++ written = (chunk :: chunks).flatten := by
              rw [all rfl, List.flatten_cons]
            exact ⟨_, same ▸ List.prefix_refl _, fun _ => same, slept.trans rest⟩
          · intro u broke
            have slept : Wrote s chunk { t with generator := g } :=
              ⟨wrote.sent, wrote.nonce, wrote.whole⟩
            exact slept.broke broke

/-- In slices or not, the bytes are delivered. -/
theorem wp_writeBytes {bytes : Bytes} :
    Exec.wp (writeBytes options bytes)
      (fun _ t => ∃ written, Delivered options bytes written ∧ Wrote s written t)
      (Broke s bytes) s := by
  have slices : ∀ (chunks : List Bytes) (t : Sender), chunks.flatten = bytes → Wrote s [] t →
      Exec.wp (do
        let incompleteSend ← draws options.incompleteSend.toss
        writeSlices options incompleteSend chunks)
        (fun _ u => ∃ written, Delivered options bytes written ∧ Wrote s written u)
        (Broke s bytes) t := by
    intro chunks t hflatten drawn
    rw [Exec.wp_bind]
    refine wp_toss fun incompleteSend g _ never => ?_
    refine Exec.wp_mono wp_writeSlices ?_ ?_
    · intro _ u h
      obtain ⟨written, isPrefix, all, rest⟩ := h
      rw [hflatten] at isPrefix all
      refine ⟨written, ⟨isPrefix, fun complete => all (never complete)⟩, ?_⟩
      exact ⟨rest.sent.trans (by rw [drawn.sent, List.append_nil]), rest.nonce.trans drawn.nonce,
        fun whole => rest.whole (drawn.whole whole)⟩
    · intro u broke
      rw [hflatten] at broke
      have tossed : Wrote s [] { t with generator := g } :=
        ⟨drawn.sent, drawn.nonce, drawn.whole⟩
      exact tossed.broke broke
  rw [writeBytes, Exec.wp_bind]
  refine wp_toss fun split g _ _ => ?_
  rw [Exec.wp_bind]
  cases split with
  | false => exact slices [bytes] _ List.flatten_singleton (Wrote.nothing s g)
  | true =>
      refine wp_draws (Exec.wp_mono RandomState.wp_genByteChunks ?_ fun _ => False.elim)
      intro pieces g' hflatten
      exact slices pieces _ hflatten (Wrote.nothing s g')

/-- A flip is one bit of one byte. -/
theorem wp_flipBits {n : Nat} {bytes : Bytes} {g : RandomState} :
    Exec.wp (flipBits n bytes)
      (fun mutated g' => RandomState.Flipped n bytes mutated ∧ RandomState.SameBut g g')
      (fun _ => False) g := by
  induction bytes generalizing n g with
  | nil =>
      cases n with
      | zero => exact ⟨.nil, rfl⟩
      | succ n => exact ⟨.nil, rfl⟩
  | cons b bytes ih =>
      cases n with
      | zero =>
          rw [flipBits, Exec.wp_bind]
          refine Exec.wp_mono ih ?_ fun _ h => h
          exact fun mutated g' h => ⟨.keep h.1, h.2⟩
      | succ n =>
          rw [flipBits, Exec.wp_bind]
          refine RandomState.wp_genT fun flip rng => ?_
          split
          next =>
            rw [Exec.wp_bind]
            refine RandomState.wp_genRange (by decide) fun bit rng' _ hbit => ?_
            rw [Exec.wp_bind]
            refine Exec.wp_mono ih ?_ fun _ h => h
            exact fun mutated g' h => ⟨.flip hbit h.1, h.2⟩
          next =>
            rw [Exec.wp_bind]
            refine Exec.wp_mono ih ?_ fun _ h => h
            exact fun mutated g' h => ⟨.keep h.1, h.2⟩

/-- At most one byte in eight is changed. -/
theorem wp_mutate {bytes : Bytes} {g : RandomState} :
    Exec.wp (mutate bytes) (fun mutated g' =>
      RandomState.Flipped ((bytes.length - 1) / 8) bytes mutated ∧ RandomState.SameBut g g')
      (fun _ => False) g := by
  rw [mutate, Exec.wp_bind, flips]
  split
  next some =>
    rw [Exec.wp_bind]
    refine RandomState.wp_genRange some fun n rng _ hn => ?_
    rw [Exec.wp_pure]
    refine Exec.wp_mono wp_flipBits ?_ fun _ h => h
    intro mutated g' h
    have hle : n >>> 3 ≤ (bytes.length - 1) / 8 := by
      rw [Nat.shiftRight_eq_div_pow]
      omega
    exact ⟨h.1.mono hle, h.2⟩
  next none =>
    have hnil : bytes = [] := List.length_eq_zero_iff.mp (by omega)
    subst hnil
    exact ⟨.nil, rfl⟩

/-! ## The wire -/

/-- What the wire got for a message: chunks that open, under the nonces from `nonce` on, to pieces
of some bytes. -/
def Wire (options : ChunkOptions) (key : Key) (nonce : Nonce) (bytes wire : Bytes) (next : Nonce) :
    Prop :=
  ∃ chunks pieces parts, wire = parts.flatten ∧
    List.Forall₂ (fun chunk part => Delivered options chunk.raw part) chunks parts ∧
    RandomState.Opens key nonce chunks pieces ∧
    RandomState.Pieces bytes (CONTENT_LENGTH_MAX - MACBYTES) pieces ∧
    next = nonce.after chunks.length

theorem wp_writeChunks {chunks : List BinaryChunk} :
    Exec.wp (Exec.forEach (fun chunk : BinaryChunk => writeBytes options chunk.raw) chunks)
      (fun _ t => ∃ parts, List.Forall₂ (fun chunk part => Delivered options chunk.raw part)
        chunks parts ∧ Wrote s parts.flatten t)
      (fun t => ∃ parts, List.Forall₂ (fun chunk part => Delivered options chunk.raw part)
        chunks parts ∧ Broke s parts.flatten t) s := by
  induction chunks generalizing s with
  | nil => exact ⟨[], .nil, Wrote.nothing s s.generator⟩
  | cons chunk chunks ih =>
      rw [Exec.forEach, Exec.wp_bind]
      refine Exec.wp_mono wp_writeBytes ?_ ?_
      · intro _ t h
        obtain ⟨part, delivered, wrote⟩ := h
        refine Exec.wp_mono ih ?_ ?_
        · intro _ u h
          obtain ⟨parts, hparts, more⟩ := h
          exact ⟨part :: parts, .cons delivered hparts, wrote.trans more⟩
        · intro u h
          obtain ⟨parts, hparts, broke⟩ := h
          exact ⟨part :: parts, .cons delivered hparts, wrote.broke broke⟩
      · intro t broke
        -- The chunks that were not reached may as well have come whole.
        have whole : List.Forall₂ (fun chunk part => Delivered options (BinaryChunk.raw chunk) part)
            chunks (chunks.map BinaryChunk.raw) := by
          rw [List.forall₂_map_right_iff, List.forall₂_same]
          exact fun chunk _ => .full chunk.raw
        exact ⟨chunk.raw :: chunks.map BinaryChunk.raw, .cons (.full chunk.raw) whole,
          broke.mono (List.prefix_append _ _)⟩

/-- Chunks that are not broken off are all there. -/
theorem delivered_complete (complete : options.incompleteSend.Never) {chunks : List BinaryChunk}
    {parts : List Bytes}
    (h : List.Forall₂ (fun chunk part => Delivered options chunk.raw part) chunks parts) :
    parts.flatten = chunks.flatMap BinaryChunk.raw := by
  induction h with
  | nil => rfl
  | cons here _ ih => rw [List.flatten_cons, List.flatMap_cons, here.complete complete, ih]

theorem wp_sealChunks (correct : CryptoBox.Correct Key) {key : Key} {bytes : Bytes} {nonce : Nonce}
    {split : Bool} {g : RandomState} (hmax : split = false ∨ 1 ≤ g.maxChunkSize)
    (hnonce : nonce.value + bytes.length ≤ 2 ^ 192) :
    Exec.wp (sealChunks split bytes key nonce) (fun result _ =>
      RandomState.Lossless key bytes (CONTENT_LENGTH_MAX - MACBYTES) nonce result)
      (fun _ => False) g := by
  cases split with
  | false => exact RandomState.wp_plainChunks correct hnonce
  | true =>
      obtain never | hpos := hmax
      · cases never
      · exact RandomState.wp_genChunks correct hpos hnonce

/-- Bytes are written, as their chunks. -/
theorem wp_writeSealed (correct : CryptoBox.Correct Key) {key : Key} {bytes : Bytes}
    (hmax : options.splitChunks.Never ∨ 1 ≤ s.generator.maxChunkSize)
    (hnonce : s.nonce.value + bytes.length ≤ 2 ^ 192) :
    Exec.wp (writeSealed options bytes key) (fun _ t => ∃ wire,
      Wire options key s.nonce bytes wire t.nonce ∧ t.stream.sent = s.stream.sent ++ wire ∧
        (s.stream.Whole → t.stream.Whole))
      (fun t => ∃ wire next, Wire options key s.nonce bytes wire next ∧ Broke s wire t) s := by
  rw [writeSealed, Exec.wp_bind]
  refine wp_toss fun split g same never => ?_
  rw [Exec.wp_bind, Exec.wp_gets, Exec.wp_bind]
  have hsplit : split = false ∨ 1 ≤ g.maxChunkSize := by
    rcases hmax with hnever | hpos
    · exact .inl (never hnever)
    · right
      rw [same]
      exact hpos
  refine wp_draws (Exec.wp_mono (wp_sealChunks correct hsplit hnonce) ?_ fun _ => False.elim)
  intro result g' lossless
  obtain ⟨pieces, hpieces, hopens, hcount⟩ := lossless
  rw [Exec.wp_bind, Exec.wp_modify]
  refine Exec.wp_mono wp_writeChunks ?_ ?_
  · intro _ t h
    obtain ⟨parts, hparts, wrote⟩ := h
    exact ⟨_, ⟨result.1, pieces, parts, rfl, hparts, hopens, hpieces, wrote.nonce.trans hcount⟩,
      wrote.sent, wrote.whole⟩
  · intro t h
    obtain ⟨parts, hparts, broke⟩ := h
    exact ⟨_, _, ⟨result.1, pieces, parts, rfl, hparts, hopens, hpieces, rfl⟩, broke.sent,
      broke.broken⟩

/-- A call returns unless the stream breaks. -/
theorem returns_of_wp {x : Exec Sender WriteError Unit} {Q : Sender → Prop}
    (h : Exec.wp x (fun _ => Q) (fun _ => ¬ s.stream.Whole) s) :
    (s.stream.Whole → ∃ t, x s = (.ok (), t)) ∧ ∀ t, x s = (.ok (), t) → Q t := by
  refine ⟨fun whole => ?_, fun t run => Exec.wp_ok h run⟩
  obtain ⟨_, t, run, _⟩ := Exec.wp_returns (Exec.wp_mono h (fun _ _ post => post) fun _ broken =>
    broken whole)
  exact ⟨t, run⟩

/-- What the wire got, and the bytes it got the chunks of: at most one byte in eight has one bit
flipped, and none when bits are not to be flipped. -/
def Faulty (options : ChunkOptions) (key : Key) (bytes : Bytes) (s t : Sender) : Prop :=
  ∃ mutated wire, RandomState.Flipped ((bytes.length - 1) / 8) bytes mutated ∧
    (options.flipBits.Never → mutated = bytes) ∧ Wire options key s.nonce mutated wire t.nonce ∧
    t.stream.sent = s.stream.sent ++ wire

/-- The wire got a beginning of that. -/
def Interrupted (options : ChunkOptions) (key : Key) (bytes : Bytes) (s t : Sender) : Prop :=
  ∃ mutated wire next part, RandomState.Flipped ((bytes.length - 1) / 8) bytes mutated ∧
    (options.flipBits.Never → mutated = bytes) ∧ Wire options key s.nonce mutated wire next ∧
    part <+: wire ∧ t.stream.sent = s.stream.sent ++ part

theorem wp_writeBytesEncrypted (correct : CryptoBox.Correct Key) {key : Key} {bytes : Bytes}
    (hmax : options.splitChunks.Never ∨ 1 ≤ s.generator.maxChunkSize)
    (hnonce : s.nonce.value + bytes.length ≤ 2 ^ 192) :
    Exec.wp (writeBytesEncrypted options bytes key) (fun _ t => Faulty options key bytes s t)
      (fun t => Interrupted options key bytes s t ∧ ¬ s.stream.Whole) s := by
  have written : ∀ (g : RandomState) (mutated : Bytes), g.maxChunkSize = s.generator.maxChunkSize →
      RandomState.Flipped ((bytes.length - 1) / 8) bytes mutated →
      (options.flipBits.Never → mutated = bytes) →
      Exec.wp (writeSealed options mutated key) (fun _ t => Faulty options key bytes s t)
        (fun t => Interrupted options key bytes s t ∧ ¬ s.stream.Whole)
        { s with generator := g } := by
    intro g mutated kept flipped never
    refine Exec.wp_mono (wp_writeSealed (s := { s with generator := g }) correct
      (by rwa [← kept] at hmax) (by rwa [flipped.length_eq])) ?_ ?_
    · intro _ t h
      obtain ⟨wire, hwire, hsent, hwhole⟩ := h
      exact ⟨mutated, wire, flipped, never, hwire, hsent⟩
    · intro t h
      obtain ⟨wire, next, hwire, broke⟩ := h
      obtain ⟨part, isPrefix, hsent⟩ := broke.sent
      exact ⟨⟨mutated, wire, next, part, flipped, never, hwire, isPrefix, hsent⟩, broke.broken⟩
  rw [writeBytesEncrypted, Exec.wp_bind]
  refine wp_toss fun flip g same never => ?_
  rw [Exec.wp_bind]
  cases flip with
  | false =>
      rw [if_neg Bool.false_ne_true, Exec.wp_pure]
      exact written g bytes (by rw [same]) (.refl _ _) fun _ => rfl
  | true =>
      refine wp_draws (Exec.wp_mono wp_mutate ?_ fun _ => False.elim)
      intro mutated g' h
      obtain ⟨flipped, same'⟩ := h
      refine written g' mutated (by rw [same', same]) flipped ?_
      intro hnever
      cases never hnever

/-- Whatever is drawn, the wire gets the chunks of the message, in which at most one byte in eight
has one bit flipped, each as a whole unless it may be broken off.  The nonce has counted the chunks.
The call returns unless the stream breaks, and then the wire got a beginning of that. -/
theorem writeBytesEncrypted_wire (correct : CryptoBox.Correct Key) {key : Key} {bytes : Bytes}
    (hmax : options.splitChunks.Never ∨ 1 ≤ s.generator.maxChunkSize)
    (hnonce : s.nonce.value + bytes.length ≤ 2 ^ 192) :
    (s.stream.Whole → ∃ t, writeBytesEncrypted options bytes key s = (.ok (), t)) ∧
    (∀ t, writeBytesEncrypted options bytes key s = (.ok (), t) →
      Faulty options key bytes s t) ∧
    ∀ outcome t, writeBytesEncrypted options bytes key s = (outcome, t) → outcome.isOk = false →
      Interrupted options key bytes s t := by
  have written : Exec.wp (writeBytesEncrypted options bytes key)
      (fun _ t => Faulty options key bytes s t)
      (fun t => Interrupted options key bytes s t ∧ ¬ s.stream.Whole) s :=
    wp_writeBytesEncrypted correct hmax hnonce
  refine ⟨fun whole => ?_, fun t run => Exec.wp_ok written run,
    fun outcome t run failed => (Exec.wp_failed written run failed).1⟩
  obtain ⟨_, t, run, _⟩ := Exec.wp_returns (Exec.wp_mono written (fun _ _ faulty => faulty)
    fun _ failed => failed.2 whole)
  exact ⟨t, run⟩

/-- Bits are always flipped, and everything is split. -/
def flipping : ChunkOptions := ⟨.always, .always, .always, .below 0, .below 0⟩

/-- A message that is long enough for a bit to be flipped. -/
def sixteenBytes : Bytes := List.replicate 16 1

/-- A sender that flips the first bit it may, with a stream whose writes fail as said. -/
def flippingSender (failures : Nat → Option Nat) : Sender :=
  ⟨RandomState.new ⟨fun _ => 15⟩ 0 2, ⟨0⟩, ⟨[], failures⟩⟩

/-- No write fails, or the fourth one. -/
def allWritten (_ : Nat) : Option Nat := none

@[inherit_doc allWritten]
def fourthBreaks (k : Nat) : Option Nat := if k = 3 then some 1 else none

/-- The message is written on such a stream. -/
def flippingRun (failures : Nat → Option Nat) : Outcome WriteError Unit × Sender :=
  writeBytesEncrypted flipping sixteenBytes PlainKey.plain (flippingSender failures)

theorem flippingRun_broken : (flippingRun fourthBreaks).1.isOk = false := by decide +kernel

theorem writeBytesEncrypted_wire_sixteen :
    (∃ t, flippingRun allWritten = (.ok (), t) ∧
      Faulty flipping PlainKey.plain sixteenBytes (flippingSender allWritten) t) ∧
    Interrupted flipping PlainKey.plain sixteenBytes (flippingSender fourthBreaks)
      (flippingRun fourthBreaks).2 := by
  obtain ⟨returns, written, -⟩ := @writeBytesEncrypted_wire PlainKey _ (flippingSender allWritten)
    flipping plain_correct PlainKey.plain sixteenBytes (.inr (by decide)) (by decide)
  obtain ⟨-, -, interrupted⟩ := @writeBytesEncrypted_wire PlainKey _ (flippingSender fourthBreaks)
    flipping plain_correct PlainKey.plain sixteenBytes (.inr (by decide)) (by decide)
  obtain ⟨t, run⟩ := returns fun _ => rfl
  exact ⟨⟨t, run, written t run⟩, interrupted _ _ Prod.mk.eta.symm flippingRun_broken⟩

end Sender

end NodeFuzzer
