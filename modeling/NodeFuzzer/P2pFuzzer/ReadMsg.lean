import NodeFuzzer.Crypto.CryptoBox
import NodeFuzzer.Messages.BinaryMessage
import NodeFuzzer.P2pFuzzer.ChunkBuffer

/-!
# Putting a message together

`read_msg` reads chunk after chunk, opens each under the next nonce and collects what is
in them until the size of the message is reached.  The size stands in the first four
bytes, which are looked at after the first chunk.

A message in several chunks is therefore read just when its first piece has these four
bytes and each chunk fits into the buffer (`readMsg_iff`).
-/

namespace NodeFuzzer

variable {Key : Type} [CryptoBox Key]

/-- What `read_msg` works on. -/
structure Receiver where
  connection : Connection
  nonce : Nonce

namespace Receiver

/-- The size of the size of a message. -/
def MESSAGE_HEADER_LENGTH : Nat := 4

/-- `length` after a chunk was added; it is set once, from the first bytes. -/
def messageLength (peerMessage : Bool) (bytes : Bytes) (length : Nat) : Option Nat :=
  if length = 0 ∧ peerMessage = true then
    if MESSAGE_HEADER_LENGTH ≤ bytes.length then
      some (ofBe (bytes.take MESSAGE_HEADER_LENGTH) + MESSAGE_HEADER_LENGTH)
    else none
  else some length

/-- `read_chunk` on the connection. -/
def readChunk (passes : Nat) : Exec Receiver IoError BinaryChunk :=
  Exec.onPart connection (fun c r => { r with connection := c }) (Connection.readChunk passes 0)

/-- The loop of `read_msg`, with at most `fuel` passes, and `passes` in each `read_chunk`. -/
def readMsgFrom {M : Type} (fromBytes : Bytes → Except BinaryReaderError M) (key : Key)
    (peerMessage : Bool) (passes : Nat) : Nat → Bytes → Nat → Exec Receiver IoError M
  | 0, _, _ => Exec.abort
  | fuel + 1, bytes, length => do
      let chunk ← readChunk passes
      let nonce ← Exec.gets nonce
      match decrypt key chunk.content nonce with
      | .error _ => Exec.fail .decryptError
      | .ok decrypted => do
          let bytes := bytes ++ decrypted
          let length ← Exec.orAbort (messageLength peerMessage bytes length)
          Exec.modify fun r => { r with nonce := r.nonce.increment }
          if bytes.length = length ∨ peerMessage = false then
            match fromBytes bytes with
            | .ok m => pure m
            | .error _ => readMsgFrom fromBytes key peerMessage passes fuel bytes length
          else readMsgFrom fromBytes key peerMessage passes fuel bytes length

/-- `read_msg`. -/
def readMsg {M : Type} (fromBytes : Bytes → Except BinaryReaderError M) (key : Key)
    (peerMessage : Bool) (passes fuel : Nat) : Exec Receiver IoError M :=
  readMsgFrom fromBytes key peerMessage passes fuel [] 0

/-- The chunks a peer makes of pieces: each is sealed under the next nonce. -/
inductive Seals (key : Key) : Nonce → List Bytes → List BinaryChunk → Prop
  | nil {nonce : Nonce} : Seals key nonce [] []
  | cons {nonce : Nonce} {piece enc : Bytes} {chunk : BinaryChunk} {pieces : List Bytes}
      {chunks : List BinaryChunk} : encrypt key piece nonce = .ok enc →
      BinaryChunk.fromContent enc = .ok chunk → Seals key nonce.increment pieces chunks →
      Seals key nonce (piece :: pieces) (chunk :: chunks)

theorem content_of_fromContent {content : Bytes} {chunk : BinaryChunk}
    (h : BinaryChunk.fromContent content = .ok chunk) : chunk.content = content := by
  unfold BinaryChunk.fromContent at h
  split at h
  next hle =>
    cases h
    exact List.drop_left' (toBe_length 2 _)
  next => cases h

/-- What a sealed chunk holds. -/
theorem sealed_chunk (correct : CryptoBox.Correct Key) {key : Key} {nonce : Nonce}
    {piece enc : Bytes} {chunk : BinaryChunk} (hencrypt : encrypt key piece nonce = .ok enc)
    (hchunk : BinaryChunk.fromContent enc = .ok chunk) :
    decrypt key chunk.content nonce = .ok piece ∧ chunk.content.length = piece.length + MACBYTES := by
  obtain ⟨hlen, hdecrypt⟩ := decrypt_encrypt correct hencrypt
  rw [content_of_fromContent hchunk]
  exact ⟨hdecrypt, hlen⟩

/-- What the connection holds and will get. -/
def incoming (r : Receiver) : Bytes := r.connection.pending ++ r.connection.stream.bytes

/-- The next chunk that comes in is read when it fits into the buffer. -/
theorem readChunk_next {r : Receiver} {chunk : BinaryChunk} {rest : Bytes} {passes : Nat}
    (hlen : r.connection.buffer.len ≤ BUFFER_SIZE) (h : r.incoming = chunk.raw ++ rest)
    (small : chunk.content.length ≤ 0xFFFE) (enough : BUFFER_SIZE < passes) :
    ∃ r', readChunk passes r = (.ok chunk, r') ∧ r'.nonce = r.nonce ∧
      r'.connection.buffer.len ≤ BUFFER_SIZE ∧ r'.incoming = rest := by
  have hfuel : chunk.raw.length - r.connection.buffer.len < passes := by
    have := chunk.length_raw
    unfold BUFFER_SIZE at enough
    omega
  obtain ⟨c', hrun, hlen', hrest⟩ := Connection.readChunk_ok 0 hlen h small hfuel
  refine ⟨{ r with connection := c' }, ?_, rfl, hlen', hrest⟩
  rw [readChunk, Exec.onPart, hrun]

/-- One pass over a chunk that opens: its content is added and the nonce advanced. -/
theorem readMsgFrom_pass {M : Type} {fromBytes : Bytes → Except BinaryReaderError M} {key : Key}
    {passes fuel length length' : Nat} {bytes piece : Bytes} {chunk : BinaryChunk}
    {r r' : Receiver} (hread : readChunk passes r = (.ok chunk, r'))
    (hopen : decrypt key chunk.content r'.nonce = .ok piece)
    (hlength : messageLength true (bytes ++ piece) length = some length') :
    readMsgFrom fromBytes key true passes (fuel + 1) bytes length r =
      (if (bytes ++ piece).length = length' then
        match fromBytes (bytes ++ piece) with
        | .ok m => pure m
        | .error _ => readMsgFrom fromBytes key true passes fuel (bytes ++ piece) length'
      else readMsgFrom fromBytes key true passes fuel (bytes ++ piece) length')
        { r' with nonce := r'.nonce.increment } := by
  rw [readMsgFrom, Exec.bind_ok hread]
  show (match decrypt key chunk.content r'.nonce with
    | .error _ => Exec.fail .decryptError
    | .ok decrypted => _ : Exec Receiver IoError M) r' = _
  rw [hopen]
  dsimp only
  rw [hlength]
  simp [Bind.bind, Exec.bind, Exec.orAbort, Pure.pure, Exec.pure, Exec.modify]

/-! ## When a message is read -/

/-- The chunk of a piece fits into the buffer. -/
def Fits (piece : Bytes) : Prop := piece.length < CONTENT_LENGTH_MAX - MACBYTES

instance (piece : Bytes) : Decidable (Fits piece) := inferInstanceAs (Decidable (_ < _))

theorem Fits.small {piece : Bytes} {chunk : BinaryChunk} (h : Fits piece)
    (hlen : chunk.content.length = piece.length + MACBYTES) : chunk.content.length ≤ 0xFFFE := by
  unfold Fits CONTENT_LENGTH_MAX MACBYTES at *
  omega

/-- The rest of a message is read once its size is known. -/
theorem readMsgFrom_rest (correct : CryptoBox.Correct Key) {M : Type}
    {fromBytes : Bytes → Except BinaryReaderError M} {key : Key} {b : Bytes} {m : M}
    (hb : fromBytes b = .ok m) {passes : Nat} (enough : BUFFER_SIZE < passes)
    {pieces : List Bytes} {chunks : List BinaryChunk} {nonce : Nonce}
    (seals : Seals key nonce pieces chunks) {bytes rest : Bytes} {r : Receiver}
    (hnonce : r.nonce = nonce) (hlen : r.connection.buffer.len ≤ BUFFER_SIZE)
    (hin : r.incoming = chunks.flatMap BinaryChunk.raw ++ rest)
    (hsplit : bytes ++ pieces.flatten = b) (hsome : pieces ≠ []) (hpos : 0 < b.length)
    (hpieces : ∀ piece ∈ pieces, piece ≠ [] ∧ Fits piece) :
    ∃ r', readMsgFrom fromBytes key true passes pieces.length bytes b.length r = (.ok m, r') ∧
      r'.nonce = nonce.after pieces.length ∧ r'.incoming = rest := by
  induction seals generalizing bytes r with
  | nil => exact absurd rfl hsome
  | @cons nonce piece enc chunk pieces chunks hencrypt hchunk seals ih =>
      subst hnonce
      rw [List.flatMap_cons, List.append_assoc] at hin
      obtain ⟨hopen, hsize⟩ := sealed_chunk correct hencrypt hchunk
      obtain ⟨hne, hfits⟩ := hpieces piece List.mem_cons_self
      obtain ⟨r₁, hread, hnonce₁, hlen₁, hin₁⟩ :=
        readChunk_next hlen hin (hfits.small hsize) enough
      have hlength : messageLength true (bytes ++ piece) b.length = some b.length := by
        rw [messageLength, if_neg (by omega)]
      rw [List.length_cons, readMsgFrom_pass hread (by rw [hnonce₁]; exact hopen) hlength]
      rw [List.flatten_cons, ← List.append_assoc] at hsplit
      by_cases hlast : pieces = []
      · -- The last piece completes the message.
        subst hlast
        cases seals
        rw [List.flatten_nil, List.append_nil] at hsplit
        rw [if_pos (by rw [hsplit]), hsplit, hb]
        refine ⟨_, rfl, ?_, hin₁⟩
        rw [hnonce₁]
        rfl
      · have hmore : ¬ (bytes ++ piece).length = b.length := by
          have hpos : 0 < pieces.flatten.length := by
            obtain ⟨next, others, rfl⟩ := List.exists_cons_of_ne_nil hlast
            have := List.length_pos_iff.mpr (hpieces next (by simp)).1
            rw [List.flatten_cons, List.length_append]
            omega
          have htotal := congrArg List.length hsplit
          rw [List.length_append] at htotal
          omega
        rw [if_neg hmore]
        have hnext : ({ r₁ with nonce := r₁.nonce.increment } : Receiver).nonce =
            r.nonce.increment := by rw [hnonce₁]
        obtain ⟨r₂, hrun, hnonce₂, hin₂⟩ := ih hnext hlen₁ hin₁ hsplit hlast
          fun piece mem => hpieces piece (List.mem_cons_of_mem _ mem)
        refine ⟨r₂, hrun, ?_, hin₂⟩
        rw [hnonce₂, Nonce.increment_after]

/-- The size in the first bytes of a message. -/
theorem messageLength_first {response : PeerMessageResponse} {b first others : Bytes}
    (hb : response.asBytes = .ok b) (hsplit : first ++ others = b) (hfour : 4 ≤ first.length) :
    messageLength true ([] ++ first) 0 = some b.length := by
  obtain ⟨hheader, hmax⟩ := PeerMessageResponse.asBytes_header hb
  have htotal : b.length = first.length + others.length := by
    rw [← hsplit, List.length_append]
  have hfirst : first.take 4 = b.take 4 := by
    rw [← hsplit, List.take_append_of_le_length hfour]
  have hsize : ofBe (first.take 4) = b.length - 4 := by
    rw [hfirst, hheader]
    exact ofBe_toBe_of_lt (hmax.trans_lt (by decide))
  rw [List.nil_append, messageLength, if_pos ⟨rfl, rfl⟩, MESSAGE_HEADER_LENGTH, if_pos hfour, hsize,
    Nat.sub_add_cancel (by omega)]

/-- A message is read when its first piece has the size and all chunks fit. -/
theorem readMsg_returns (correct : CryptoBox.Correct Key) {key : Key} {m : PeerMessage}
    (hm : m.HashSized) {b : Bytes} (hb : (PeerMessageResponse.mk m).asBytes = .ok b)
    {passes : Nat} (enough : BUFFER_SIZE < passes) {first : Bytes} {others : List Bytes}
    {chunks : List BinaryChunk} {rest : Bytes} {r : Receiver}
    (seals : Seals key r.nonce (first :: others) chunks)
    (hlen : r.connection.buffer.len ≤ BUFFER_SIZE)
    (hin : r.incoming = chunks.flatMap BinaryChunk.raw ++ rest)
    (hsplit : (first :: others).flatten = b)
    (hpieces : ∀ piece ∈ first :: others, piece ≠ [] ∧ Fits piece) (hfour : 4 ≤ first.length) :
    ∃ r', readMsg PeerMessageResponse.fromBytes key true passes (first :: others).length r =
        (.ok ⟨m⟩, r') ∧
      r'.nonce = r.nonce.after (first :: others).length ∧ r'.incoming = rest := by
  have hfrom := PeerMessageResponse.fromBytes_of_asBytes hm hb
  have hpos : 0 < b.length := by
    rw [← hsplit, List.flatten_cons, List.length_append]
    omega
  rw [List.flatten_cons] at hsplit
  -- The size comes from the first piece; from then on the pass is as if it had been known.
  have hknown : readMsg PeerMessageResponse.fromBytes key true passes (first :: others).length r =
      readMsgFrom PeerMessageResponse.fromBytes key true passes (first :: others).length [] b.length r := by
    cases seals with
    | @cons _ _ enc chunk _ chunks hencrypt hchunk seals =>
        rw [List.flatMap_cons, List.append_assoc] at hin
        obtain ⟨hopen, hsize⟩ := sealed_chunk correct hencrypt hchunk
        obtain ⟨r₁, hread, hnonce₁, _⟩ :=
          readChunk_next hlen hin ((hpieces first List.mem_cons_self).2.small hsize) enough
        rw [← hnonce₁] at hopen
        have hlength : messageLength true ([] ++ first) b.length = some b.length := by
          rw [messageLength, if_neg (by omega)]
        rw [readMsg, List.length_cons, readMsgFrom_pass hread hopen (messageLength_first hb hsplit hfour),
          readMsgFrom_pass hread hopen hlength]
  rw [hknown]
  exact readMsgFrom_rest correct hfrom enough seals rfl hlen hin
    (by rw [List.nil_append, List.flatten_cons, hsplit]) (List.cons_ne_nil _ _) hpos hpieces

/-- What a pass over the next chunk did, when the call returned. -/
theorem readMsgFrom_inv (correct : CryptoBox.Correct Key) {M : Type}
    {fromBytes : Bytes → Except BinaryReaderError M} {key : Key} {passes fuel length : Nat}
    {bytes piece enc rest : Bytes} {chunk : BinaryChunk} {r r' : Receiver} {m : M}
    (hencrypt : encrypt key piece r.nonce = .ok enc)
    (hchunk : BinaryChunk.fromContent enc = .ok chunk)
    (hlen : r.connection.buffer.len ≤ BUFFER_SIZE) (hin : r.incoming = chunk.raw ++ rest)
    (run : readMsgFrom fromBytes key true passes (fuel + 1) bytes length r = (.ok m, r')) :
    Fits piece ∧ (length = 0 → 4 ≤ (bytes ++ piece).length) ∧ ∃ r₁ : Receiver,
      r₁.nonce = r.nonce.increment ∧ r₁.connection.buffer.len ≤ BUFFER_SIZE ∧ r₁.incoming = rest ∧
      (r' = r₁ ∨ ∃ bytes length,
        readMsgFrom fromBytes key true passes fuel bytes length r₁ = (.ok m, r')) := by
  obtain ⟨found, r₀, hread, run⟩ := Exec.of_bind_ok run
  obtain ⟨c', hrun, hr₀⟩ := Exec.of_onPart_ok hread
  obtain ⟨rfl, hsize, hlen', hrest⟩ := Connection.readChunk_only hlen hin hrun
  subst hr₀
  obtain ⟨hopen, hcontent⟩ := sealed_chunk correct hencrypt hchunk
  have hfits : Fits piece := by
    have := found.length_raw
    unfold Fits CONTENT_LENGTH_MAX MACBYTES BUFFER_SIZE at *
    omega
  obtain ⟨nonce, r₁, hnonce, run⟩ := Exec.of_bind_ok run
  cases hnonce
  simp only [hopen] at run
  obtain ⟨length', r₂, hlength, run⟩ := Exec.of_bind_ok run
  obtain ⟨hknown, rfl⟩ := Exec.of_orAbort_ok hlength
  obtain ⟨_, r₃, hmodify, run⟩ := Exec.of_bind_ok run
  cases hmodify
  refine ⟨hfits, ?_, ⟨c', r.nonce.increment⟩, rfl, hlen', hrest, ?_⟩
  · intro hzero
    rw [messageLength, if_pos ⟨hzero, rfl⟩] at hknown
    split at hknown
    next hfour => exact hfour
    next => cases hknown
  · split at run
    · cases hfrom : fromBytes (bytes ++ piece) with
      | ok m' =>
          rw [hfrom] at run
          cases run
          exact .inl rfl
      | error e =>
          rw [hfrom] at run
          exact .inr ⟨_, _, run⟩
    · exact .inr ⟨_, _, run⟩

/-- All chunks that were read fit into the buffer. -/
theorem fits_of_readMsgFrom (correct : CryptoBox.Correct Key) {M : Type}
    {fromBytes : Bytes → Except BinaryReaderError M} {key : Key} {passes fuel length : Nat}
    {bytes rest : Bytes} {r r' : Receiver} {m : M} {pieces : List Bytes}
    {chunks : List BinaryChunk} (seals : Seals key r.nonce pieces chunks)
    (hlen : r.connection.buffer.len ≤ BUFFER_SIZE)
    (hin : r.incoming = chunks.flatMap BinaryChunk.raw ++ rest)
    (run : readMsgFrom fromBytes key true passes fuel bytes length r = (.ok m, r'))
    (hcount : r'.nonce = r.nonce.after pieces.length) : ∀ piece ∈ pieces, Fits piece := by
  induction fuel generalizing pieces chunks bytes length r with
  | zero => cases run
  | succ fuel ih =>
      cases seals with
      | nil => exact fun _ mem => absurd mem List.not_mem_nil
      | @cons _ piece enc chunk pieces chunks hencrypt hchunk seals =>
          rw [List.flatMap_cons, List.append_assoc] at hin
          obtain ⟨hfits, _, r₁, hnonce, hlen₁, hin₁, hdone⟩ :=
            readMsgFrom_inv correct hencrypt hchunk hlen hin run
          rw [List.length_cons, ← Nonce.increment_after, ← hnonce] at hcount
          rw [← hnonce] at seals
          intro other mem
          obtain rfl | mem := List.mem_cons.mp mem
          · exact hfits
          obtain rfl | ⟨bytes', length', run'⟩ := hdone
          · -- The call returned here, so that there are no more pieces.
            have hnil : pieces.length = 0 := by
              have := congrArg Nonce.value hcount
              simp only [Nonce.after] at this
              omega
            rw [List.length_eq_zero_iff.mp hnil] at mem
            exact absurd mem List.not_mem_nil
          · exact ih seals hlen₁ hin₁ run' hcount other mem

/-- The message is returned, its chunks are used up and nothing else, and the nonce has
counted them. -/
def Reassembles (key : Key) (m : PeerMessage) (pieces : List Bytes) (rest : Bytes) (r : Receiver) :
    Prop :=
  ∃ passes fuel r', readMsg PeerMessageResponse.fromBytes key true passes fuel r = (.ok ⟨m⟩, r') ∧
    r'.nonce = r.nonce.after pieces.length ∧ r'.incoming = rest

/-- What a message needs to be read. -/
theorem needs_of_reassembles (correct : CryptoBox.Correct Key) {key : Key} {m : PeerMessage}
    {pieces : List Bytes} {chunks : List BinaryChunk} {rest : Bytes} {r : Receiver}
    (seals : Seals key r.nonce pieces chunks) (hlen : r.connection.buffer.len ≤ BUFFER_SIZE)
    (hin : r.incoming = chunks.flatMap BinaryChunk.raw ++ rest)
    (reads : Reassembles key m pieces rest r) :
    (∀ first ∈ pieces.head?, 4 ≤ first.length) ∧ ∀ piece ∈ pieces, Fits piece := by
  obtain ⟨passes, fuel, r', run, hcount, _⟩ := reads
  refine ⟨?_, fits_of_readMsgFrom correct seals hlen hin run hcount⟩
  intro first hfirst
  cases seals with
  | nil => cases hfirst
  | @cons _ piece enc chunk pieces chunks hencrypt hchunk seals =>
      cases hfirst
      rw [List.flatMap_cons, List.append_assoc] at hin
      cases fuel with
      | zero => cases run
      | succ fuel => exact (readMsgFrom_inv correct hencrypt hchunk hlen hin run).2.1 rfl

/-- A message is put together just when its first piece has the four bytes of its size and
the chunk of each piece fits into the buffer. -/
theorem readMsg_iff (correct : CryptoBox.Correct Key) {key : Key} {m : PeerMessage}
    (hm : m.HashSized) {b : Bytes} (hb : (PeerMessageResponse.mk m).asBytes = .ok b)
    {pieces : List Bytes} (hsplit : pieces.flatten = b) (hne : ∀ piece ∈ pieces, piece ≠ [])
    {chunks : List BinaryChunk} {rest : Bytes} {r : Receiver}
    (seals : Seals key r.nonce pieces chunks) (hlen : r.connection.buffer.len ≤ BUFFER_SIZE)
    (hin : r.incoming = chunks.flatMap BinaryChunk.raw ++ rest) :
    Reassembles key m pieces rest r ↔
      (∀ first ∈ pieces.head?, 4 ≤ first.length) ∧ ∀ piece ∈ pieces, Fits piece := by
  refine ⟨needs_of_reassembles correct seals hlen hin, ?_⟩
  intro h
  obtain ⟨hfour, hfits⟩ := h
  cases pieces with
  | nil =>
      -- The bytes of a message are not empty.
      have hheader := (PeerMessageResponse.asBytes_header hb).1
      rw [← hsplit] at hheader
      cases hheader
  | cons first others =>
      obtain ⟨r', hrun, hcount, hrest⟩ := readMsg_returns correct hm hb
        (Nat.lt_succ_self BUFFER_SIZE) seals hlen hin hsplit
        (fun piece mem => ⟨hne piece mem, hfits piece mem⟩) (hfour first rfl)
      exact ⟨BUFFER_SIZE + 1, _, r', hrun, hcount, hrest⟩

/-- The chunk of a piece under the plain key. -/
def plainChunk (piece : Bytes) (h : (toBe 2 (piece.length + 16) ++ List.replicate 16 0 ++ piece).take 2 =
      toBe 2 ((toBe 2 (piece.length + 16) ++ List.replicate 16 0 ++ piece).length - 2) ∧
    2 ≤ (toBe 2 (piece.length + 16) ++ List.replicate 16 0 ++ piece).length ∧
    (toBe 2 (piece.length + 16) ++ List.replicate 16 0 ++ piece).length - 2 ≤ CONTENT_LENGTH_MAX) :
    BinaryChunk :=
  ⟨toBe 2 (piece.length + 16) ++ List.replicate 16 0 ++ piece, h⟩

/-- A receiver that is about to get some chunks. -/
def receiving (chunks : List BinaryChunk) : Receiver :=
  ⟨⟨.default, ⟨chunks.flatMap BinaryChunk.raw, fun n => n, fun _ => none⟩⟩, ⟨0⟩⟩

/-- `Disconnect` in two chunks, the size in the first. -/
def afterSize : List BinaryChunk := [plainChunk [0, 0, 0, 2] (by decide), plainChunk [0, 1] (by decide)]

/-- `Disconnect` in two chunks, the size in both. -/
def insideSize : List BinaryChunk := [plainChunk [0] (by decide), plainChunk [0, 0, 2, 0, 1] (by decide)]

theorem asBytes_disconnect :
    (PeerMessageResponse.mk .disconnect).asBytes = .ok [0, 0, 0, 2, 0, 1] := rfl

theorem seals_afterSize :
    Seals PlainKey.plain ⟨0⟩ [[0, 0, 0, 2], [0, 1]] afterSize :=
  .cons rfl rfl (.cons rfl rfl .nil)

theorem seals_insideSize :
    Seals PlainKey.plain ⟨0⟩ [[0], [0, 0, 2, 0, 1]] insideSize :=
  .cons rfl rfl (.cons rfl rfl .nil)

theorem readMsg_iff_disconnect :
    Reassembles PlainKey.plain .disconnect [[0, 0, 0, 2], [0, 1]] [] (receiving afterSize) :=
  (readMsg_iff (m := .disconnect) plain_correct trivial asBytes_disconnect rfl (by decide)
    (r := receiving afterSize) seals_afterSize (Nat.zero_le _) rfl).mpr (by decide)

/-- The size of a message is looked for in its first chunk only. -/
theorem readMsg_short_first :
    Seals PlainKey.plain ⟨0⟩ [[0], [0, 0, 2, 0, 1]] insideSize ∧
    ¬ Reassembles PlainKey.plain .disconnect [[0], [0, 0, 2, 0, 1]] [] (receiving insideSize) := by
  refine ⟨seals_insideSize, fun reads => ?_⟩
  have hin : (receiving insideSize).incoming = insideSize.flatMap BinaryChunk.raw ++ [] := rfl
  have needs := (needs_of_reassembles plain_correct seals_insideSize (Nat.zero_le _) hin reads).1 [0] rfl
  exact absurd needs (by decide)

end Receiver

end NodeFuzzer
