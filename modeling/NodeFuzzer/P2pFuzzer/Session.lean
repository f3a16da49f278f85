import NodeFuzzer.Context.Types
import NodeFuzzer.Messages.Handshake
import NodeFuzzer.P2pFuzzer.ReadMsg
import NodeFuzzer.P2pFuzzer.WriteMsg

/-!
# Sessions

Each side of a connection sends a connection message in a plain chunk.  From the two chunks both
compute the nonces of the two directions with `generate_nonces`, and then send metadata, an
acknowledgement and peer messages in sealed chunks.  The nonce of a direction starts the same on
both sides and counts the chunks on both.

What one side writes without faults the other reads, however the bytes are cut on the way
(`conversation_delivered`).  The step is one message: `Conveys` says of a call that writes and a call
that reads that whatever the first puts on the wire the second takes off, and it goes along with
the binds of both.
-/

namespace NodeFuzzer

variable {Key : Type} [CryptoBox Key]

/-! ## Nonces -/

/-- `NoncePair`. -/
structure NoncePair where
  localNonce : Nonce
  remoteNonce : Nonce
deriving DecidableEq

/-- The bytes of `Init -> Resp`. -/
def INIT_TO_RESP_SEED : Bytes := utf8 "Init -> Resp"

/-- The bytes of `Resp -> Init`. -/
def RESP_TO_INIT_SEED : Bytes := utf8 "Resp -> Init"

/-- `Nonce::new` of the first bytes of a digest. -/
def Nonce.ofDigest (hash : EntryHash) : Nonce := ⟨ofBe (hash.bytes.take NONCE_SIZE)⟩

/-- `generate_nonces`. -/
def generateNonces [Digest] (sentMsg recvMsg : Bytes) (incoming : Bool) : NoncePair :=
  let initMsg := if incoming then recvMsg else sentMsg
  let respMsg := if incoming then sentMsg else recvMsg
  let nonceInitToResp := Nonce.ofDigest (Digest.blake2b (initMsg ++ respMsg ++ INIT_TO_RESP_SEED))
  let nonceRespToInit := Nonce.ofDigest (Digest.blake2b (initMsg ++ respMsg ++ RESP_TO_INIT_SEED))
  if incoming then ⟨nonceInitToResp, nonceRespToInit⟩ else ⟨nonceRespToInit, nonceInitToResp⟩

/-- The nonce one side writes with is the one the other reads with. -/
theorem generateNonces_mirrored [Digest] (sentMsg recvMsg : Bytes) (incoming : Bool) :
    (generateNonces sentMsg recvMsg incoming).localNonce =
      (generateNonces recvMsg sentMsg !incoming).remoteNonce := by
  cases incoming <;> rfl

/-! ## The two sides -/

/-- Nothing is changed and nothing is broken off. -/
structure ChunkOptions.Plain (options : ChunkOptions) : Prop where
  flipBits : options.flipBits.Never
  splitChunks : options.splitChunks.Never
  incompleteSend : options.incompleteSend.Never

/-- What one side says: a connection message, metadata, acknowledgement and peer messages. -/
structure Conversation where
  connection : ConnectionMessage
  metadata : MetadataMessage
  reply : AckMessage
  messages : List PeerMessage

namespace Sender

/-- The connection message, in a chunk that is not sealed. -/
def writeConnection (options : ChunkOptions) (connection : ConnectionMessage) :
    Exec Sender WriteError BinaryChunk := do
  let bytes ← Exec.unwrap connection.asBytes
  let chunk ← Exec.unwrap (BinaryChunk.fromContent bytes)
  writeBytes options chunk.raw
  pure chunk

/-- A peer message. -/
def writePeerMessage (options : ChunkOptions) (key : Key) (m : PeerMessage) :
    Exec Sender WriteError Unit :=
  writeMsg options (PeerMessageResponse.mk m).asBytes key

/-- The messages behind the connection message. -/
def writeSealedMessages (options : ChunkOptions) (key : Key) (said : Conversation) :
    Exec Sender WriteError Unit := do
  writeMsg options said.metadata.asBytes key
  writeMsg options said.reply.asBytes key
  Exec.forEach (writePeerMessage options key) said.messages

/-- All that one side writes, when it gets `received` from the other. -/
def writeSession [Digest] (options : ChunkOptions) (key : Key) (received : BinaryChunk)
    (isIncoming : Bool) (said : Conversation) : Exec Sender WriteError Unit := do
  let sent ← writeConnection options said.connection
  Exec.modify fun s =>
    { s with nonce := (generateNonces sent.raw received.raw isIncoming).localNonce }
  writeSealedMessages options key said

end Sender

namespace Receiver

/-- A peer message. -/
def readPeerMessage (key : Key) (passes : Nat) : Exec Receiver IoError PeerMessageResponse :=
  readMsg PeerMessageResponse.fromBytes key true passes 1

/-- The messages behind the connection message, each in one chunk. -/
def readSealedMessages (key : Key) (passes count : Nat) (connection : ConnectionMessage) :
    Exec Receiver IoError Conversation := do
  let metadata ← readMsg MetadataMessage.fromBytes key false passes 1
  let reply ← readMsg AckMessage.fromBytes key false passes 1
  let responses ← Exec.mapEach (fun _ => readPeerMessage key passes) (List.replicate count ())
  pure ⟨connection, metadata, reply, responses.map PeerMessageResponse.message⟩

/-- All that one side reads, when it has sent `sent` to the other. -/
def readSession [Digest] (key : Key) (sent : BinaryChunk) (isIncoming : Bool) (passes count : Nat) :
    Exec Receiver IoError Conversation := do
  let received ← readChunk passes
  let connection ← Exec.unwrap (ConnectionMessage.fromBytes received.content)
  Exec.modify fun r =>
    { r with nonce := (generateNonces sent.raw received.raw isIncoming).remoteNonce }
  readSealedMessages key passes count connection

end Receiver

/-! ## One message -/

namespace RandomState

variable {s : RandomState}

theorem chunksOf_nil (size fuel : Nat) : chunksOf size fuel [] = [] := by
  cases fuel <;> rfl

/-- A short message is one piece. -/
theorem plainPieces_short {bytes : Bytes} (some : bytes ≠ []) (fits : Receiver.Fits bytes) :
    plainPieces bytes = [bytes] := by
  cases bytes with
  | nil => exact absurd rfl some
  | cons b bytes =>
      have hle : (b :: bytes).length ≤ CONTENT_LENGTH_MAX - MACBYTES := Nat.le_of_lt fits
      rw [plainPieces, List.length_cons, chunksOf, List.take_of_length_le hle,
        List.drop_of_length_le hle, chunksOf_nil]

/-- The chunk of one piece. -/
theorem wp_plainChunks_single (correct : CryptoBox.Correct Key) {key : Key} {bytes : Bytes}
    {nonce : Nonce} (some : bytes ≠ []) (fits : Receiver.Fits bytes)
    (hnonce : nonce.value < 2 ^ 192) :
    Exec.wp (plainChunks bytes key nonce) (fun result _ => ∃ chunk,
      Receiver.Seals key nonce [bytes] [chunk] ∧ result = ([chunk], nonce.increment))
      (fun _ => False) s := by
  obtain ⟨enc, hencrypt, hlen, _⟩ := encrypt_ok correct key bytes hnonce
  have hmax : enc.length ≤ CONTENT_LENGTH_MAX := by
    unfold Receiver.Fits CONTENT_LENGTH_MAX MACBYTES at *
    omega
  obtain ⟨chunk, hchunk, _⟩ := BinaryChunk.fromContent_ok hmax
  rw [plainChunks, plainPieces_short some fits, sealPieces, Exec.wp_bind, sealPiece, Exec.wp_bind,
    hencrypt, Exec.wp_unwrap_ok, hchunk, Exec.wp_unwrap_ok]
  exact ⟨chunk, .cons hencrypt hchunk .nil, rfl⟩

end RandomState

namespace Sender

variable {options : ChunkOptions} {s : Sender}

/-- A short message goes over the wire as one chunk. -/
theorem wp_writeMsg (correct : CryptoBox.Correct Key) (plain : options.Plain) {key : Key}
    {asBytes : Except BinaryWriterError Bytes} {bytes : Bytes} (hb : asBytes = .ok bytes)
    (some : bytes ≠ []) (fits : Receiver.Fits bytes) (hnonce : s.nonce.value < 2 ^ 192) :
    Exec.wp (writeMsg options asBytes key) (fun _ t => ∃ chunk,
      Receiver.Seals key s.nonce [bytes] [chunk] ∧
      t.stream.sent = s.stream.sent ++ chunk.raw ∧ t.nonce = s.nonce.increment ∧
      (s.stream.Whole → t.stream.Whole)) (fun _ => ¬ s.stream.Whole) s := by
  rw [writeMsg, hb, Exec.wp_bind, Exec.wp_unwrap_ok, writeBytesEncrypted, Exec.wp_bind]
  refine wp_toss fun flip g _ noFlip => ?_
  rw [noFlip plain.flipBits, if_neg Bool.false_ne_true, Exec.wp_bind, Exec.wp_pure, writeSealed,
    Exec.wp_bind]
  refine wp_toss fun split g' _ noSplit => ?_
  rw [noSplit plain.splitChunks, Exec.wp_bind, Exec.wp_gets, Exec.wp_bind]
  refine wp_draws (Exec.wp_mono (RandomState.wp_plainChunks_single correct some fits hnonce) ?_
    fun _ => False.elim)
  intro result g'' h
  obtain ⟨chunk, hseals, rfl⟩ := h
  rw [Exec.wp_bind, Exec.wp_modify]
  refine Exec.wp_mono wp_writeChunks ?_ fun _ broke => broke.choose_spec.2.broken
  intro _ t h
  obtain ⟨parts, hparts, wrote⟩ := h
  refine ⟨chunk, hseals, ?_, wrote.nonce, wrote.whole⟩
  rw [wrote.sent, delivered_complete plain.incompleteSend hparts, List.flatMap_singleton]

end Sender

namespace Receiver

/-- A message that came in one chunk. -/
theorem readMsg_single (correct : CryptoBox.Correct Key) {M : Type}
    {fromBytes : Bytes → Except BinaryReaderError M} {key : Key} {peerMessage : Bool} {bytes : Bytes}
    {m : M} (hfrom : fromBytes bytes = .ok m) (fits : Fits bytes)
    (hlength : peerMessage = true → messageLength true bytes 0 = some bytes.length) {passes : Nat}
    (enough : BUFFER_SIZE < passes) {chunk : BinaryChunk} {rest : Bytes} {r : Receiver}
    (seals : Seals key r.nonce [bytes] [chunk]) (hlen : r.connection.buffer.len ≤ BUFFER_SIZE)
    (hin : r.incoming = chunk.raw ++ rest) :
    ∃ r', readMsg fromBytes key peerMessage passes 1 r = (.ok m, r') ∧
      r'.nonce = r.nonce.increment ∧ r'.connection.buffer.len ≤ BUFFER_SIZE ∧
      r'.incoming = rest := by
  cases seals with
  | @cons _ _ enc _ _ _ hencrypt hchunk _ =>
      obtain ⟨hopen, hsize⟩ := sealed_chunk correct hencrypt hchunk
      obtain ⟨r₁, hread, hnonce, hlen₁, hin₁⟩ := readChunk_next hlen hin (fits.small hsize) enough
      refine ⟨{ r₁ with nonce := r.nonce.increment }, ?_, rfl, hlen₁, hin₁⟩
      rw [readMsg, readMsgFrom, Exec.bind_ok hread]
      cases peerMessage with
      | false =>
          simp [Bind.bind, Exec.bind, Exec.gets, Exec.modify, Exec.orAbort, Pure.pure, Exec.pure,
            messageLength, hnonce, hopen, hfrom]
      | true =>
          simp [Bind.bind, Exec.bind, Exec.gets, Exec.modify, Exec.orAbort, Pure.pure, Exec.pure,
            hlength rfl, hnonce, hopen, hfrom]

end Receiver

/-! ## What is written is read -/

/-- From a nonce on, a call takes just these bytes off the wire and returns this value. -/
def Receiver.Reads {α : Type} (read : Exec Receiver IoError α) (a : α) (nonce : Nonce) (wire : Bytes)
    (next : Nonce) : Prop :=
  ∀ (r : Receiver) (rest : Bytes), r.nonce = nonce → r.connection.buffer.len ≤ BUFFER_SIZE →
    r.incoming = wire ++ rest → ∃ r', read r = (.ok a, r') ∧ r'.nonce = next ∧
      r'.connection.buffer.len ≤ BUFFER_SIZE ∧ r'.incoming = rest

/-- Some bytes, and the chunks they seal, go from a call that writes to one that reads. -/
structure Conveyed {α : Type} (s : Sender) (read : Exec Receiver IoError α) (a : α) (chunks : Nat)
    (wire : Bytes) (t : Sender) : Prop where
  sent : t.stream.sent = s.stream.sent ++ wire
  nonce : t.nonce = s.nonce.after chunks
  whole : s.stream.Whole → t.stream.Whole
  reads : Receiver.Reads read a s.nonce wire t.nonce

/-- What one call writes the other reads, in so many chunks. -/
def Conveys {α : Type} (write : Exec Sender WriteError Unit) (read : Exec Receiver IoError α) (a : α)
    (chunks : Nat) : Prop :=
  ∀ s : Sender, s.nonce.value + chunks ≤ 2 ^ 192 →
    Exec.wp write (fun _ t => ∃ wire, Conveyed s read a chunks wire t) (fun _ => ¬ s.stream.Whole) s

namespace Conveys

variable {α β : Type} {write write' : Exec Sender WriteError Unit} {read : Exec Receiver IoError α}
variable {a : α} {n m : Nat}

/-- Nothing is conveyed by doing nothing. -/
theorem nothing (a : α) : Conveys (pure ()) (pure a) a 0 := by
  intro s _
  refine ⟨[], (List.append_nil _).symm, rfl, id, ?_⟩
  intro r rest hnonce hlen hin
  exact ⟨r, rfl, hnonce, hlen, hin⟩

/-- One after the other. -/
theorem bind {next : α → Exec Receiver IoError β} {b : β} (first : Conveys write read a n)
    (second : Conveys write' (next a) b m) :
    Conveys (write >>= fun _ => write') (read >>= next) b (n + m) := by
  intro s hbound
  rw [Exec.wp_bind]
  refine Exec.wp_mono (first s (by omega)) ?_ fun _ broken => broken
  intro _ t h
  obtain ⟨wire, conveyed⟩ := h
  have hnext : t.nonce.value + m ≤ 2 ^ 192 := by
    simp only [conveyed.nonce, Nonce.after]
    omega
  refine Exec.wp_mono (second t hnext) ?_ fun _ broken whole => broken (conveyed.whole whole)
  intro _ u h
  obtain ⟨wire', conveyed'⟩ := h
  refine ⟨wire ++ wire', ?_, ?_, fun whole => conveyed'.whole (conveyed.whole whole), ?_⟩
  · rw [conveyed'.sent, conveyed.sent, List.append_assoc]
  · rw [conveyed'.nonce, conveyed.nonce]
    simp only [Nonce.after, Nat.add_assoc]
  · intro r rest hnonce hlen hin
    rw [List.append_assoc] at hin
    obtain ⟨r₁, hread, hnonce₁, hlen₁, hin₁⟩ := conveyed.reads r _ hnonce hlen hin
    obtain ⟨r₂, hread', rest'⟩ := conveyed'.reads r₁ rest hnonce₁ hlen₁ hin₁
    exact ⟨r₂, (Exec.bind_ok hread).trans hread', rest'⟩

/-- What is read may be looked at in another way. -/
theorem map (f : α → β) (h : Conveys write read a n) :
    Conveys write (read >>= fun a => pure (f a)) (f a) n := by
  intro s hbound
  refine Exec.wp_mono (h s hbound) ?_ fun _ broken => broken
  intro _ t h
  obtain ⟨wire, conveyed⟩ := h
  refine ⟨wire, conveyed.sent, conveyed.nonce, conveyed.whole, ?_⟩
  intro r rest hnonce hlen hin
  obtain ⟨r', hread, rest'⟩ := conveyed.reads r rest hnonce hlen hin
  exact ⟨r', Exec.bind_ok hread, rest'⟩

/-- A loop that writes and one that reads. -/
theorem each {f : β → Exec Sender WriteError Unit} {g : β → α} {l : List β}
    (h : ∀ b ∈ l, Conveys (f b) read (g b) 1) :
    Conveys (Exec.forEach f l) (Exec.mapEach (fun _ => read) (List.replicate l.length ()))
      (l.map g) l.length := by
  induction l with
  | nil => exact nothing []
  | cons b l ih =>
      rw [List.length_cons, List.replicate_succ, Exec.mapEach, List.map_cons, Nat.add_comm]
      refine (h b List.mem_cons_self).bind ?_
      exact (ih fun c hc => h c (List.mem_cons_of_mem b hc)).map (g b :: ·)

/-- A message that fits into one chunk. -/
theorem message (correct : CryptoBox.Correct Key) {options : ChunkOptions} (plain : options.Plain)
    {M : Type} {fromBytes : Bytes → Except BinaryReaderError M} {key : Key} {peerMessage : Bool}
    {asBytes : Except BinaryWriterError Bytes} {bytes : Bytes} {msg : M} (hb : asBytes = .ok bytes)
    (hfrom : fromBytes bytes = .ok msg) (some : bytes ≠ []) (fits : Receiver.Fits bytes)
    (hlength : peerMessage = true → Receiver.messageLength true bytes 0 = .some bytes.length)
    {passes : Nat} (enough : BUFFER_SIZE < passes) :
    Conveys (Sender.writeMsg options asBytes key)
      (Receiver.readMsg fromBytes key peerMessage passes 1) msg 1 := by
  intro s hbound
  refine Exec.wp_mono (Sender.wp_writeMsg correct plain hb some fits (by omega)) ?_
    fun _ broken => broken
  intro _ t h
  obtain ⟨chunk, seals, hsent, hnonce, hwhole⟩ := h
  refine ⟨chunk.raw, hsent, hnonce, hwhole, ?_⟩
  intro r rest hr hlen hin
  rw [← hr] at seals
  rw [hnonce, ← hr]
  exact Receiver.readMsg_single correct hfrom fits hlength enough seals hlen hin

end Conveys

/-! ## Whole conversations -/

/-- The messages of a said can be written, each into one chunk. -/
structure Conversation.Fits (said : Conversation) : Prop where
  reply : ∃ b, said.reply.asBytes = .ok b
  messages : ∀ m ∈ said.messages, m.HashSized ∧
    ∃ b, (PeerMessageResponse.mk m).asBytes = .ok b ∧ Receiver.Fits b

/-- The chunk of a connection message. -/
def ConnectionMessage.IsSent (connection : ConnectionMessage) (chunk : BinaryChunk) : Prop :=
  ∃ b, connection.asBytes = .ok b ∧ BinaryChunk.fromContent b = .ok chunk

theorem MetadataMessage.asBytes_ok (m : MetadataMessage) : ∃ b, m.asBytes = .ok b ∧ b ≠ [] := by
  obtain ⟨disableMempool, privateNode⟩ := m
  cases disableMempool <;> cases privateNode <;> exact ⟨_, rfl, by simp⟩

theorem AckMessage.asBytes_ne_nil {m : AckMessage} {b : Bytes} (hb : m.asBytes = .ok b) :
    b ≠ [] := by
  intro hnil
  have hread := AckMessage.fromBytes_of_asBytes hb
  rw [hnil] at hread
  cases hread

/-- The size of a message stands in its first four bytes. -/
theorem PeerMessageResponse.four_le_length {r : PeerMessageResponse} {b : Bytes}
    (hb : r.asBytes = .ok b) : 4 ≤ b.length := by
  have hlen := congrArg List.length (asBytes_header hb).1
  rw [List.length_take, toBe_length] at hlen
  omega

namespace Conveys

variable {options : ChunkOptions} {key : Key} {passes : Nat}

/-- A peer message. -/
theorem peerMessage (correct : CryptoBox.Correct Key) (plain : options.Plain) {m : PeerMessage}
    (hm : m.HashSized) {b : Bytes} (hb : (PeerMessageResponse.mk m).asBytes = .ok b)
    (fits : Receiver.Fits b) (enough : BUFFER_SIZE < passes) :
    Conveys (Sender.writePeerMessage options key m) (Receiver.readPeerMessage key passes) ⟨m⟩ 1 := by
  have hfour := PeerMessageResponse.four_le_length hb
  have some : b ≠ [] := by
    intro hnil
    rw [hnil] at hfour
    simp at hfour
  refine message correct plain hb (PeerMessageResponse.fromBytes_of_asBytes hm hb) some fits ?_ enough
  intro _
  exact Receiver.messageLength_first hb (List.append_nil b) hfour

/-- The sealed messages of a said. -/
theorem sealedMessages (correct : CryptoBox.Correct Key) (plain : options.Plain) {said : Conversation}
    (fits : said.Fits) (enough : BUFFER_SIZE < passes) :
    Conveys (Sender.writeSealedMessages options key said)
      (Receiver.readSealedMessages key passes said.messages.length said.connection) said
      (1 + (1 + said.messages.length)) := by
  obtain ⟨metadata, hmetadata, some⟩ := said.metadata.asBytes_ok
  obtain ⟨reply, hreply⟩ := fits.reply
  have small : Receiver.Fits metadata :=
    lt_of_le_of_lt (b := 2) (MetadataMessage.asBytes_length hmetadata) (by decide)
  have short : Receiver.Fits reply :=
    lt_of_le_of_lt (b := 5107) (AckMessage.asBytes_length hreply) (by decide)
  have peers : Conveys (Exec.forEach (Sender.writePeerMessage options key) said.messages)
      (Exec.mapEach (fun _ => Receiver.readPeerMessage key passes)
        (List.replicate said.messages.length ()))
      (said.messages.map PeerMessageResponse.mk) said.messages.length := by
    refine each fun m mem => ?_
    obtain ⟨hsized, b, hb, hfits⟩ := fits.messages m mem
    exact peerMessage correct plain hsized hb hfits enough
  refine (message correct plain hmetadata (MetadataMessage.fromBytes_of_asBytes hmetadata) some small
    (by simp) enough).bind ?_
  refine (message correct plain hreply (AckMessage.fromBytes_of_asBytes hreply)
    (AckMessage.asBytes_ne_nil hreply) short (by simp) enough).bind ?_
  have whole := peers.map fun responses =>
    (⟨said.connection, said.metadata, said.reply,
      responses.map PeerMessageResponse.message⟩ : Conversation)
  simpa [List.map_map, Function.comp_def] using whole

end Conveys

/-- What is read behind a connection message. -/
theorem Receiver.readSession_next [Digest] {key : Key} {sent received : BinaryChunk}
    {isIncoming : Bool} {passes : Nat} {said : Conversation} (hsent : said.connection.IsSent sent)
    {wire : Bytes} {next : Nonce}
    (reads : Reads (readSealedMessages key passes said.messages.length said.connection) said
      (generateNonces received.raw sent.raw isIncoming).remoteNonce wire next)
    (enough : BUFFER_SIZE < passes) {r : Receiver} (hlen : r.connection.buffer.len ≤ BUFFER_SIZE)
    {rest : Bytes} (hin : r.incoming = sent.raw ++ (wire ++ rest)) :
    ∃ r', readSession key received isIncoming passes said.messages.length r = (.ok said, r') ∧
      r'.nonce = next ∧ r'.incoming = rest := by
  obtain ⟨b, hb, hchunk⟩ := hsent
  have hcontent := content_of_fromContent hchunk
  have small : sent.content.length ≤ 0xFFFE := by
    have := ConnectionMessage.asBytes_length hb
    rw [hcontent]
    omega
  obtain ⟨r₁, hread, _, hlen₁, hin₁⟩ := readChunk_next hlen hin small enough
  obtain ⟨r', hrest, hnonce, _, hin'⟩ := reads
    { r₁ with nonce := (generateNonces received.raw sent.raw isIncoming).remoteNonce } rest rfl hlen₁
    hin₁
  refine ⟨r', ?_, hnonce, hin'⟩
  rw [readSession, Exec.bind_ok hread, hcontent, ConnectionMessage.fromBytes_of_asBytes hb]
  exact hrest

/-- One side writes a conversation, and the other reads it. -/
theorem wp_writeSession [Digest] (correct : CryptoBox.Correct Key) {options : ChunkOptions}
    (plain : options.Plain) {said : Conversation} (fits : said.Fits) {sent received : BinaryChunk}
    (hsent : said.connection.IsSent sent) {isIncoming : Bool} {key : Key} {s : Sender}
    (hnonce : (generateNonces sent.raw received.raw isIncoming).localNonce.value +
      (2 + said.messages.length) ≤ 2 ^ 192) {passes : Nat} (enough : BUFFER_SIZE < passes) :
    Exec.wp (Sender.writeSession options key received isIncoming said) (fun _ t => ∃ wire,
      t.stream.sent = s.stream.sent ++ wire ∧
      ∀ (r : Receiver) (rest : Bytes), r.connection.buffer.len ≤ BUFFER_SIZE →
        r.incoming = wire ++ rest →
        ∃ r', Receiver.readSession key received (!isIncoming) passes said.messages.length r =
          (.ok said, r') ∧ r'.nonce = t.nonce ∧ r'.incoming = rest)
      (fun _ => ¬ s.stream.Whole) s := by
  obtain ⟨b, hb, hchunk⟩ := hsent
  rw [Sender.writeSession, Sender.writeConnection, hb]
  simp only [Exec.wp_bind, Exec.wp_unwrap_ok, hchunk, Exec.wp_pure, Exec.wp_modify]
  refine Exec.wp_mono Sender.wp_writeBytes ?_ fun _ broke => broke.broken
  intro _ t h
  obtain ⟨written, delivered, wrote⟩ := h
  rw [delivered.complete plain.incompleteSend] at wrote
  have conveys : Conveys (Sender.writeSealedMessages options key said)
      (Receiver.readSealedMessages key passes said.messages.length said.connection) said _ :=
    .sealedMessages correct plain fits enough
  have sealedMessages := conveys
    { t with nonce := (generateNonces sent.raw received.raw isIncoming).localNonce } (by
      dsimp only
      omega)
  refine Exec.wp_mono sealedMessages ?_ fun _ broken whole => broken (wrote.whole whole)
  intro _ u h
  obtain ⟨wire, conveyed⟩ := h
  refine ⟨sent.raw ++ wire, ?_, ?_⟩
  · rw [conveyed.sent, wrote.sent, List.append_assoc]
  · intro r rest hlen hin
    rw [List.append_assoc] at hin
    have reads := conveyed.reads
    dsimp only at reads
    rw [generateNonces_mirrored] at reads
    exact Receiver.readSession_next ⟨b, hb, hchunk⟩ reads enough hlen hin

/-- Whatever a said is, once both sides have each other's connection message, what one side
writes without faults the other reads, message by message: the bytes may be written in slices and
arrive in any amounts.  Nothing that follows is touched, and the nonces agree.  All is written
unless the stream breaks. -/
theorem conversation_delivered [Digest] (correct : CryptoBox.Correct Key) {options : ChunkOptions}
    (plain : options.Plain) {said : Conversation} (fits : said.Fits) {sent received : BinaryChunk}
    (hsent : said.connection.IsSent sent) {isIncoming : Bool} {key : Key} {s : Sender}
    (hnonce : (generateNonces sent.raw received.raw isIncoming).localNonce.value +
      (2 + said.messages.length) ≤ 2 ^ 192) {passes : Nat} (enough : BUFFER_SIZE < passes) :
    (s.stream.Whole →
      ∃ t, Sender.writeSession options key received isIncoming said s = (.ok (), t)) ∧
    ∀ t, Sender.writeSession options key received isIncoming said s = (.ok (), t) → ∃ wire,
      t.stream.sent = s.stream.sent ++ wire ∧
      ∀ (r : Receiver) (rest : Bytes), r.connection.buffer.len ≤ BUFFER_SIZE →
        r.incoming = wire ++ rest →
        ∃ r', Receiver.readSession key received (!isIncoming) passes said.messages.length r =
          (.ok said, r') ∧ r'.nonce = t.nonce ∧ r'.incoming = rest :=
  Sender.returns_of_wp (wp_writeSession correct plain fits hsent hnonce enough)

section Sample

local instance sessionDigest : Digest := sampleDigest

/-- A sender with a stream that takes everything. -/
def Sender.fresh : Sender := ⟨RandomState.new ⟨fun n => 2 ^ 63 * (n % 2)⟩ 0 2, ⟨0⟩, ⟨[], fun _ => none⟩⟩

/-- Everything is written in slices. -/
def sliced : ChunkOptions := ⟨.below 0, .below 0, .always, .below 0, .below 0⟩

theorem sliced_plain : sliced.Plain := ⟨rfl, rfl, rfl⟩

/-- A said with two messages. -/
def sampleConversation : Conversation :=
  ⟨⟨9732, List.replicate 32 7, List.replicate 24 1, List.replicate 24 2, ⟨"TEZOS", 0, 1⟩⟩,
    ⟨false, true⟩, .ack, [.bootstrap, .disconnect]⟩

/-- The bytes of its connection message. -/
def sampleConnectionBytes : Bytes :=
  [38, 4] ++ List.replicate 32 7 ++ List.replicate 24 1 ++ List.replicate 24 2 ++
    [0, 0, 0, 5, 84, 69, 90, 79, 83, 0, 0, 0, 1]

/-- Its connection message on the wire. -/
def sampleConnectionChunk : BinaryChunk := ⟨[0, 95] ++ sampleConnectionBytes, by decide⟩

theorem sampleConversation_fits : sampleConversation.Fits := by
  refine ⟨⟨_, rfl⟩, ?_⟩
  intro m mem
  rcases List.mem_pair.mp mem with rfl | rfl
  · exact ⟨trivial, _, rfl, by decide⟩
  · exact ⟨trivial, _, rfl, by decide⟩

theorem sampleConversation_isSent : sampleConversation.connection.IsSent sampleConnectionChunk := by
  refine ⟨sampleConnectionBytes, ?_, ?_⟩
  · decide +kernel
  · decide +kernel

theorem sampleConversation_nonce : (generateNonces sampleConnectionChunk.raw sampleConnectionChunk.raw
    false).localNonce.value + (2 + sampleConversation.messages.length) ≤ 2 ^ 192 := by
  decide +kernel

theorem conversation_delivered_two :
    (Sender.fresh.stream.Whole → ∃ t, Sender.writeSession sliced PlainKey.plain sampleConnectionChunk
      false sampleConversation Sender.fresh = (.ok (), t)) ∧
    ∀ t, Sender.writeSession sliced PlainKey.plain sampleConnectionChunk false sampleConversation
        Sender.fresh = (.ok (), t) → ∃ wire, t.stream.sent = Sender.fresh.stream.sent ++ wire ∧
      ∀ (r : Receiver) (rest : Bytes), r.connection.buffer.len ≤ BUFFER_SIZE →
        r.incoming = wire ++ rest →
        ∃ r', Receiver.readSession PlainKey.plain sampleConnectionChunk true (BUFFER_SIZE + 1) 2 r =
          (.ok sampleConversation, r') ∧ r'.nonce = t.nonce ∧ r'.incoming = rest :=
  conversation_delivered plain_correct sliced_plain sampleConversation_fits sampleConversation_isSent
    sampleConversation_nonce (Nat.lt_succ_self BUFFER_SIZE)

end Sample

end NodeFuzzer
