import NodeFuzzer.P2pFuzzer.PeerMessages

/-!
# Fuzzing a peer

`fuzz` connects to the peer, goes through the handshake and then round and round, and `worker`
starts it again whenever it ends, with the same generator.

*Order.*  Whatever is drawn and whatever the peer sends, a connection message goes over the wire
first, then metadata, then an acknowledgement, and only then peer messages; the sealed ones under
the key and the nonces of both connection messages (`converse_converses`).

*Blocks.*  A worker has no room for blocks, so that it never replies to a request of blocks
(`worker_sends_no_blocks`).
-/

namespace NodeFuzzer

open RandomState (OnlyGives)

variable {Key : Type} [CryptoBox Key]

/-! ## What a profile has -/

/-- `HandshakeOptions`, without the lengths of the sleeps. -/
structure HandshakeOptions where
  chunkOptions : ChunkOptions
  abortBeforeConnect : Chance
  connectSleep : Chance
  connectMsgSleep : Chance
  fuzzPublicKey : Chance
  fuzzPow : Chance
  fuzzNetworkVersion : Chance
  abortBeforeMetadata : Chance
  metadataMsgSleep : Chance
  recvMetadata : Chance
  fuzzMetadata : Chance
  abortBeforeAck : Chance
  ackMsgSleep : Chance
  fuzzAck : Chance
  recvAck : Chance

/-- A probability of `0.01`. -/
def Chance.percent : Chance := .below 184467440737095520

/-- A probability of `0.9`. -/
def Chance.most : Chance := .below 16602069666338596864

/-- A probability of `0.5`. -/
def Chance.even : Chance := .below (2 ^ 63)

/-- The options of `fuzz` when the profile has none. -/
def HandshakeOptions.default : HandshakeOptions where
  chunkOptions := ⟨.percent, .percent, .percent, .percent, .percent⟩
  abortBeforeConnect := .percent
  connectSleep := .percent
  connectMsgSleep := .percent
  fuzzPublicKey := .percent
  fuzzPow := .percent
  fuzzNetworkVersion := .percent
  abortBeforeMetadata := .percent
  metadataMsgSleep := .percent
  recvMetadata := .most
  fuzzMetadata := .percent
  abortBeforeAck := .percent
  ackMsgSleep := .percent
  fuzzAck := .percent
  recvAck := .most

/-- `Profile`, as far as a worker reads it. -/
structure Profile where
  maxChunkSize : Nat
  handshakeFuzzing : Option HandshakeOptions
  peerMessageFuzzing : Option PeerMessageOptions

/-- The options of the handshake. -/
def Profile.handshake (profile : Profile) : HandshakeOptions :=
  profile.handshakeFuzzing.getD .default

/-- `Identity`, without the id of the peer. -/
structure Identity where
  publicKey : Bytes
  secretKey : Bytes
  proofOfWorkStamp : Bytes
  publicKey_length : publicKey.length = CRYPTO_KEY_SIZE
  proofOfWorkStamp_length : proofOfWorkStamp.length = POW_SIZE

/-- `precompute` of the cryptographic library, from the public key of the peer and the secret key. -/
class KeyExchange (Key : Type) where
  precompute : Bytes → Bytes → Key

/-- `ensure_crypto_key_bytes`, the check of `PublicKey::from_bytes`. -/
def ensureCryptoKeyBytes (buf : Bytes) : Option Bytes :=
  if buf.length = CRYPTO_KEY_SIZE then some buf else none

/-- `ConnectionMessage::try_new`. -/
def ConnectionMessage.tryNew (port : UInt16) (publicKey proofOfWorkStamp : Bytes)
    (messageNonce : Nonce) (version : NetworkVersion) : Except CryptoError ConnectionMessage := do
  let messageNonce ← messageNonce.getBytes
  pure ⟨port, publicKey, proofOfWorkStamp, messageNonce, version⟩

/-! ## What is made up -/

namespace RandomState

/-- `Generator<version::NetworkVersion>`. -/
def genNetworkVersion : Gen NetworkVersion := do
  let size ← genRange 0 CHAIN_NAME_MAX_LENGTH
  let chainName ← genString size
  let distributedDbVersion ← genT UInt16
  let p2pVersion ← genT UInt16
  pure ⟨chainName, distributedDbVersion, p2pVersion⟩

/-- `Generator<PublicKey>`. -/
def genPublicKey : Gen Bytes := do
  let publicKey ← genVec UInt8 CRYPTO_KEY_SIZE
  Exec.orAbort (ensureCryptoKeyBytes publicKey)

/-- `Generator<ProofOfWork>`. -/
def genProofOfWork : Gen Bytes := genVec UInt8 POW_SIZE

/-- `Generator<Nonce>`. -/
def genNonce : Gen Nonce := do
  let nonce ← genVec UInt8 NONCE_SIZE
  pure ⟨ofBe nonce⟩

/-- `Generator<metadata::MetadataMessage>`. -/
def genMetadataMessage : Gen MetadataMessage := do
  let disableMempool ← genT Bool
  let privateNode ← genT Bool
  pure ⟨disableMempool, privateNode⟩

/-- The motive of a number. -/
def motive : Nat → NackMotive
  | 0 => .noMotive
  | 1 => .tooManyConnections
  | 2 => .unknownChainName
  | 3 => .deprecatedP2pVersion
  | 4 => .deprecatedDistributedDbVersion
  | _ => .alreadyConnected

/-- `Generator<ack::NackInfo>`. -/
def genNackInfo : Gen NackInfo := do
  let number ← genRange 0 6
  let remaining ← genRange 0 NACK_PEERS_MAX_LENGTH
  let peers ← collect remaining (genText P2P_POINT_MAX_LENGTH)
  pure ⟨motive number, peers⟩

/-- Something that is made up, by some chance. -/
def genOr {T : Type} (chance : Chance) (gen : Gen T) (valid : T) : Gen T := do
  let fuzz ← chance.toss
  if fuzz then gen else pure valid

/-- The network version of a node on the main network. -/
def mainnetVersion : NetworkVersion := ⟨"TEZOS_MAINNET", 0, 1⟩

/-- The connection message of `fuzz`. -/
def genConnection (options : HandshakeOptions) (identity : Identity) : Gen ConnectionMessage := do
  let version ← genOr options.fuzzNetworkVersion genNetworkVersion mainnetVersion
  let publicKey ← genOr options.fuzzPublicKey genPublicKey identity.publicKey
  let pow ← genOr options.fuzzPow genProofOfWork identity.proofOfWorkStamp
  let port ← genT UInt16
  let nonce ← genNonce
  Exec.unwrap (ConnectionMessage.tryNew port publicKey pow nonce version)

/-- The metadata of `fuzz`. -/
def genMetadata (options : HandshakeOptions) : Gen MetadataMessage :=
  genOr options.fuzzMetadata genMetadataMessage ⟨false, false⟩

/-- The acknowledgement of `fuzz` that is none. -/
def genNack : Gen AckMessage := do
  let short ← Chance.even.toss
  if short then pure .nackV0
  else do
    let info ← genNackInfo
    pure (.nack info)

/-- The acknowledgement of `fuzz`. -/
def genAck (options : HandshakeOptions) : Gen AckMessage := genOr options.fuzzAck genNack .ack

end RandomState

/-! ## The handshake -/

/-- The part of `fuzz` up to the connection message: its chunk, or nothing when it ends before. -/
def Sender.greet (options : HandshakeOptions) (identity : Identity) :
    Exec Sender WriteError (Option BinaryChunk) := do
  let abort ← draws options.abortBeforeConnect.toss
  if abort then pure none
  else do
    -- The sleeps themselves change nothing.
    let _ ← draws options.connectSleep.toss
    let connectionMessage ← draws (RandomState.genConnection options identity)
    let initiatorChunk ← writeConnection options.chunkOptions connectionMessage
    pure (some initiatorChunk)

namespace Fuzzer

/-- A coin of the generator. -/
def toss (chance : Chance) : Exec Fuzzer FuzzError Bool := writes (Sender.draws chance.toss)

/-- The part of `fuzz` that reads the connection message of the peer: the key, with the nonces of
both directions. -/
def meet [Digest] [KeyExchange Key] (identity : Identity) (initiatorChunk : BinaryChunk)
    (passes : Nat) : Exec Fuzzer FuzzError Key := do
  let responderChunk ← reads (Receiver.readChunk passes)
  let connectionMessage ← Exec.unwrap (ConnectionMessage.fromBytes responderChunk.content)
  let publicKey ← Exec.orAbort (ensureCryptoKeyBytes connectionMessage.publicKey)
  Exec.modify fun f =>
    let nonces := generateNonces initiatorChunk.raw responderChunk.raw false
    ⟨{ f.sender with nonce := nonces.localNonce }, { f.receiver with nonce := nonces.remoteNonce }⟩
  pure (KeyExchange.precompute publicKey identity.secretKey)

/-- Read a message, by some chance, and go on. -/
def receive {M : Type} (chance : Chance) (fromBytes : Bytes → Except BinaryReaderError M) (key : Key)
    (passes fuel : Nat) : Exec Fuzzer FuzzError Unit := do
  let recv ← toss chance
  if recv then do
    let _ ← reads (Receiver.readMsg fromBytes key false passes fuel)
    pure ()
  else pure ()

/-- The part of `fuzz` behind the connection messages; whether it comes to its end. -/
def agree (options : HandshakeOptions) (key : Key) (passes fuel : Nat) :
    Exec Fuzzer FuzzError Bool := do
  let metadata ← writes (Sender.draws (RandomState.genMetadata options))
  writes (Sender.writeMsg options.chunkOptions metadata.asBytes key)
  receive options.recvMetadata MetadataMessage.fromBytes key passes fuel
  let abort ← toss options.abortBeforeAck
  if abort then pure false
  else do
    let _ ← toss options.metadataMsgSleep
    let ackMessage ← writes (Sender.draws (RandomState.genAck options))
    writes (Sender.writeMsg options.chunkOptions ackMessage.asBytes key)
    let _ ← toss options.ackMsgSleep
    receive options.recvAck AckMessage.fromBytes key passes fuel
    pure true

/-- The handshake of `fuzz`: the key, or nothing when it ends before. -/
def handshake [Digest] [KeyExchange Key] (options : HandshakeOptions) (identity : Identity)
    (passes fuel : Nat) : Exec Fuzzer FuzzError (Option Key) := do
  let greeting ← writes (Sender.greet options identity)
  match greeting with
  | none => pure none
  | some initiatorChunk => do
      let abort ← toss options.abortBeforeMetadata
      if abort then pure none
      else do
        let _ ← toss options.connectMsgSleep
        let key ← meet identity initiatorChunk passes
        let agreed ← agree options key passes fuel
        pure (if agreed then some key else none)

/-- `fuzz` on a connection, up to the first `n` passes of its loop; whether it is in the loop. -/
def converse (Key : Type) [CryptoBox Key] [Digest] [KeyExchange Key] [Blake2b] (profile : Profile)
    (identity : Identity) (passes fuel n : Nat) : Exec Fuzzer FuzzError Bool := do
  let key : Option Key ← handshake profile.handshake identity passes fuel
  match key, profile.peerMessageFuzzing with
  | some key, some options => do
      fuzzLoop options key passes fuel n
      pure true
  | _, _ => pure false

/-- The two directions of a new connection. -/
def connected (generator : RandomState) (sink : TcpSink) (stream : TcpStream) : Fuzzer :=
  ⟨⟨generator, ⟨0⟩, sink⟩, ⟨⟨.default, stream⟩, ⟨0⟩⟩⟩

end Fuzzer

/-! ## The worker -/

/-- The address `fuzz` binds to, and its port. -/
def RandomState.genSource : Gen (Nat × Nat × Nat) := do
  let c ← genRange 0 255
  let d ← genRange 2 255
  let port ← genRange 2000 0xffff
  pure (c, d, port)

/-- The identity `fuzz` takes. -/
def RandomState.genIdentity (identities : List Identity) : Gen Identity := do
  let index ← genRange 0 identities.length
  Exec.orAbort identities[index]?

/-- What a call of `fuzz` meets with: the connection, if there is one, and how far it goes. -/
structure Dial where
  peer : Option (TcpSink × TcpStream)
  passes : Nat
  fuel : Nat
  rounds : Nat

/-- `fuzz`, with the generator as its state. -/
def fuzz (Key : Type) [CryptoBox Key] [Digest] [KeyExchange Key] [Blake2b] (profile : Profile)
    (identities : List Identity) (dial : Dial) : Exec RandomState FuzzError Unit := do
  let _ ← Exec.mapErr Empty.elim RandomState.genSource
  match dial.peer with
  | none => Exec.fail .connect
  | some (sink, stream) => do
      let identity ← Exec.mapErr Empty.elim (RandomState.genIdentity identities)
      let inLoop ← (fun generator =>
        let run := Fuzzer.converse Key profile identity dial.passes dial.fuel dial.rounds
          (Fuzzer.connected generator sink stream)
        (run.1, run.2.sender.generator) : Exec RandomState FuzzError Bool)
      -- Nothing but an error ends the loop.
      if inLoop then Exec.abort else pure ()

/-- The loop of `worker`, as often as there are connections. -/
def workerLoop (Key : Type) [CryptoBox Key] [Digest] [KeyExchange Key] [Blake2b] (profile : Profile)
    (identities : List Identity) : List Dial → Exec RandomState Empty Unit
  | [] => pure ()
  | dial :: dials => do
      Exec.handle (fun _ => pure ()) (fuzz Key profile identities dial)
      workerLoop Key profile identities dials

/-- `worker`, with the outcomes its seed stands for. -/
def worker (Key : Type) [CryptoBox Key] [Digest] [KeyExchange Key] [Blake2b] (profile : Profile)
    (identities : List Identity) (rng : Rng) (dials : List Dial) :
    Outcome Empty Unit × RandomState :=
  workerLoop Key profile identities dials (RandomState.new rng 0 profile.maxChunkSize)

/-! ## What is made up keeps the blocks -/

namespace RandomState

variable [Blake2b] {T : Type}

theorem caches_genOr {chance : Chance} {gen : Gen T} (h : Exec.Steps Caches gen) (valid : T) :
    Exec.Steps Caches (genOr chance gen valid) := by
  refine (Sender.caches_chance chance).bind fun fuzz => ?_
  split
  next => exact h
  next => exact Exec.steps_pure valid

theorem caches_genNetworkVersion : Exec.Steps Caches genNetworkVersion :=
  (caches_genRange _ _).bind fun _ => (caches_genString _).bind fun _ =>
    (caches_genT _).bind fun _ => (caches_genT _).bind fun _ => Exec.steps_pure _

theorem caches_genConnection (options : HandshakeOptions) (identity : Identity) :
    Exec.Steps Caches (genConnection options identity) := by
  have key : Exec.Steps Caches genPublicKey :=
    (caches_genVec _ _).bind fun _ => Exec.steps_orAbort _
  have nonce : Exec.Steps Caches genNonce := (caches_genVec _ _).bind fun _ => Exec.steps_pure _
  exact (caches_genOr caches_genNetworkVersion _).bind fun _ => (caches_genOr key _).bind fun _ =>
    (caches_genOr (caches_genVec _ _) _).bind fun _ => (caches_genT _).bind fun _ =>
    nonce.bind fun _ => steps_unwrap _

theorem caches_genMetadata (options : HandshakeOptions) : Exec.Steps Caches (genMetadata options) :=
  caches_genOr ((caches_genT _).bind fun _ => (caches_genT _).bind fun _ => Exec.steps_pure _) _

theorem caches_genAck (options : HandshakeOptions) : Exec.Steps Caches (genAck options) := by
  refine caches_genOr ((Sender.caches_chance _).bind fun short => ?_) _
  split
  next => exact Exec.steps_pure _
  next =>
    refine Exec.Steps.bind ?_ fun _ => Exec.steps_pure _
    exact (caches_genRange _ _).bind fun _ => (caches_genRange _ _).bind fun _ =>
      (caches_collect _ (caches_genText _)).bind fun _ => Exec.steps_pure _

/-! ## What is made up -/

omit [Blake2b] in
theorem onlyGives_genOr {chance : Chance} {gen : Gen T} {valid : T} {P : T → Prop}
    (h : OnlyGives gen P) : OnlyGives (genOr chance gen valid) fun a =>
      (chance.Allows true ∧ P a) ∨ (chance.Allows false ∧ a = valid) := by
  refine (OnlyGives.toss chance).bind fun fuzz allows => ?_
  cases fuzz with
  | false => exact .pure (.inr ⟨allows, rfl⟩)
  | true => exact h.mono fun a ha => .inl ⟨allows, ha⟩

omit [Blake2b] in
/-- Without a chance nothing is made up. -/
theorem onlyGives_valid (chance : Chance) (gen : Gen T) (valid : T) :
    OnlyGives (genOr chance gen valid) fun a => chance.Never → a = valid := by
  refine (onlyGives_genOr (OnlyGives.any gen)).mono fun a h never => ?_
  obtain ⟨allows, _⟩ | ⟨_, rfl⟩ := h
  · exact absurd never allows
  · rfl

end RandomState

/-- A connection message that says who the fuzzer is, as far as the options leave it alone. -/
structure Introduces (options : HandshakeOptions) (identity : Identity) (m : ConnectionMessage) :
    Prop where
  version : options.fuzzNetworkVersion.Never → m.version = RandomState.mainnetVersion
  publicKey : options.fuzzPublicKey.Never → m.publicKey = identity.publicKey
  proofOfWorkStamp : options.fuzzPow.Never → m.proofOfWorkStamp = identity.proofOfWorkStamp

theorem RandomState.onlyGives_genConnection (options : HandshakeOptions) (identity : Identity) :
    OnlyGives (genConnection options identity) (Introduces options identity) := by
  refine (onlyGives_valid _ _ _).bind fun version hversion => ?_
  refine (onlyGives_valid _ _ _).bind fun publicKey hkey => ?_
  refine (onlyGives_valid _ _ _).bind fun pow hpow => ?_
  refine .anyBind fun port => .anyBind fun nonce => .unwrap fun m hm => ?_
  unfold ConnectionMessage.tryNew at hm
  cases hnonce : nonce.getBytes with
  | error e => simp [hnonce, Bind.bind, Except.bind] at hm
  | ok messageNonce =>
      simp only [hnonce, Bind.bind, Except.bind, Pure.pure, Except.pure, Except.ok.injEq] at hm
      subst hm
      exact ⟨hversion, hkey, hpow⟩

/-! ## The greeting -/

/-- A message that says who the fuzzer is was written, as one plain chunk. -/
structure Greets (options : HandshakeOptions) (identity : Identity) (s : Sender) (chunk : BinaryChunk)
    (t : Sender) : Prop where
  message : ∃ m, Introduces options identity m ∧ m.IsSent chunk
  sent : ∃ written, Sender.Delivered options.chunkOptions chunk.raw written ∧
    t.stream.sent = s.stream.sent ++ written

/-- What was written stays written when only the generator is used. -/
theorem Greets.later {options : HandshakeOptions} {identity : Identity} {chunk : BinaryChunk}
    {s t u : Sender} (greets : Greets options identity s chunk t) (same : u.stream = t.stream) :
    Greets options identity s chunk u := by
  obtain ⟨written, delivered, sent⟩ := greets.sent
  exact ⟨greets.message, written, delivered, by rw [same, sent]⟩

/-- Nothing was written, or the beginning of such a message. -/
inductive Greeting (options : HandshakeOptions) (identity : Identity) (s t : Sender) : Prop
  | silent : t.stream.sent = s.stream.sent → Greeting options identity s t
  | begun {m : ConnectionMessage} {chunk : BinaryChunk} {part : Bytes} :
      Introduces options identity m → m.IsSent chunk → part <+: chunk.raw →
      t.stream.sent = s.stream.sent ++ part → Greeting options identity s t

namespace Sender

theorem wp_writeConnection (options : ChunkOptions) (m : ConnectionMessage) (s : Sender) :
    Exec.wp (writeConnection options m) (fun chunk t => m.IsSent chunk ∧
      ∃ written, Delivered options chunk.raw written ∧ Wrote s written t)
      (fun t => t.stream.sent = s.stream.sent ∨ ∃ chunk, m.IsSent chunk ∧ Broke s chunk.raw t) s := by
  rw [writeConnection, Exec.wp_bind]
  cases hb : m.asBytes with
  | error e => exact .inl rfl
  | ok bytes =>
      rw [Exec.wp_unwrap_ok, Exec.wp_bind]
      cases hchunk : BinaryChunk.fromContent bytes with
      | error e => exact .inl rfl
      | ok chunk =>
          rw [Exec.wp_unwrap_ok, Exec.wp_bind]
          refine Exec.wp_mono wp_writeBytes (fun _ t h => ?_) fun t broke => .inr ?_
          · exact ⟨⟨bytes, hb, hchunk⟩, h⟩
          · exact ⟨chunk, ⟨bytes, hb, hchunk⟩, broke⟩

/-- Nothing is written, or the greeting. -/
theorem wp_greet (options : HandshakeOptions) (identity : Identity) (s : Sender) :
    Exec.wp (greet options identity) (fun greeting t => match greeting with
      | none => t.stream.sent = s.stream.sent
      | some chunk => Greets options identity s chunk t) (Greeting options identity s) s := by
  rw [greet, Exec.wp_bind]
  refine wp_toss fun abort g _ _ => ?_
  cases abort with
  | true => exact rfl
  | false =>
      rw [if_neg Bool.false_ne_true, Exec.wp_bind]
      refine wp_toss fun _ g' _ _ => ?_
      rw [Exec.wp_bind]
      refine wp_draws (Exec.wp_mono ((RandomState.onlyGives_genConnection options identity).wp _) ?_
        fun _ _ => .silent rfl)
      intro m g'' introduces
      rw [Exec.wp_bind]
      refine Exec.wp_mono (wp_writeConnection _ m _) ?_ ?_
      · intro chunk t h
        obtain ⟨isSent, written, delivered, wrote⟩ := h
        exact ⟨⟨m, introduces, isSent⟩, written, delivered, wrote.sent⟩
      · intro t h
        obtain sent | ⟨chunk, isSent, broke⟩ := h
        · exact .silent sent
        · obtain ⟨part, isPrefix, sent⟩ := broke.sent
          exact .begun introduces isSent isPrefix sent

theorem caches_greet [Blake2b] (options : HandshakeOptions) (identity : Identity) :
    Exec.Steps Caches (greet options identity) := by
  refine (caches_toss _).bind fun abort => ?_
  split
  next => exact Exec.steps_pure none
  next =>
    refine (caches_toss _).bind fun _ =>
      (caches_draws (RandomState.caches_genConnection options identity)).bind fun m =>
      Exec.Steps.bind ?_ fun _ => Exec.steps_pure _
    exact (RandomState.steps_unwrap _).bind fun _ => (RandomState.steps_unwrap _).bind fun _ =>
      (caches_writeBytes _ _).bind fun _ => Exec.steps_pure _

end Sender

/-! ## Metadata and acknowledgement -/

/-- A sealed message of the handshake. -/
inductive HandshakeMessage where
  | metadata (m : MetadataMessage)
  | ack (m : AckMessage)

/-- The bytes of a sealed message of the handshake. -/
def HandshakeMessage.Encodes : HandshakeMessage → Bytes → Prop
  | .metadata m, bytes => m.asBytes = .ok bytes
  | .ack m, bytes => m.asBytes = .ok bytes

/-- The sealed messages of the handshake, and whether they are all: metadata of an ordinary node and
an acknowledgement, as far as the options leave them alone. -/
inductive Announces (options : HandshakeOptions) : Bool → List HandshakeMessage → Prop
  | metadata {m : MetadataMessage} : (options.fuzzMetadata.Never → m = ⟨false, false⟩) →
      options.abortBeforeAck.Allows true → Announces options false [.metadata m]
  | ack {m : MetadataMessage} {a : AckMessage} : (options.fuzzMetadata.Never → m = ⟨false, false⟩) →
      options.abortBeforeAck.Allows false →
      (options.fuzzAck.Allows true ∧ a ≠ .ack) ∨ (options.fuzzAck.Allows false ∧ a = .ack) →
      Announces options true [.metadata m, .ack a]

/-- The sealed messages of a handshake that failed, perhaps not all of them. -/
inductive Announcing (options : HandshakeOptions) : List HandshakeMessage → Prop
  | nothing : Announcing options []
  | metadata {m : MetadataMessage} : (options.fuzzMetadata.Never → m = ⟨false, false⟩) →
      Announcing options [.metadata m]
  | ack {m : MetadataMessage} {a : AckMessage} : (options.fuzzMetadata.Never → m = ⟨false, false⟩) →
      options.abortBeforeAck.Allows false →
      (options.fuzzAck.Allows true ∧ a ≠ .ack) ∨ (options.fuzzAck.Allows false ∧ a = .ack) →
      Announcing options [.metadata m, .ack a]

theorem RandomState.onlyGives_genNack : OnlyGives genNack fun a => a ≠ .ack := by
  refine .anyBind fun short => ?_
  split
  next => exact .pure AckMessage.noConfusion
  next => exact .anyBind fun _ => .pure AckMessage.noConfusion

namespace Fuzzer

open Sender (Speaks Says)

section

variable [Blake2b] {U : Type} {encodes : U → Bytes → Prop} {options : ChunkOptions} {key : Key}
  {F : List U → Prop}

theorem speaks_toss (chance : Chance) : Speaks encodes sender options key (toss chance)
    (fun b said => said = [] ∧ chance.Allows b) F :=
  (Sender.speaks_toss chance).writes

theorem speaks_receive {M : Type} (chance : Chance) (fromBytes : Bytes → Except BinaryReaderError M)
    (passes fuel : Nat) : Speaks encodes sender options key
      (receive chance fromBytes key passes fuel) (fun _ said => said = [] ∧ True) F := by
  refine (speaks_toss chance).silentBind fun recv _ => ?_
  split
  next => exact (Speaks.reads _).silentBind fun _ _ => Speaks.nothing ⟨rfl, trivial⟩
  next => exact Speaks.nothing ⟨rfl, trivial⟩

end

/-- Metadata comes before the acknowledgement. -/
theorem speaks_agree [Blake2b] (correct : CryptoBox.Correct Key) {options : HandshakeOptions}
    {key : Key} (passes fuel : Nat) :
    Speaks HandshakeMessage.Encodes sender options.chunkOptions key (agree options key passes fuel)
      (Announces options) (Announcing options) := by
  have metadata : OnlyGives (RandomState.genMetadata options) fun m =>
      options.fuzzMetadata.Never → m = ⟨false, false⟩ := RandomState.onlyGives_valid _ _ _
  have ack : OnlyGives (RandomState.genAck options) fun a =>
      (options.fuzzAck.Allows true ∧ a ≠ .ack) ∨ (options.fuzzAck.Allows false ∧ a = .ack) :=
    RandomState.onlyGives_genOr RandomState.onlyGives_genNack
  refine (Speaks.gives (RandomState.caches_genMetadata options) metadata).writes.silentBind
    fun m hm => ?_
  have written : Speaks HandshakeMessage.Encodes id options.chunkOptions key
      (Sender.writeMsg options.chunkOptions m.asBytes key) (fun _ said => said = [.metadata m])
      (Announcing options) :=
    Speaks.message correct (fun _ hb => hb) (.metadata hm)
  refine written.writes.bind fun _ said hsaid => ?_
  subst hsaid
  refine (speaks_receive _ _ _ _).silentBind fun _ _ => ?_
  refine (speaks_toss _).silentBind fun abort allows => ?_
  cases abort with
  | true => exact Speaks.nothing (.metadata hm allows)
  | false =>
      rw [if_neg Bool.false_ne_true]
      refine (speaks_toss _).silentBind fun _ _ =>
        (Speaks.gives (RandomState.caches_genAck options) ack).writes.silentBind fun a ha => ?_
      have written : Speaks HandshakeMessage.Encodes id options.chunkOptions key
          (Sender.writeMsg options.chunkOptions a.asBytes key) (fun _ said => said = [.ack a])
          fun said => Announcing options ([.metadata m] ++ said) :=
        Speaks.message correct (fun _ hb => hb) (.ack hm allows ha)
      refine written.writes.bind fun _ said hsaid => ?_
      subst hsaid
      refine (speaks_toss _).silentBind fun _ _ => (speaks_receive _ _ _ _).silentBind fun _ _ => ?_
      exact Speaks.nothing (.ack hm allows ha)

/-! ## The order of messages -/

section

variable [Digest] [KeyExchange Key]

/-- The connection message of the peer was read: the key is made of its public key, and the nonces
of both chunks. -/
inductive Meets (identity : Identity) (initiatorChunk : BinaryChunk) (passes : Nat) (f : Fuzzer) :
    Key → Fuzzer → Prop
  | meet {responderChunk : BinaryChunk} {m : ConnectionMessage} {r : Receiver} {nonces : NoncePair} :
      Receiver.readChunk passes f.receiver = (.ok responderChunk, r) →
      ConnectionMessage.fromBytes responderChunk.content = .ok m →
      nonces = generateNonces initiatorChunk.raw responderChunk.raw false →
      Meets identity initiatorChunk passes f (KeyExchange.precompute m.publicKey identity.secretKey)
        ⟨{ f.sender with nonce := nonces.localNonce }, { r with nonce := nonces.remoteNonce }⟩

/-- How far a handshake came, and the key when it came to its end. -/
inductive Shakes (options : HandshakeOptions) (identity : Identity) (passes : Nat) (f : Fuzzer) :
    Option Key → Fuzzer → Prop
  | silent {f' : Fuzzer} : f'.sender.stream.sent = f.sender.stream.sent →
      Shakes options identity passes f none f'
  | greeted {chunk : BinaryChunk} {f' : Fuzzer} : Greets options identity f.sender chunk f'.sender →
      Shakes options identity passes f none f'
  | announced {chunk : BinaryChunk} {f₁ f₂ f' : Fuzzer} {key : Key} {agreed : Bool}
      {said : List HandshakeMessage} : Greets options identity f.sender chunk f₁.sender →
      Meets identity chunk passes f₁ key f₂ → Announces options agreed said →
      Says HandshakeMessage.Encodes options.chunkOptions key f₂.sender said f'.sender →
      Shakes options identity passes f (if agreed then some key else none) f'

/-- How far a handshake came that failed. -/
inductive Falters (options : HandshakeOptions) (identity : Identity) (passes : Nat) (f : Fuzzer) :
    Fuzzer → Prop
  | greeting {f' : Fuzzer} : Greeting options identity f.sender f'.sender →
      Falters options identity passes f f'
  | greeted {chunk : BinaryChunk} {f' : Fuzzer} : Greets options identity f.sender chunk f'.sender →
      Falters options identity passes f f'
  | announcing {chunk : BinaryChunk} {f₁ f₂ f' : Fuzzer} {key : Key}
      {said : List HandshakeMessage} : Greets options identity f.sender chunk f₁.sender →
      Meets identity chunk passes f₁ key f₂ → Announcing options said →
      Sender.Breaks HandshakeMessage.Encodes options.chunkOptions key f₂.sender said f'.sender →
      Falters options identity passes f f'

/-- What a run of `fuzz` is, and whether it is in its loop: a handshake, and rounds with `P` behind
one that came to its end. -/
inductive Converses [Blake2b] (P : Round → Prop) (profile : Profile) (identity : Identity)
    (passes fuel n : Nat) (f : Fuzzer) : Bool → Fuzzer → Prop
  | ended {key : Option Key} {f' : Fuzzer} :
      Shakes profile.handshake identity passes f key f' →
      (key = none ∨ profile.peerMessageFuzzing = none) →
      Converses P profile identity passes fuel n f false f'
  | rounds {key : Key} {f₁ f' : Fuzzer} {options : PeerMessageOptions} {rounds : List Round} :
      Shakes profile.handshake identity passes f (some key) f₁ →
      profile.peerMessageFuzzing = some options → rounds.length = n →
      Rounds options key passes fuel f₁ rounds f' → (∀ round ∈ rounds, P round) →
      Converses P profile identity passes fuel n f true f'

/-- What a run of `fuzz` that failed is: a handshake that failed, or some rounds with `P` behind one
that came to its end, and another round with `P` that failed. -/
inductive Ends [Blake2b] (P : Round → Prop) (profile : Profile) (identity : Identity)
    (passes fuel n : Nat) (f : Fuzzer) : Fuzzer → Prop
  | handshake {f' : Fuzzer} : @Falters Key _ _ _ profile.handshake identity passes f f' →
      Ends P profile identity passes fuel n f f'
  | rounds {key : Key} {f₁ f₂ f' : Fuzzer} {options : PeerMessageOptions} {rounds : List Round}
      {last : Round} : Shakes profile.handshake identity passes f (some key) f₁ →
      profile.peerMessageFuzzing = some options → rounds.length < n →
      Rounds options key passes fuel f₁ rounds f₂ → Fails options key passes fuel f₂ last f' →
      (∀ round ∈ rounds, P round) → P last → Ends P profile identity passes fuel n f f'

omit [Digest] [KeyExchange Key] in
/-- A toss writes nothing. -/
theorem wp_toss [Blake2b] {chance : Chance} {f : Fuzzer} {Q : Bool → Fuzzer → Prop}
    {E : Fuzzer → Prop} (post : ∀ b s, s.stream = f.sender.stream → Sender.Caches f.sender s →
      Q b { f with sender := s }) : Exec.wp (toss chance) Q E f := by
  have caches := (Sender.caches_toss chance).wp f.sender
  have stream : Exec.wp (Sender.draws chance.toss) (fun _ t => t.stream = f.sender.stream)
      (fun _ => False) f.sender := Sender.wp_toss fun _ _ _ _ => rfl
  exact wp_writes (Exec.wp_mono (Exec.wp_and stream caches) (fun b s h => post b s h.1 h.2)
    fun _ h => h.1.elim)

omit [CryptoBox Key] in
theorem wp_meet [Blake2b] {identity : Identity} {chunk : BinaryChunk} {passes : Nat} {f : Fuzzer} :
    Exec.wp (meet identity chunk passes)
      (fun (key : Key) f' => Meets identity chunk passes f key f' ∧
        Sender.Caches f.sender f'.sender) (fun f' => f'.sender = f.sender) f := by
  rw [meet, Exec.wp_bind]
  refine wp_reads (fun responderChunk r read => ?_) fun _ _ _ _ => rfl
  rw [Exec.wp_bind]
  cases decoded : ConnectionMessage.fromBytes responderChunk.content with
  | error e => exact rfl
  | ok m =>
      rw [Exec.wp_unwrap_ok, Exec.wp_bind]
      refine Exec.wp_orAbort _ (fun publicKey checked => ?_) fun _ => rfl
      have same : publicKey = m.publicKey := by
        unfold ensureCryptoKeyBytes at checked
        split at checked
        next => exact (Option.some.inj checked).symm
        next => cases checked
      subst same
      exact ⟨.meet read decoded rfl, .refl _⟩

/-- However far it comes, a handshake goes in order. -/
theorem wp_handshake [Blake2b] (correct : CryptoBox.Correct Key) {options : HandshakeOptions}
    {identity : Identity} {passes fuel : Nat} {f : Fuzzer}
    (ready : Sender.Ready options.chunkOptions f.sender) :
    Exec.wp (handshake options identity passes fuel)
      (fun (key : Option Key) f' => Shakes options identity passes f key f' ∧
        Sender.Caches f.sender f'.sender) (@Falters Key _ _ _ options identity passes f) f := by
  rw [handshake, Exec.wp_bind]
  refine wp_writes (Exec.wp_mono (Exec.wp_and (Sender.wp_greet options identity f.sender)
    ((Sender.caches_greet options identity).wp f.sender)) ?_ fun s h => .greeting h.1)
  intro greeting s h
  obtain ⟨greets, caches⟩ := h
  cases greeting with
  | none => exact ⟨.silent greets, caches⟩
  | some chunk =>
      rw [Exec.wp_bind]
      refine wp_toss fun abort s₁ stream caches₁ => ?_
      replace greets := greets.later stream
      replace caches := IsTrans.trans _ _ _ caches caches₁
      cases abort with
      | true => exact ⟨.greeted greets, caches⟩
      | false =>
          rw [if_neg Bool.false_ne_true, Exec.wp_bind]
          refine wp_toss fun _ s₂ stream caches₂ => ?_
          replace greets := greets.later stream
          replace caches := IsTrans.trans _ _ _ caches caches₂
          rw [Exec.wp_bind]
          refine Exec.wp_mono wp_meet ?_ ?_
          · intro key f₁ h
            obtain ⟨meets, caches₃⟩ := h
            replace caches := IsTrans.trans _ _ _ caches caches₃
            rw [Exec.wp_bind]
            refine Exec.wp_mono (speaks_agree correct passes fuel .nothing f₁ (ready.caches caches))
              ?_ ?_
            · intro agreed f₂ h
              obtain ⟨said, announces, -, spoken, caches₄⟩ := h
              exact ⟨.announced greets meets announces spoken, IsTrans.trans _ _ _ caches caches₄⟩
            · intro f₂ h
              obtain ⟨said, announcing, broken⟩ := h
              exact .announcing greets meets announcing broken
          · intro f₁ same
            exact .greeted (greets.later (congrArg Sender.stream same))

end

/-! ## What is said keeps the blocks -/

section

variable [Blake2b]

theorem caches_toss (chance : Chance) : Exec.Steps Caches (toss chance) :=
  caches_writes (Sender.caches_toss chance)

theorem caches_receive {M : Type} (chance : Chance) (fromBytes : Bytes → Except BinaryReaderError M)
    (key : Key) (passes fuel : Nat) :
    Exec.Steps Caches (receive chance fromBytes key passes fuel) := by
  refine (caches_toss chance).bind fun recv => ?_
  split
  next => exact (caches_reads _).bind fun _ => Exec.steps_pure ()
  next => exact Exec.steps_pure ()

theorem caches_writeMsg (options : ChunkOptions) (asBytes : Except BinaryWriterError Bytes)
    (key : Key) : Exec.Steps Caches (writes (Sender.writeMsg options asBytes key)) :=
  caches_writes (Sender.caches_writeMsg options asBytes key)

theorem caches_agree (options : HandshakeOptions) (key : Key) (passes fuel : Nat) :
    Exec.Steps Caches (agree options key passes fuel) := by
  refine (caches_draws (RandomState.caches_genMetadata options)).bind fun metadata =>
    (caches_writeMsg _ _ key).bind fun _ => (caches_receive _ _ key _ _).bind fun _ =>
    (caches_toss _).bind fun abort => ?_
  split
  next => exact Exec.steps_pure false
  next =>
    exact (caches_toss _).bind fun _ => (caches_draws (RandomState.caches_genAck options)).bind
      fun _ => (caches_writeMsg _ _ key).bind fun _ => (caches_toss _).bind fun _ =>
      (caches_receive _ _ key _ _).bind fun _ => Exec.steps_pure true

end

/-! ## Runs -/

section

variable [Digest] [KeyExchange Key] [Blake2b] {profile : Profile} {identity : Identity}
variable {passes fuel n : Nat} {f f' : Fuzzer}

/-- A run goes in order, and what holds of all rounds behind a handshake holds of its rounds. -/
theorem wp_converse (correct : CryptoBox.Correct Key) {P : Round → Prop}
    (authentic : f.sender.generator.Authentic) (hmax : 1 ≤ f.sender.generator.maxChunkSize)
    (played : ∀ (options : PeerMessageOptions) (key : Key) f₁ rounds f₂,
      Sender.Caches f.sender f₁.sender → Rounds options key passes fuel f₁ rounds f₂ →
      (∀ round ∈ rounds, P round) ∧ ∀ last f₃, Fails options key passes fuel f₂ last f₃ → P last) :
    Exec.wp (converse Key profile identity passes fuel n)
      (@Converses Key _ _ _ _ P profile identity passes fuel n f)
      (@Ends Key _ _ _ _ P profile identity passes fuel n f) f := by
  rw [converse, Exec.wp_bind]
  refine Exec.wp_mono (wp_handshake correct ⟨authentic, .inr hmax⟩) ?_ fun f₁ falters =>
    .handshake falters
  intro key f₁ h
  obtain ⟨shakes, caches⟩ := h
  cases key with
  | none => exact .ended shakes (.inl rfl)
  | some key =>
      cases pushing : profile.peerMessageFuzzing with
      | none => exact .ended shakes (.inr pushing)
      | some options =>
          have ready : Sender.Ready options.chunkOptions f₁.sender :=
            Sender.Ready.caches ⟨authentic, .inr hmax⟩ caches
          rw [Exec.wp_bind]
          refine Exec.wp_mono (wp_fuzzLoop correct n ready) ?_ ?_
          · intro _ f₂ h
            obtain ⟨rounds, hlen, behind⟩ := h
            exact .rounds shakes pushing hlen behind (played options key f₁ rounds _ caches behind).1
          · intro f₃ h
            obtain ⟨rounds, f₂, last, few, behind, fails⟩ := h
            obtain ⟨all, ends⟩ := played options key f₁ rounds f₂ caches behind
            exact .rounds shakes pushing few behind fails all (ends last f₃ fails)

end

section

local instance greetingDigest : Digest := sampleDigest

local instance greetingHash : Blake2b := RandomState.unusedDigest

/-- There is only one key. -/
local instance greetingExchange : KeyExchange PlainKey := ⟨fun _ _ => .plain⟩

/-- Nothing is fuzzed, and no message is read behind the connection message. -/
def plainHandshake : HandshakeOptions where
  chunkOptions := ⟨.below 0, .below 0, .below 0, .below 0, .below 0⟩
  abortBeforeConnect := .below 0
  connectSleep := .below 0
  connectMsgSleep := .below 0
  fuzzPublicKey := .below 0
  fuzzPow := .below 0
  fuzzNetworkVersion := .below 0
  abortBeforeMetadata := .below 0
  metadataMsgSleep := .below 0
  recvMetadata := .below 0
  fuzzMetadata := .below 0
  abortBeforeAck := .below 0
  ackMsgSleep := .below 0
  fuzzAck := .below 0
  recvAck := .below 0

/-- Whatever is asked for is replied to, and one message is pushed. -/
def replying : PeerMessageOptions where
  chunkOptions := ⟨.below 0, .below 0, .below 0, .below 0, .below 0⟩
  messagesPerChunk := 1
  pushMessages := ["Disconnect"]
  maxPushThroughput := 1
  replyOptions := some ⟨.always, .always, .always, .always, .always⟩

def replyingProfile : Profile := ⟨100, some plainHandshake, some replying⟩

def greetingIdentity : Identity where
  publicKey := List.replicate 32 7
  secretKey := List.replicate 32 8
  proofOfWorkStamp := List.replicate 24 9
  publicKey_length := rfl
  proofOfWorkStamp_length := rfl

/-- A request of one block. -/
def requestBytes : Bytes := [0, 0, 0, 38, 0, 32, 0, 0, 0, 32] ++ List.replicate 32 5

/-- The request in one chunk. -/
def requestChunk : BinaryChunk := Receiver.plainChunk requestBytes (by decide)

/-- The peer sends its connection message and the request at once, and then the connection is
reset. -/
def asking : TcpStream where
  bytes := sampleConnectionChunk.raw ++ requestChunk.raw
  amounts := fun _ => 156
  endings := fun _ => some (.os 104)

/-- A new connection, with a generator that draws zeros. -/
def greetingFuzzer : Fuzzer :=
  connected (RandomState.new ⟨fun _ => 0⟩ 0 100) ⟨[], fun _ => none⟩ asking

theorem greetingFuzzer_authentic : greetingFuzzer.sender.generator.Authentic := by
  simp [RandomState.Authentic, greetingFuzzer, connected, RandomState.new]

/-- The run up to some pass of the loop. -/
def greetingRun (n : Nat) : Outcome FuzzError Bool × Fuzzer :=
  converse PlainKey replyingProfile greetingIdentity 2 1 n greetingFuzzer

/-- Up to the first pass the run returns, and in the second it fails. -/
theorem greetingRun_ends : (greetingRun 1).1.isOk ∧ (greetingRun 2).1.isOk = false := by
  decide +kernel

end

/-! ## A worker keeps no blocks -/

variable [Digest] [KeyExchange Key] [Blake2b] {profile : Profile} {passes fuel n : Nat}

omit [CryptoBox Key] in
theorem caches_meet (identity : Identity) (chunk : BinaryChunk) :
    Exec.Steps Caches (meet identity chunk passes : Exec Fuzzer FuzzError Key) := by
  refine (caches_reads _).bind fun responderChunk => (RandomState.steps_unwrap _).bind fun m =>
    (Exec.steps_orAbort _).bind fun publicKey => ?_
  exact Exec.Steps.bind (Exec.steps_modify fun f => .refl f.sender.generator) fun _ =>
    Exec.steps_pure _

theorem caches_handshake (options : HandshakeOptions) (identity : Identity) :
    Exec.Steps Caches
      (handshake options identity passes fuel : Exec Fuzzer FuzzError (Option Key)) := by
  refine (caches_writes (Sender.caches_greet options identity)).bind fun greeting => ?_
  cases greeting with
  | none => exact Exec.steps_pure none
  | some chunk =>
      refine (caches_toss _).bind fun abort => ?_
      split
      next => exact Exec.steps_pure none
      next =>
        exact (caches_toss _).bind fun _ => (caches_meet identity chunk).bind fun key =>
          (caches_agree options key _ _).bind fun agreed => Exec.steps_pure _

theorem caches_converse {identity : Identity} :
    Exec.Steps Caches (converse Key profile identity passes fuel n) := by
  refine Exec.Steps.bind (caches_handshake _ _) fun key : Option Key => ?_
  split
  next => exact Exec.Steps.bind (caches_fuzzLoop _) fun _ => Exec.steps_pure true
  next => exact Exec.steps_pure false

end Fuzzer

section

variable [Blake2b]

theorem RandomState.caches_genSource : Exec.Steps Caches genSource :=
  (caches_genRange _ _).bind fun _ => (caches_genRange _ _).bind fun _ =>
    (caches_genRange _ _).bind fun _ => Exec.steps_pure _

omit [Blake2b] in
theorem RandomState.onlyGives_identity (identities : List Identity) :
    OnlyGives (do let _ ← genSource; genIdentity identities) (· ∈ identities) :=
  .anyBind fun _ => .anyBind fun _ => .orAbort fun _ found => List.mem_of_getElem? found

theorem RandomState.caches_genIdentity (identities : List Identity) :
    Exec.Steps Caches (genIdentity identities) :=
  (caches_genRange _ _).bind fun _ => Exec.steps_orAbort _

end

section

variable [Digest] [KeyExchange Key] [Blake2b] {profile : Profile} {identities : List Identity}

theorem caches_fuzz (dial : Dial) :
    Exec.Steps RandomState.Caches (fuzz Key profile identities dial) := by
  refine RandomState.caches_genSource.mapErr.bind fun source => ?_
  split
  next => exact Exec.steps_fail _
  next sink stream _ =>
    refine (RandomState.caches_genIdentity identities).mapErr.bind fun identity => ?_
    refine Exec.Steps.bind (fun generator => ?_) fun inLoop => ?_
    · exact Fuzzer.caches_converse (Fuzzer.connected generator sink stream)
    · split
      next => exact Exec.steps_abort
      next => exact Exec.steps_pure ()

theorem caches_workerLoop (dials : List Dial) :
    Exec.Steps RandomState.Caches (workerLoop Key profile identities dials) := by
  induction dials with
  | nil => exact Exec.steps_pure ()
  | cons dial dials ih =>
      exact ((caches_fuzz dial).handle fun _ => Exec.steps_pure ()).bind fun _ => ih

/-- What a worker has after any connections, and after it took an identity for the next. -/
theorem worker_generator {rng : Rng} {dials : List Dial} {g g' : RandomState} {identity : Identity}
    (ran : worker Key profile identities rng dials = (.ok (), g))
    (chosen : (do let _ ← RandomState.genSource; RandomState.genIdentity identities) g =
      (.ok identity, g')) :
    g'.blocks = [] ∧ g'.blocksLimit = 0 ∧ g'.maxChunkSize = profile.maxChunkSize := by
  have before : Exec.Steps RandomState.Caches (workerLoop Key profile identities dials) :=
    caches_workerLoop dials
  have after : Exec.Steps RandomState.Caches
      (do let _ ← RandomState.genSource; RandomState.genIdentity identities) :=
    RandomState.caches_genSource.bind fun _ => RandomState.caches_genIdentity identities
  have caches := (before (RandomState.new rng 0 profile.maxChunkSize)).trans (after _)
  unfold worker at ran
  rw [ran, chosen] at caches
  exact ⟨caches.unlimited rfl, caches.blocksLimit, caches.maxChunkSize⟩

end

section

local instance workerDigest : Digest := sampleDigest

local instance workerHash : Blake2b := RandomState.unusedDigest

local instance workerExchange : KeyExchange PlainKey := ⟨fun _ _ => .plain⟩

open Fuzzer (replyingProfile greetingIdentity asking)

/-- A connection on which a block is asked for before it is reset. -/
def askingDial : Dial := ⟨some (⟨[], fun _ => none⟩, asking), 2, 1, 2⟩

/-- The worker with such a connection. -/
def firstConnection : Outcome Empty Unit × RandomState :=
  worker PlainKey replyingProfile [greetingIdentity] ⟨fun _ => 0⟩ [askingDial]

/-- It takes an identity for the next. -/
def nextIdentity : Outcome Empty Identity × RandomState :=
  (do let _ ← RandomState.genSource; RandomState.genIdentity [greetingIdentity]) firstConnection.2

/-- The next connection is such a one too, up to some pass of the loop. -/
def nextConnection (n : Nat) : Outcome FuzzError Bool × Fuzzer :=
  Fuzzer.converse PlainKey replyingProfile greetingIdentity 2 1 n
    (Fuzzer.connected nextIdentity.2 ⟨[], fun _ => none⟩ asking)

theorem nextConnection_ends : (firstConnection.1.isOk ∧ nextIdentity.1.isOk) ∧
    (nextConnection 1).1.isOk ∧ (nextConnection 2).1.isOk = false := by
  decide +kernel

theorem nextIdentity_chosen : (do let _ ← RandomState.genSource
                                  RandomState.genIdentity [greetingIdentity]) firstConnection.2 =
    (.ok greetingIdentity, nextIdentity.2) := by
  obtain ⟨identity, ok⟩ := Outcome.exists_of_isOk nextConnection_ends.1.2
  have run : (do let _ ← RandomState.genSource
                 RandomState.genIdentity [greetingIdentity]) firstConnection.2 =
      (.ok identity, nextIdentity.2) := Exec.run_eq ok
  have chosen := Exec.wp_ok ((RandomState.onlyGives_identity [greetingIdentity]).wp _) run
  rw [run, List.mem_singleton.mp chosen]

end

end NodeFuzzer
