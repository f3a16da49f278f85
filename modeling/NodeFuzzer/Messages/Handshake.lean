import NodeFuzzer.Crypto.ProofOfWork
import NodeFuzzer.Encoding.Accepted
import NodeFuzzer.Messages.SizeFromChunk

/-!
# The messages of a handshake

`ConnectionMessage`, `MetadataMessage` and `AckMessage` go over the wire before any peer message.
Each is the content of chunks of its own, so that its bytes have to be used up.  What is written
is read back (`fromBytes_of_asBytes`).
-/

namespace NodeFuzzer

open Nom

/-! ## Connections -/

/-- `CHAIN_NAME_MAX_LENGTH`. -/
def CHAIN_NAME_MAX_LENGTH : Nat := 128

/-- `NetworkVersion`. -/
structure NetworkVersion where
  chainName : String
  distributedDbVersion : UInt16
  p2pVersion : UInt16
deriving DecidableEq, Repr

namespace NetworkVersion

/-- The derived schema. -/
def schema : Schema :=
  .struct "NetworkVersion" <|
    .cons "chain_name" (.string (some CHAIN_NAME_MAX_LENGTH)) <|
    .cons "distributed_db_version" (.primitive .uint16) <|
    .cons "p2p_version" (.primitive .uint16) .nil

/-- The fields, as the schema has them. -/
def toVal (m : NetworkVersion) : schema.Val :=
  (m.chainName, m.distributedDbVersion, m.p2pVersion, ())

/-- The structure of the fields. -/
def ofVal (v : schema.Val) : NetworkVersion :=
  match (v : String × UInt16 × UInt16 × Unit) with
  | (chainName, distributedDbVersion, p2pVersion, _) =>
      ⟨chainName, distributedDbVersion, p2pVersion⟩

end NetworkVersion

/-- `ConnectionMessage`. -/
structure ConnectionMessage where
  port : UInt16
  publicKey : Bytes
  proofOfWorkStamp : Bytes
  messageNonce : Bytes
  version : NetworkVersion
deriving DecidableEq, Repr

namespace ConnectionMessage

/-- The derived schema. -/
def schema : Schema :=
  .struct "ConnectionMessage" <|
    .cons "port" (.primitive .uint16) <|
    .cons "public_key" (.sized CRYPTO_KEY_SIZE .bytes) <|
    .cons "proof_of_work_stamp" (.sized POW_SIZE .bytes) <|
    .cons "message_nonce" (.sized NONCE_SIZE .bytes) <|
    .cons "version" NetworkVersion.schema .nil

/-- The fields, as the schema has them. -/
def toVal (m : ConnectionMessage) : schema.Val :=
  (m.port, m.publicKey, m.proofOfWorkStamp, m.messageNonce, m.version.toVal, ())

/-- The structure of the fields. -/
def ofVal (v : schema.Val) : ConnectionMessage :=
  match (v : UInt16 × Bytes × Bytes × Bytes × NetworkVersion.schema.Val × Unit) with
  | (port, publicKey, proofOfWorkStamp, messageNonce, version, _) =>
      ⟨port, publicKey, proofOfWorkStamp, messageNonce, .ofVal version⟩

/-- `BinaryWrite::as_bytes`. -/
def asBytes (m : ConnectionMessage) : Except BinaryWriterError Bytes :=
  NodeFuzzer.asBytes schema m.toVal

/-- `BinaryRead::from_bytes`. -/
def fromBytes (b : Bytes) : Except BinaryReaderError ConnectionMessage :=
  allConsumingCompleteInput (map (generateNomRead schema) ofVal) b

end ConnectionMessage

/-! ## Metadata and acknowledgements -/

namespace MetadataMessage

/-- The structure of the fields. -/
def ofVal (v : schema.Val) : MetadataMessage :=
  match (v : Bool × Bool × Unit) with
  | (disableMempool, privateNode, _) => ⟨disableMempool, privateNode⟩

/-- `BinaryRead::from_bytes`. -/
def fromBytes (b : Bytes) : Except BinaryReaderError MetadataMessage :=
  allConsumingCompleteInput (map (generateNomRead schema) ofVal) b

end MetadataMessage

namespace NackMotive

/-- The variant of its tag. -/
def ofVal (v : schema.Val) : NackMotive :=
  match (v : Unit ⊕ Unit ⊕ Unit ⊕ Unit ⊕ Unit ⊕ Unit ⊕ Empty) with
  | .inl _ => .noMotive
  | .inr (.inl _) => .tooManyConnections
  | .inr (.inr (.inl _)) => .unknownChainName
  | .inr (.inr (.inr (.inl _))) => .deprecatedP2pVersion
  | .inr (.inr (.inr (.inr (.inl _)))) => .deprecatedDistributedDbVersion
  | .inr (.inr (.inr (.inr (.inr (.inl _))))) => .alreadyConnected

end NackMotive

/-- The structure of the fields. -/
def NackInfo.ofVal (v : schema.Val) : NackInfo :=
  match (v : NackMotive.schema.Val × List String × Unit) with
  | (motive, potentialPeersToConnect, _) => ⟨.ofVal motive, potentialPeersToConnect⟩

namespace AckMessage

/-- The variant of its tag. -/
def ofVal (v : schema.Val) : AckMessage :=
  match (v : Unit ⊕ Unit ⊕ NackInfo.schema.Val ⊕ Empty) with
  | .inl _ => .ack
  | .inr (.inl _) => .nackV0
  | .inr (.inr (.inl info)) => .nack (.ofVal info)

/-- `BinaryRead::from_bytes`. -/
def fromBytes (b : Bytes) : Except BinaryReaderError AckMessage :=
  allConsumingCompleteInput (map (generateNomRead schema) ofVal) b

end AckMessage

/-! ## What is written is read back -/

theorem NetworkVersion.ofVal_toVal (m : NetworkVersion) : ofVal m.toVal = m := rfl

theorem ConnectionMessage.ofVal_toVal (m : ConnectionMessage) : ofVal m.toVal = m := rfl

theorem MetadataMessage.ofVal_toVal (m : MetadataMessage) : ofVal m.toVal = m := rfl

theorem NackInfo.ofVal_toVal (info : NackInfo) : ofVal info.toVal = info := by
  obtain ⟨motive, peers⟩ := info
  cases motive <;> rfl

theorem AckMessage.ofVal_toVal (m : AckMessage) : ofVal m.toVal = m := by
  cases m with
  | ack => rfl
  | nackV0 => rfl
  | nack info => exact congrArg AckMessage.nack info.ofVal_toVal

/-- A value without paths whose strings are short is read back, and nothing is left. -/
theorem allConsuming_generateNomRead {M : Type} {s : Schema} (hwf : s.Wf) (hpath : s.NoPath)
    {v : s.Val} {b : Bytes} (hb : NodeFuzzer.asBytes s v = .ok b) (short : ShortStrings s v)
    (ofVal : s.Val → M) :
    allConsumingCompleteInput (map (generateNomRead s) ofVal) b = .ok (ofVal v) := by
  refine allConsumingCompleteInput_done ?_
  rw [Nom.map, generateNomRead_of_shortStrings hwf hpath hb short, andThen_done]

/-- The bytes of a value are at most as many as the bounds of its schema add up to. -/
theorem asBytes_length_le {s : Schema} (hwf : s.Wf) (hpath : s.NoPath)
    (hrewrites : s.rewrites = true) {v : s.Val} {b : Bytes} (hb : NodeFuzzer.asBytes s v = .ok b) (short : ShortStrings s v)
    {n : Nat} (hmax : s.maxSize = some n) (hlt : n < 2 ^ 64) : b.length ≤ n := by
  have haccepted := spends_generateNomRead s hrewrites _ _ _
    (generateNomRead_of_shortStrings hwf hpath hb short)
  have hsize : s.size v ≤ n := size_le_maxSize s haccepted.1.1 hmax
  obtain ⟨b', hb', hlen⟩ := encodes_of_writable s hwf haccepted.1.1 (hsize.trans_lt hlt)
  have hsame := asBytes_iff.mpr hb'
  rw [hb] at hsame
  cases hsame
  exact hlen.trans_le hsize

theorem ConnectionMessage.schema_wf : schema.Wf := Schema.wf_of_check _ rfl

theorem MetadataMessage.schema_wf : schema.Wf := Schema.wf_of_check _ rfl

theorem AckMessage.schema_wf : schema.Wf := Schema.wf_of_check _ rfl

/-- The name of the chain is bounded. -/
theorem NetworkVersion.shortStrings {m : NetworkVersion} {b : Bytes}
    (h : Encodes schema m.toVal b) : ShortStrings schema m.toVal := by
  obtain ⟨_, _, _, hname, _⟩ := encodes_struct (by decide) h
  have hmax := (encodes_string hname).1 _ rfl
  have hshort : ShortString m.chainName :=
    lt_of_le_of_lt (b := CHAIN_NAME_MAX_LENGTH) hmax (by decide)
  exact ⟨hshort, trivial, trivial, trivial⟩

theorem ConnectionMessage.shortStrings {m : ConnectionMessage} {b : Bytes}
    (hb : m.asBytes = .ok b) : ShortStrings schema m.toVal := by
  obtain ⟨_, _, _, _, _, _, _, _, _, _, _, _, _, _, _, _, _, _, _, hversion, _⟩ :=
    encodes_struct (by decide) (asBytes_iff.mp hb)
  exact ⟨trivial, trivial, trivial, trivial, NetworkVersion.shortStrings hversion, trivial⟩

/-- The list of peers fits the size it stands behind. -/
theorem NackInfo.shortStrings {info : NackInfo} {b : Bytes} (h : Encodes schema info.toVal b) :
    ShortStrings schema info.toVal := by
  obtain ⟨motive, peers⟩ := info
  obtain ⟨_, _, _, _, _, _, _, hpeers, _⟩ := encodes_struct (by decide) h
  obtain ⟨b', _, hlt, hlist, _⟩ := encodes_dynamic hpeers
  have hwf : (Schema.list (some NACK_PEERS_MAX_LENGTH)
    (.bounded P2P_POINT_MAX_SIZE (.string none))).Wf := Schema.wf_of_check _ rfl
  refine ⟨?_, shortStrings_of_length _ hwf hlist hlt fun _ _ => trivial, trivial⟩
  cases motive <;> trivial

theorem AckMessage.shortStrings {m : AckMessage} {b : Bytes} (hb : m.asBytes = .ok b) :
    ShortStrings schema m.toVal := by
  cases m with
  | ack => trivial
  | nackV0 => trivial
  | nack info =>
      obtain ⟨_, _, _, _, _, henc⟩ := encodes_enum (by decide) (by decide) (asBytes_iff.mp hb)
      exact NackInfo.shortStrings henc

theorem ConnectionMessage.fromBytes_of_asBytes {m : ConnectionMessage} {b : Bytes}
    (hb : m.asBytes = .ok b) : fromBytes b = .ok m :=
  allConsuming_generateNomRead schema_wf (by repeat' constructor) hb (shortStrings hb) ofVal

theorem MetadataMessage.fromBytes_of_asBytes {m : MetadataMessage} {b : Bytes}
    (hb : m.asBytes = .ok b) : fromBytes b = .ok m :=
  allConsuming_generateNomRead schema_wf (by repeat' constructor) hb
    ⟨trivial, trivial, trivial⟩ ofVal

theorem AckMessage.fromBytes_of_asBytes {m : AckMessage} {b : Bytes} (hb : m.asBytes = .ok b) :
    fromBytes b = .ok m := by
  have h := allConsuming_generateNomRead schema_wf (by repeat' constructor) hb (shortStrings hb)
    ofVal
  rwa [ofVal_toVal] at h

/-! ## How long they are -/

theorem NetworkVersion.encodes_length {m : NetworkVersion} {b : Bytes}
    (h : Encodes schema m.toVal b) : b.length ≤ 136 :=
  asBytes_length_le (Schema.wf_of_check _ rfl) (by repeat' constructor) rfl
    (asBytes_iff.mpr h) (shortStrings h) rfl (by decide)

/-- Everything but the name of the chain has its size. -/
theorem ConnectionMessage.asBytes_length {m : ConnectionMessage} {b : Bytes}
    (hb : m.asBytes = .ok b) : b.length ≤ 218 := by
  obtain ⟨bport, _, rfl, hport, bkey, _, rfl, hkey, bstamp, _, rfl, hstamp, bnonce, _, rfl, hnonce,
    bversion, _, rfl, hversion, rfl⟩ := encodes_struct (by decide) (asBytes_iff.mp hb)
  have port : bport.length ≤ 2 :=
    asBytes_length_le (s := .primitive .uint16) (Schema.wf_of_check _ rfl) (by constructor) rfl
      (asBytes_iff.mpr hport) (by constructor) rfl (by decide)
  have key : bkey.length = 32 := (encodes_sized hkey).2
  have stamp : bstamp.length = 24 := (encodes_sized hstamp).2
  have nonce : bnonce.length = 24 := (encodes_sized hnonce).2
  have version := NetworkVersion.encodes_length hversion
  simp only [List.length_append, List.length_nil]
  omega

theorem MetadataMessage.asBytes_length {m : MetadataMessage} {b : Bytes} (hb : m.asBytes = .ok b) :
    b.length ≤ 2 :=
  asBytes_length_le schema_wf (by repeat' constructor) rfl hb ⟨trivial, trivial, trivial⟩ rfl
    (by decide)

/-- The peers of a refusal are few. -/
theorem AckMessage.asBytes_length {m : AckMessage} {b : Bytes} (hb : m.asBytes = .ok b) :
    b.length ≤ 5107 :=
  asBytes_length_le schema_wf (by repeat' constructor) rfl hb (shortStrings hb) rfl (by decide)

end NodeFuzzer
