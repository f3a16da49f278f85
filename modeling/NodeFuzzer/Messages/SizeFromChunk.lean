import NodeFuzzer.Messages.BinaryMessage

/-!
# Sizes from the first bytes

`SizeFromChunk` tells the size of a message from the bytes that have arrived so
far.  Each message has its own copy of the framing, next to the derived codec.
-/

namespace NodeFuzzer

open Nom

/-! ## Acknowledgements -/

/-- `NACK_PEERS_MAX_LENGTH`. -/
def NACK_PEERS_MAX_LENGTH : Nat := 100

/-- `NackMotive`. -/
inductive NackMotive where
  | noMotive | tooManyConnections | unknownChainName | deprecatedP2pVersion
  | deprecatedDistributedDbVersion | alreadyConnected
deriving DecidableEq, Repr

namespace NackMotive

/-- The derived schema. -/
def schema : Schema :=
  .enum "NackMotive" .u16 false <|
    .unit 0 "NoMotive" <|
    .unit 1 "TooManyConnections" <|
    .unit 2 "UnknownChainName" <|
    .unit 3 "DeprecatedP2pVersion" <|
    .unit 4 "DeprecatedDistributedDbVersion" <|
    .unit 5 "AlreadyConnected" .nil

/-- The variant, as the schema has it. -/
def toVal : NackMotive → schema.Val
  | .noMotive => .inl ()
  | .tooManyConnections => .inr (.inl ())
  | .unknownChainName => .inr (.inr (.inl ()))
  | .deprecatedP2pVersion => .inr (.inr (.inr (.inl ())))
  | .deprecatedDistributedDbVersion => .inr (.inr (.inr (.inr (.inl ()))))
  | .alreadyConnected => .inr (.inr (.inr (.inr (.inr (.inl ())))))

end NackMotive

/-- `NackInfo`. -/
structure NackInfo where
  motive : NackMotive
  potentialPeersToConnect : List String
deriving DecidableEq, Repr

namespace NackInfo

/-- The derived schema. -/
def schema : Schema :=
  .struct "NackInfo" <|
    .cons "motive" NackMotive.schema <|
    .cons "potential_peers_to_connect"
      (.dynamic none (.list (some NACK_PEERS_MAX_LENGTH)
        (.bounded P2P_POINT_MAX_SIZE (.string none)))) .nil

/-- The fields, as the schema has them. -/
def toVal (info : NackInfo) : schema.Val := (info.motive.toVal, info.potentialPeersToConnect, ())

end NackInfo

/-- `AckMessage`. -/
inductive AckMessage where
  | ack
  | nackV0
  | nack (info : NackInfo)
deriving DecidableEq, Repr

namespace AckMessage

/-- The variants. -/
def tags : Tags :=
  .unit 0x00 "Ack" <|
  .unit 0xff "NackV0" <|
  .newtype 0x01 "Nack" NackInfo.schema .nil

/-- The derived schema. -/
def schema : Schema := .enum "AckMessage" .u8 false tags

/-- The variant, as the schema has it. -/
def toVal : AckMessage → schema.Val
  | .ack => .inl ()
  | .nackV0 => .inr (.inl ())
  | .nack info => .inr (.inr (.inl info.toVal))

/-- `BinaryWrite::as_bytes`. -/
def asBytes (m : AckMessage) : Except BinaryWriterError Bytes := NodeFuzzer.asBytes schema m.toVal

/-- The size field of the list of peers, behind the motive. -/
def nackSize : Reader Nat := preceded (take 2) size

/-- `SizeFromChunk::size_from_chunk`. -/
def sizeFromChunk (b : Bytes) : Except BinaryReaderError Nat :=
  completeInput
    (alt3 (preceded (tag [0x00]) (success 1)) (preceded (tag [0xff]) (success 1))
      (preceded (tag [0x01]) (map nackSize (· + 3)))) b

end AckMessage

/-! ## Metadata -/

/-- `MetadataMessage`. -/
structure MetadataMessage where
  disableMempool : Bool
  privateNode : Bool
deriving DecidableEq, Repr

namespace MetadataMessage

/-- The derived schema. -/
def schema : Schema :=
  .struct "MetadataMessage" <|
    .cons "disable_mempool" (.primitive .bool) <|
    .cons "private_node" (.primitive .bool) .nil

/-- The fields, as the schema has them. -/
def toVal (m : MetadataMessage) : schema.Val := (m.disableMempool, m.privateNode, ())

/-- `BinaryWrite::as_bytes`. -/
def asBytes (m : MetadataMessage) : Except BinaryWriterError Bytes :=
  NodeFuzzer.asBytes schema m.toVal

/-- `SizeFromChunk::size_from_chunk`. -/
def sizeFromChunk (_ : Bytes) : Except BinaryReaderError Nat := .ok 2

end MetadataMessage

/-! ## Peer messages -/

/-- `peer_message_size`. -/
def peerMessageSize (b : Bytes) : Except BinaryReaderError Nat := completeInput size b

/-- `SizeFromChunk::size_from_chunk`. -/
def PeerMessageResponse.sizeFromChunk (b : Bytes) : Except BinaryReaderError Nat :=
  (peerMessageSize b).map (· + 4)

/-! ## The prediction -/

/-- Whatever the predictor says on the first bytes of a message is the size of
the message. -/
def SizeExact (sizeFromChunk : Bytes → Except BinaryReaderError Nat) (b : Bytes) : Prop :=
  ∀ p, p <+: b → ∀ n, sizeFromChunk p = .ok n → n = b.length

theorem encodes_bool {v : Bool} {b : Bytes} (h : Encodes (.primitive .bool) v b) :
    b.length = 1 := by
  obtain ⟨value, hv, hb⟩ := h
  cases hv
  cases hb
  rfl

/-- The bytes of a motive are its tag. -/
theorem NackMotive.encodes_length {motive : NackMotive} {b : Bytes}
    (h : Encodes NackMotive.schema motive.toVal b) : b.length = 2 := by
  obtain ⟨id, b', _, rfl, htag⟩ := encodes_enum (by decide) (by decide) h
  have hnil : b' = [] := by
    cases motive <;> exact htag.2
  simp [hnil, TagType.size]

/-- What is written for a refusal with a list of peers: the tag, the motive, and
the list behind its size. -/
theorem AckMessage.asBytes_nack {info : NackInfo} {b : Bytes}
    (hb : (AckMessage.nack info).asBytes = .ok b) :
    ∃ motive peers, motive.length = 2 ∧ peers.length < 2 ^ 32 ∧
      b = 0x01 :: (motive ++ (toBe 4 peers.length ++ peers)) := by
  obtain ⟨id, b', _, rfl, hid, henc⟩ := encodes_enum (by decide) (by decide) (asBytes_iff.mp hb)
  obtain ⟨motive, b₂, rfl, hmotive, b₃, b₄, rfl, hpeers, rfl⟩ := encodes_struct (by decide) henc
  obtain ⟨peers, rfl, hlt, _, _⟩ := encodes_dynamic hpeers
  refine ⟨motive, peers, NackMotive.encodes_length hmotive, hlt, ?_⟩
  subst hid
  simp [TagType.size, toBe]

theorem AckMessage.nackSize_append {motive peers : Bytes} (hmotive : motive.length = 2)
    (hlt : peers.length < 2 ^ 32) :
    nackSize (motive ++ (toBe 4 peers.length ++ peers)) = .done peers peers.length := by
  rw [nackSize, preceded, take_append hmotive, andThen_done, size, beNumber_append,
    Nat.mod_eq_of_lt (by omega)]

/-- On the first bytes of a refusal with a list of peers, the predictor counts the
tag, the motive and the list, but not the size field in front of the list. -/
theorem AckMessage.sizeFromChunk_nack {motive peers p : Bytes} {n : Nat}
    (hmotive : motive.length = 2) (hlt : peers.length < 2 ^ 32)
    (hp : p <+: 0x01 :: (motive ++ (toBe 4 peers.length ++ peers)))
    (h : AckMessage.sizeFromChunk p = .ok n) : n = peers.length + 3 := by
  obtain ⟨rest, h⟩ := completeInput_eq_ok h
  cases p with
  | nil => simp [alt3, preceded, tag, IResult.andThen] at h
  | cons x p =>
      obtain ⟨rfl, s, hs⟩ := List.cons_prefix_cons.mp hp
      have hsize : (map nackSize (· + 3)) p = .done rest n := by
        have hthird := alt3_eq_done (by simp [preceded, tag, IResult.andThen])
          (by simp [preceded, tag, IResult.andThen]) h
        simpa [preceded, tag] using hthird
      have hlocal : Local (map nackSize (· + 3)) :=
        ((local_take 2).preceded (local_beNumber 4)).map _
      have hall := hlocal _ _ _ s hsize
      rw [hs, Nom.map, nackSize_append hmotive hlt] at hall
      cases hall
      rfl

theorem AckMessage.sizeFromChunk_full {motive peers : Bytes}
    (hmotive : motive.length = 2) (hlt : peers.length < 2 ^ 32) :
    AckMessage.sizeFromChunk (0x01 :: (motive ++ (toBe 4 peers.length ++ peers))) =
      .ok (peers.length + 3) := by
  simp [sizeFromChunk, completeInput, complete, alt3, preceded, tag, Nom.map,
    nackSize_append hmotive hlt, IResult.andThen]

/-- A message of one byte, on which the predictor answers one. -/
theorem sizeExact_one {sizeFromChunk : Bytes → Except BinaryReaderError Nat} {x : UInt8}
    {e : BinaryReaderError} (hnil : sizeFromChunk [] = .error e) (hone : sizeFromChunk [x] = .ok 1) :
    SizeExact sizeFromChunk [x] := by
  intro p hp n hn
  cases p with
  | nil => simp [hnil] at hn
  | cons y p =>
      obtain ⟨rfl, htail⟩ := List.cons_prefix_cons.mp hp
      rw [List.prefix_nil.mp htail, hone] at hn
      cases hn
      rfl

/-- The prediction is exact for acknowledgements that are not a refusal with a
list of peers. -/
theorem AckMessage.sizeExact_iff {m : AckMessage} {b : Bytes} (hb : m.asBytes = .ok b) :
    SizeExact AckMessage.sizeFromChunk b ↔ ∀ info, m ≠ .nack info := by
  cases m with
  | ack =>
      cases hb
      exact iff_of_true (sizeExact_one (by rfl) (by rfl)) nofun
  | nackV0 =>
      cases hb
      exact iff_of_true (sizeExact_one (by rfl) (by rfl)) nofun
  | nack info =>
      obtain ⟨motive, peers, hmotive, hlt, rfl⟩ := AckMessage.asBytes_nack hb
      constructor
      · intro hexact
        have hsize := hexact _ (List.prefix_refl _) _ (sizeFromChunk_full hmotive hlt)
        simp [hmotive] at hsize
        omega
      · intro hne
        exact absurd rfl (hne info)

theorem MetadataMessage.sizeExact {m : MetadataMessage} {b : Bytes} (hb : m.asBytes = .ok b) :
    SizeExact MetadataMessage.sizeFromChunk b := by
  obtain ⟨b₁, b₂, rfl, h₁, b₃, b₄, rfl, h₂, rfl⟩ := encodes_struct (by decide) (asBytes_iff.mp hb)
  intro p hp n hn
  cases hn
  simp [encodes_bool h₁, encodes_bool h₂]

theorem PeerMessageResponse.sizeExact {r : PeerMessageResponse} {b : Bytes}
    (hb : r.asBytes = .ok b) : SizeExact PeerMessageResponse.sizeFromChunk b := by
  obtain ⟨b', rfl, hlt, _, _⟩ := encodes_dynamic (asBytes_iff.mp hb)
  intro p hp n hn
  obtain ⟨m, hm, rfl⟩ := map_eq_ok hn
  obtain ⟨rest, hm⟩ := completeInput_eq_ok hm
  obtain ⟨s, hs⟩ := hp
  have hall := local_beNumber 4 _ _ _ s hm
  rw [hs, beNumber_append, Nat.mod_eq_of_lt (by omega)] at hall
  cases hall
  simp [Nat.add_comm]

/-- A message whose type predicts its size. -/
inductive SizedMessage where
  | ack (m : AckMessage)
  | metadata (m : MetadataMessage)
  | peer (r : PeerMessageResponse)

namespace SizedMessage

/-- `as_bytes` of its type. -/
def asBytes : SizedMessage → Except BinaryWriterError Bytes
  | .ack m => m.asBytes
  | .metadata m => m.asBytes
  | .peer r => r.asBytes

/-- `size_from_chunk` of its type. -/
def sizeFromChunk : SizedMessage → Bytes → Except BinaryReaderError Nat
  | .ack _ => AckMessage.sizeFromChunk
  | .metadata _ => MetadataMessage.sizeFromChunk
  | .peer _ => PeerMessageResponse.sizeFromChunk

end SizedMessage

/-- The predictors of metadata and of peer messages are exact; that of
acknowledgements is exact up to refusals with a list of peers, for which it
forgets the size field in front of the list. -/
theorem sizeFromChunk_exact {m : SizedMessage} {b : Bytes} (hb : m.asBytes = .ok b) :
    SizeExact m.sizeFromChunk b ↔ ∀ info, m ≠ .ack (.nack info) := by
  cases m with
  | ack m =>
      rw [SizedMessage.sizeFromChunk, AckMessage.sizeExact_iff hb]
      simp
  | metadata m => exact iff_of_true (MetadataMessage.sizeExact hb) nofun
  | peer r => exact iff_of_true (PeerMessageResponse.sizeExact hb) nofun

/-- A refusal for too many connections, metadata, and a request to disconnect. -/
theorem sizeFromChunk_exact_sample :
    ¬ SizeExact AckMessage.sizeFromChunk [0x01, 0, 1, 0, 0, 0, 0] ∧
      SizeExact MetadataMessage.sizeFromChunk [0xFF, 0] ∧
      SizeExact PeerMessageResponse.sizeFromChunk [0, 0, 0, 2, 0, 1] := by
  refine ⟨?_, ?_, ?_⟩
  · intro hexact
    have refusal : (SizedMessage.ack (.nack ⟨.tooManyConnections, []⟩)).asBytes =
      .ok [0x01, 0, 1, 0, 0, 0, 0] := rfl
    exact (sizeFromChunk_exact refusal).mp hexact _ rfl
  · have metadata : (SizedMessage.metadata ⟨true, false⟩).asBytes = .ok [0xFF, 0] := rfl
    exact (sizeFromChunk_exact metadata).mpr nofun
  · have disconnect : (SizedMessage.peer ⟨.disconnect⟩).asBytes = .ok [0, 0, 0, 2, 0, 1] := rfl
    exact (sizeFromChunk_exact disconnect).mpr nofun

/-- Seven bytes are written for a refusal with no peers, and three predicted. -/
theorem sizeFromChunk_nack_short :
    ¬ ∀ (m : AckMessage) (b : Bytes), m.asBytes = .ok b →
      SizeExact AckMessage.sizeFromChunk b := by
  intro h
  have hexact := h (.nack ⟨.noMotive, []⟩) [0x01, 0, 0, 0, 0, 0, 0] rfl
  have hsize := hexact [0x01, 0, 0, 0, 0, 0, 0] (List.prefix_refl _) 3 rfl
  simp at hsize

end NodeFuzzer
