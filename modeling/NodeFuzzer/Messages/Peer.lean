import NodeFuzzer.Encoding.RoundTrip

/-!
# P2P messages

The messages peers exchange after the handshake, with the schemas their derive
attributes give, and the binary form of `PeerMessageResponse`: a size and the
message.  A hash type of the source is its bytes.

For every message type there is the structure, its `schema`, and the two
directions `toVal` and `ofVal` between the structure and the type the schema
describes.
-/

namespace NodeFuzzer

/-! ## Limits -/

/-- P2P point encoding maximal size. -/
def P2P_POINT_MAX_SIZE : Nat := 4 + 4 * 8 + 7 + 2 + 1 + 5
/-- Advertise list, max 100 items. -/
def ADVERTISE_ID_LIST_MAX_LENGTH : Nat := 100
/-- CurrentBranch history max length. -/
def CURRENT_BRANCH_HISTORY_MAX_LENGTH : Nat := 1000
/-- Block header max size. -/
def BLOCK_HEADER_MAX_SIZE : Nat := 8 * 1024 * 1024
/-- Operation max size. -/
def OPERATION_MAX_SIZE : Nat := 128 * 1024
/-- Protocol max size. -/
def PROTOCOL_MAX_SIZE : Nat := 2 * 1024 * 1024
/-- Max size of the components of a protocol. -/
def PROTOCOL_COMPONENT_MAX_SIZE : Nat := PROTOCOL_MAX_SIZE - 2
/-- Mempool maximum operations number. -/
def MEMPOOL_MAX_OPERATIONS : Nat := 4000
/-- Mempool encoding maximum size. -/
def MEMPOOL_MAX_SIZE : Nat := 8 + MEMPOOL_MAX_OPERATIONS * HashType.operationHash.size
/-- Get block headers max length. -/
def GET_BLOCK_HEADERS_MAX_LENGTH : Nat := 10
/-- Get operations max length. -/
def GET_OPERATIONS_MAX_LENGTH : Nat := 10
/-- Get protocols max length. -/
def GET_PROTOCOLS_MAX_LENGTH : Nat := 10
/-- Get operations for block max length. -/
def GET_OPERATIONS_FOR_BLOCKS_MAX_LENGTH : Nat := 10
/-- Max encoded size of the operations for a block. -/
def OPERATION_LIST_MAX_SIZE : Nat := 1024 * 1024
/-- P2P message encoding maximal size. -/
def MESSAGE_MAX_SIZE : Nat :=
  4 + 2 + (HashType.chainId.size + (4 + BLOCK_HEADER_MAX_SIZE) + MEMPOOL_MAX_SIZE)

/-! ## Messages -/

/-- `AdvertiseMessage`. -/
structure AdvertiseMessage where
  id : List String
deriving DecidableEq

namespace AdvertiseMessage

/-- The derived schema. -/
def schema : Schema :=
  .struct "AdvertiseMessage" <|
    .cons "id" (.list (some ADVERTISE_ID_LIST_MAX_LENGTH)
      (.bounded P2P_POINT_MAX_SIZE (.string none))) .nil

/-- The fields, as the schema has them. -/
def toVal (m : AdvertiseMessage) : schema.Val := (m.id, ())

/-- The structure of the fields. -/
def ofVal (v : schema.Val) : AdvertiseMessage :=
  match (v : List String × Unit) with
  | (id, _) => ⟨id⟩

end AdvertiseMessage

/-- `SwapMessage`. -/
structure SwapMessage where
  point : String
  peerId : Bytes
deriving DecidableEq

namespace SwapMessage

@[inherit_doc AdvertiseMessage.schema]
def schema : Schema :=
  .struct "SwapMessage" <|
    .cons "point" (.bounded P2P_POINT_MAX_SIZE (.string none)) <|
    .cons "peer_id" (.hash .cryptoboxPublicKeyHash) .nil

@[inherit_doc AdvertiseMessage.toVal]
def toVal (m : SwapMessage) : schema.Val := (m.point, m.peerId, ())

@[inherit_doc AdvertiseMessage.ofVal]
def ofVal (v : schema.Val) : SwapMessage :=
  match (v : String × Bytes × Unit) with
  | (point, peerId, _) => ⟨point, peerId⟩

end SwapMessage

/-- A message of one chain id.  `GetCurrentBranchMessage`, `DeactivateMessage` and
`GetCurrentHeadMessage` differ in their names only. -/
structure ChainIdMessage where
  chainId : Bytes
deriving DecidableEq

namespace ChainIdMessage

/-- The derived schema, for the name of the structure and of its field. -/
def schema (name field : String) : Schema :=
  .struct name <| .cons field (.hash .chainId) .nil

@[inherit_doc AdvertiseMessage.toVal]
def toVal {name field : String} (m : ChainIdMessage) : (schema name field).Val := (m.chainId, ())

@[inherit_doc AdvertiseMessage.ofVal]
def ofVal {name field : String} (v : (schema name field).Val) : ChainIdMessage :=
  match (v : Bytes × Unit) with
  | (chainId, _) => ⟨chainId⟩

end ChainIdMessage

/-- The schema of `GetCurrentBranchMessage`. -/
def GetCurrentBranchMessage.schema : Schema :=
  ChainIdMessage.schema "GetCurrentBranchMessage" "chain_id"

/-- The schema of `DeactivateMessage`. -/
def DeactivateMessage.schema : Schema := ChainIdMessage.schema "DeactivateMessage" "deactivate"

/-- The schema of `GetCurrentHeadMessage`. -/
def GetCurrentHeadMessage.schema : Schema :=
  ChainIdMessage.schema "GetCurrentHeadMessage" "chain_id"

/-- `BlockHeader`. -/
structure BlockHeader where
  level : Int32
  proto : UInt8
  predecessor : Bytes
  timestamp : Int64
  validationPass : UInt8
  operationsHash : Bytes
  fitness : List Bytes
  context : Bytes
  protocolData : Bytes
deriving DecidableEq

namespace BlockHeader

@[inherit_doc AdvertiseMessage.schema]
def schema : Schema :=
  .bounded BLOCK_HEADER_MAX_SIZE <| .struct "BlockHeader" <|
    .cons "level" (.primitive .int32) <|
    .cons "proto" (.primitive .uint8) <|
    .cons "predecessor" (.hash .blockHash) <|
    .cons "timestamp" (.primitive .timestamp) <|
    .cons "validation_pass" (.primitive .uint8) <|
    .cons "operations_hash" (.hash .operationListListHash) <|
    .cons "fitness" (.dynamic none (.list none (.dynamic none (.list none (.primitive .uint8))))) <|
    .cons "context" (.hash .contextHash) <|
    .cons "protocol_data" (.list none (.primitive .uint8)) .nil

@[inherit_doc AdvertiseMessage.toVal]
def toVal (h : BlockHeader) : schema.Val :=
  (h.level, h.proto, h.predecessor, h.timestamp, h.validationPass, h.operationsHash, h.fitness,
    h.context, h.protocolData, ())

@[inherit_doc AdvertiseMessage.ofVal]
def ofVal (v : schema.Val) : BlockHeader :=
  match (v : Int32 × UInt8 × Bytes × Int64 × UInt8 × Bytes × List Bytes × Bytes × Bytes × Unit) with
  | (level, proto, predecessor, timestamp, validationPass, operationsHash, fitness, context,
      protocolData, _) =>
      ⟨level, proto, predecessor, timestamp, validationPass, operationsHash, fitness, context,
        protocolData⟩

end BlockHeader

/-- `BlockHeaderMessage`. -/
structure BlockHeaderMessage where
  blockHeader : BlockHeader
deriving DecidableEq

namespace BlockHeaderMessage

@[inherit_doc AdvertiseMessage.schema]
def schema : Schema := .struct "BlockHeaderMessage" <| .cons "block_header" BlockHeader.schema .nil

@[inherit_doc AdvertiseMessage.toVal]
def toVal (m : BlockHeaderMessage) : schema.Val := (m.blockHeader.toVal, ())

@[inherit_doc AdvertiseMessage.ofVal]
def ofVal (v : schema.Val) : BlockHeaderMessage :=
  match (v : BlockHeader.schema.Val × Unit) with
  | (blockHeader, _) => ⟨.ofVal blockHeader⟩

end BlockHeaderMessage

/-- `CurrentBranch`. -/
structure CurrentBranch where
  currentHead : BlockHeader
  history : List Bytes
deriving DecidableEq

namespace CurrentBranch

@[inherit_doc AdvertiseMessage.schema]
def schema : Schema :=
  .struct "CurrentBranch" <|
    .cons "current_head" (.dynamic (some BLOCK_HEADER_MAX_SIZE) BlockHeader.schema) <|
    .cons "history" (.list (some CURRENT_BRANCH_HISTORY_MAX_LENGTH) (.hash .blockHash)) .nil

@[inherit_doc AdvertiseMessage.toVal]
def toVal (m : CurrentBranch) : schema.Val := (m.currentHead.toVal, m.history, ())

@[inherit_doc AdvertiseMessage.ofVal]
def ofVal (v : schema.Val) : CurrentBranch :=
  match (v : BlockHeader.schema.Val × List Bytes × Unit) with
  | (currentHead, history, _) => ⟨.ofVal currentHead, history⟩

end CurrentBranch

/-- `CurrentBranchMessage`. -/
structure CurrentBranchMessage where
  chainId : Bytes
  currentBranch : CurrentBranch
deriving DecidableEq

namespace CurrentBranchMessage

@[inherit_doc AdvertiseMessage.schema]
def schema : Schema :=
  .struct "CurrentBranchMessage" <|
    .cons "chain_id" (.hash .chainId) <|
    .cons "current_branch" CurrentBranch.schema .nil

@[inherit_doc AdvertiseMessage.toVal]
def toVal (m : CurrentBranchMessage) : schema.Val := (m.chainId, m.currentBranch.toVal, ())

@[inherit_doc AdvertiseMessage.ofVal]
def ofVal (v : schema.Val) : CurrentBranchMessage :=
  match (v : Bytes × CurrentBranch.schema.Val × Unit) with
  | (chainId, currentBranch, _) => ⟨chainId, .ofVal currentBranch⟩

end CurrentBranchMessage

/-- `Mempool`. -/
structure Mempool where
  knownValid : List Bytes
  pending : List Bytes
deriving DecidableEq

namespace Mempool

@[inherit_doc AdvertiseMessage.schema]
def schema : Schema :=
  .bounded MEMPOOL_MAX_SIZE <| .struct "Mempool" <|
    .cons "known_valid" (.dynamic none (.list none (.hash .operationHash))) <|
    .cons "pending" (.dynamic none (.dynamic none (.list none (.hash .operationHash)))) .nil

@[inherit_doc AdvertiseMessage.toVal]
def toVal (m : Mempool) : schema.Val := (m.knownValid, m.pending, ())

@[inherit_doc AdvertiseMessage.ofVal]
def ofVal (v : schema.Val) : Mempool :=
  match (v : List Bytes × List Bytes × Unit) with
  | (knownValid, pending, _) => ⟨knownValid, pending⟩

end Mempool

/-- `CurrentHeadMessage`. -/
structure CurrentHeadMessage where
  chainId : Bytes
  currentBlockHeader : BlockHeader
  currentMempool : Mempool
deriving DecidableEq

namespace CurrentHeadMessage

@[inherit_doc AdvertiseMessage.schema]
def schema : Schema :=
  .struct "CurrentHeadMessage" <|
    .cons "chain_id" (.hash .chainId) <|
    .cons "current_block_header" (.dynamic (some BLOCK_HEADER_MAX_SIZE) BlockHeader.schema) <|
    .cons "current_mempool" Mempool.schema .nil

@[inherit_doc AdvertiseMessage.toVal]
def toVal (m : CurrentHeadMessage) : schema.Val :=
  (m.chainId, m.currentBlockHeader.toVal, m.currentMempool.toVal, ())

@[inherit_doc AdvertiseMessage.ofVal]
def ofVal (v : schema.Val) : CurrentHeadMessage :=
  match (v : Bytes × BlockHeader.schema.Val × Mempool.schema.Val × Unit) with
  | (chainId, header, mempool, _) => ⟨chainId, .ofVal header, .ofVal mempool⟩

end CurrentHeadMessage

/-- A message of a list of hashes.  `GetBlockHeadersMessage`, `GetOperationsMessage`
and `GetProtocolsMessage` differ in their names, bounds and kinds of hash. -/
structure HashesMessage where
  hashes : List Bytes
deriving DecidableEq

namespace HashesMessage

/-- The derived schema, for the names, the bound and the kind of hash. -/
def schema (name field : String) (max : Nat) (hashType : HashType) : Schema :=
  .struct name <| .cons field (.dynamic none (.list (some max) (.hash hashType))) .nil

@[inherit_doc AdvertiseMessage.toVal]
def toVal {name field : String} {max : Nat} {t : HashType} (m : HashesMessage) :
    (schema name field max t).Val := (m.hashes, ())

@[inherit_doc AdvertiseMessage.ofVal]
def ofVal {name field : String} {max : Nat} {t : HashType} (v : (schema name field max t).Val) :
    HashesMessage :=
  match (v : List Bytes × Unit) with
  | (hashes, _) => ⟨hashes⟩

end HashesMessage

/-- The schema of `GetBlockHeadersMessage`. -/
def GetBlockHeadersMessage.schema : Schema :=
  HashesMessage.schema "GetBlockHeadersMessage" "get_block_headers" GET_BLOCK_HEADERS_MAX_LENGTH
    .blockHash

/-- The schema of `GetOperationsMessage`. -/
def GetOperationsMessage.schema : Schema :=
  HashesMessage.schema "GetOperationsMessage" "get_operations" GET_OPERATIONS_MAX_LENGTH
    .operationHash

/-- The schema of `GetProtocolsMessage`. -/
def GetProtocolsMessage.schema : Schema :=
  HashesMessage.schema "GetProtocolsMessage" "get_protocols" GET_PROTOCOLS_MAX_LENGTH .protocolHash

/-- `Operation`. -/
structure Operation where
  branch : Bytes
  data : Bytes
deriving DecidableEq

namespace Operation

@[inherit_doc AdvertiseMessage.schema]
def schema : Schema :=
  .struct "Operation" <|
    .cons "branch" (.hash .blockHash) <|
    .cons "data" (.list (some OPERATION_MAX_SIZE) (.primitive .uint8)) .nil

@[inherit_doc AdvertiseMessage.toVal]
def toVal (o : Operation) : schema.Val := (o.branch, o.data, ())

@[inherit_doc AdvertiseMessage.ofVal]
def ofVal (v : schema.Val) : Operation :=
  match (v : Bytes × Bytes × Unit) with
  | (branch, data, _) => ⟨branch, data⟩

theorem ofVal_toVal (o : Operation) : ofVal o.toVal = o := rfl

end Operation

/-- `OperationMessage`. -/
structure OperationMessage where
  operation : Operation
deriving DecidableEq

namespace OperationMessage

@[inherit_doc AdvertiseMessage.schema]
def schema : Schema := .struct "OperationMessage" <| .cons "operation" Operation.schema .nil

@[inherit_doc AdvertiseMessage.toVal]
def toVal (m : OperationMessage) : schema.Val := (m.operation.toVal, ())

@[inherit_doc AdvertiseMessage.ofVal]
def ofVal (v : schema.Val) : OperationMessage :=
  match (v : Operation.schema.Val × Unit) with
  | (operation, _) => ⟨.ofVal operation⟩

end OperationMessage

/-- `Component`. -/
structure Component where
  name : String
  interface : Option String
  implementation : String
deriving DecidableEq

namespace Component

@[inherit_doc AdvertiseMessage.schema]
def schema : Schema :=
  .struct "Component" <|
    .cons "name" (.string none) <|
    .cons "interface" (.optionField (.string none)) <|
    .cons "implementation" (.string none) .nil

@[inherit_doc AdvertiseMessage.toVal]
def toVal (c : Component) : schema.Val := (c.name, c.interface, c.implementation, ())

@[inherit_doc AdvertiseMessage.ofVal]
def ofVal (v : schema.Val) : Component :=
  match (v : String × Option String × String × Unit) with
  | (name, interface, implementation, _) => ⟨name, interface, implementation⟩

theorem ofVal_toVal (c : Component) : ofVal c.toVal = c := rfl

end Component

/-- `Protocol`. -/
structure Protocol where
  expectedEnvVersion : Int16
  components : List Component
deriving DecidableEq

namespace Protocol

@[inherit_doc AdvertiseMessage.schema]
def schema : Schema :=
  .struct "Protocol" <|
    .cons "expected_env_version" (.primitive .int16) <|
    .cons "components"
      (.dynamic (some PROTOCOL_COMPONENT_MAX_SIZE) (.list none Component.schema)) .nil

@[inherit_doc AdvertiseMessage.toVal]
def toVal (p : Protocol) : schema.Val :=
  (p.expectedEnvVersion, p.components.map Component.toVal, ())

@[inherit_doc AdvertiseMessage.ofVal]
def ofVal (v : schema.Val) : Protocol :=
  match (v : Int16 × List Component.schema.Val × Unit) with
  | (version, components, _) => ⟨version, components.map Component.ofVal⟩

theorem ofVal_toVal (p : Protocol) : ofVal p.toVal = p := by
  change (⟨p.expectedEnvVersion, (p.components.map Component.toVal).map Component.ofVal⟩ :
    Protocol) = p
  simp [Function.comp_def, Component.ofVal_toVal]

end Protocol

/-- `ProtocolMessage`. -/
structure ProtocolMessage where
  protocol : Protocol
deriving DecidableEq

namespace ProtocolMessage

@[inherit_doc AdvertiseMessage.schema]
def schema : Schema := .struct "ProtocolMessage" <| .cons "protocol" Protocol.schema .nil

@[inherit_doc AdvertiseMessage.toVal]
def toVal (m : ProtocolMessage) : schema.Val := (m.protocol.toVal, ())

@[inherit_doc AdvertiseMessage.ofVal]
def ofVal (v : schema.Val) : ProtocolMessage :=
  match (v : Protocol.schema.Val × Unit) with
  | (protocol, _) => ⟨.ofVal protocol⟩

end ProtocolMessage

/-- `OperationsForBlock`. -/
structure OperationsForBlock where
  hash : Bytes
  validationPass : Int8
deriving DecidableEq

namespace OperationsForBlock

@[inherit_doc AdvertiseMessage.schema]
def schema : Schema :=
  .struct "OperationsForBlock" <|
    .cons "hash" (.hash .blockHash) <|
    .cons "validation_pass" (.primitive .int8) .nil

@[inherit_doc AdvertiseMessage.toVal]
def toVal (o : OperationsForBlock) : schema.Val := (o.hash, o.validationPass, ())

@[inherit_doc AdvertiseMessage.ofVal]
def ofVal (v : schema.Val) : OperationsForBlock :=
  match (v : Bytes × Int8 × Unit) with
  | (hash, validationPass, _) => ⟨hash, validationPass⟩

theorem ofVal_toVal (o : OperationsForBlock) : ofVal o.toVal = o := rfl

end OperationsForBlock

/-- `GetOperationsForBlocksMessage`. -/
structure GetOperationsForBlocksMessage where
  getOperationsForBlocks : List OperationsForBlock
deriving DecidableEq

namespace GetOperationsForBlocksMessage

@[inherit_doc AdvertiseMessage.schema]
def schema : Schema :=
  .struct "GetOperationsForBlocksMessage" <|
    .cons "get_operations_for_blocks"
      (.dynamic none (.list (some GET_OPERATIONS_FOR_BLOCKS_MAX_LENGTH) OperationsForBlock.schema))
      .nil

@[inherit_doc AdvertiseMessage.toVal]
def toVal (m : GetOperationsForBlocksMessage) : schema.Val :=
  (m.getOperationsForBlocks.map OperationsForBlock.toVal, ())

@[inherit_doc AdvertiseMessage.ofVal]
def ofVal (v : schema.Val) : GetOperationsForBlocksMessage :=
  match (v : List OperationsForBlock.schema.Val × Unit) with
  | (blocks, _) => ⟨blocks.map OperationsForBlock.ofVal⟩

theorem ofVal_toVal (m : GetOperationsForBlocksMessage) : ofVal m.toVal = m := by
  change (⟨(m.getOperationsForBlocks.map OperationsForBlock.toVal).map OperationsForBlock.ofVal⟩ :
    GetOperationsForBlocksMessage) = m
  simp [Function.comp_def, OperationsForBlock.ofVal_toVal]

end GetOperationsForBlocksMessage

/-- `OperationsForBlocksMessage`. -/
structure OperationsForBlocksMessage where
  operationsForBlock : OperationsForBlock
  operationHashesPath : List PathItem
  operations : List Operation
deriving DecidableEq

namespace OperationsForBlocksMessage

@[inherit_doc AdvertiseMessage.schema]
def schema : Schema :=
  .struct "OperationsForBlocksMessage" <|
    .cons "operations_for_block" OperationsForBlock.schema <|
    .cons "operation_hashes_path" .path <|
    .cons "operations"
      (.bounded OPERATION_LIST_MAX_SIZE (.list none (.dynamic none Operation.schema))) .nil

@[inherit_doc AdvertiseMessage.toVal]
def toVal (m : OperationsForBlocksMessage) : schema.Val :=
  (m.operationsForBlock.toVal, m.operationHashesPath, m.operations.map Operation.toVal, ())

@[inherit_doc AdvertiseMessage.ofVal]
def ofVal (v : schema.Val) : OperationsForBlocksMessage :=
  match (v : OperationsForBlock.schema.Val × List PathItem × List Operation.schema.Val × Unit) with
  | (block, path, operations, _) => ⟨.ofVal block, path, operations.map Operation.ofVal⟩

theorem ofVal_toVal (m : OperationsForBlocksMessage) : ofVal m.toVal = m := by
  change (⟨m.operationsForBlock, m.operationHashesPath,
    (m.operations.map Operation.toVal).map Operation.ofVal⟩ : OperationsForBlocksMessage) = m
  simp [Function.comp_def, Operation.ofVal_toVal]

end OperationsForBlocksMessage

/-- `PeerMessage`. -/
inductive PeerMessage where
  | disconnect
  | advertise (m : AdvertiseMessage)
  | swapRequest (m : SwapMessage)
  | swapAck (m : SwapMessage)
  | bootstrap
  | getCurrentBranch (m : ChainIdMessage)
  | currentBranch (m : CurrentBranchMessage)
  | deactivate (m : ChainIdMessage)
  | getCurrentHead (m : ChainIdMessage)
  | currentHead (m : CurrentHeadMessage)
  | getBlockHeaders (m : HashesMessage)
  | blockHeader (m : BlockHeaderMessage)
  | getOperations (m : HashesMessage)
  | operation (m : OperationMessage)
  | getProtocols (m : HashesMessage)
  | protocol (m : ProtocolMessage)
  | getOperationsForBlocks (m : GetOperationsForBlocksMessage)
  | operationsForBlocks (m : OperationsForBlocksMessage)
deriving DecidableEq

namespace PeerMessage

/-- The variants, in the order of the declaration. -/
def tags : Tags :=
  .unit 0x01 "Disconnect" <|
  .newtype 0x03 "Advertise" AdvertiseMessage.schema <|
  .newtype 0x04 "SwapRequest" SwapMessage.schema <|
  .newtype 0x05 "SwapAck" SwapMessage.schema <|
  .unit 0x02 "Bootstrap" <|
  .newtype 0x10 "GetCurrentBranch" GetCurrentBranchMessage.schema <|
  .newtype 0x11 "CurrentBranch" CurrentBranchMessage.schema <|
  .newtype 0x12 "Deactivate" DeactivateMessage.schema <|
  .newtype 0x13 "GetCurrentHead" GetCurrentHeadMessage.schema <|
  .newtype 0x14 "CurrentHead" CurrentHeadMessage.schema <|
  .newtype 0x20 "GetBlockHeaders" GetBlockHeadersMessage.schema <|
  .newtype 0x21 "BlockHeader" BlockHeaderMessage.schema <|
  .newtype 0x30 "GetOperations" GetOperationsMessage.schema <|
  .newtype 0x31 "Operation" OperationMessage.schema <|
  .newtype 0x40 "GetProtocols" GetProtocolsMessage.schema <|
  .newtype 0x41 "Protocol" ProtocolMessage.schema <|
  .newtype 0x60 "GetOperationsForBlocks" GetOperationsForBlocksMessage.schema <|
  .newtype 0x61 "OperationsForBlocks" OperationsForBlocksMessage.schema .nil

@[inherit_doc AdvertiseMessage.schema]
def schema : Schema := .enum "PeerMessage" .u16 true tags

/-- The variant, as the schema has it. -/
def toVal : PeerMessage → schema.Val
  | .disconnect => .inl ()
  | .advertise m => .inr (.inl m.toVal)
  | .swapRequest m => .inr (.inr (.inl m.toVal))
  | .swapAck m => .inr (.inr (.inr (.inl m.toVal)))
  | .bootstrap => .inr (.inr (.inr (.inr (.inl ()))))
  | .getCurrentBranch m => .inr (.inr (.inr (.inr (.inr (.inl m.toVal)))))
  | .currentBranch m => .inr (.inr (.inr (.inr (.inr (.inr (.inl m.toVal))))))
  | .deactivate m => .inr (.inr (.inr (.inr (.inr (.inr (.inr (.inl m.toVal)))))))
  | .getCurrentHead m => .inr (.inr (.inr (.inr (.inr (.inr (.inr (.inr (.inl m.toVal))))))))
  | .currentHead m => .inr (.inr (.inr (.inr (.inr (.inr (.inr (.inr (.inr (.inl m.toVal)))))))))
  | .getBlockHeaders m =>
      .inr (.inr (.inr (.inr (.inr (.inr (.inr (.inr (.inr (.inr (.inl m.toVal))))))))))
  | .blockHeader m =>
      .inr (.inr (.inr (.inr (.inr (.inr (.inr (.inr (.inr (.inr (.inr (.inl m.toVal)))))))))))
  | .getOperations m =>
      .inr (.inr (.inr (.inr (.inr (.inr (.inr (.inr (.inr (.inr (.inr (.inr (
        .inl m.toVal))))))))))))
  | .operation m =>
      .inr (.inr (.inr (.inr (.inr (.inr (.inr (.inr (.inr (.inr (.inr (.inr (
        .inr (.inl m.toVal)))))))))))))
  | .getProtocols m =>
      .inr (.inr (.inr (.inr (.inr (.inr (.inr (.inr (.inr (.inr (.inr (.inr (
        .inr (.inr (.inl m.toVal))))))))))))))
  | .protocol m =>
      .inr (.inr (.inr (.inr (.inr (.inr (.inr (.inr (.inr (.inr (.inr (.inr (
        .inr (.inr (.inr (.inl m.toVal)))))))))))))))
  | .getOperationsForBlocks m =>
      .inr (.inr (.inr (.inr (.inr (.inr (.inr (.inr (.inr (.inr (.inr (.inr (
        .inr (.inr (.inr (.inr (.inl m.toVal))))))))))))))))
  | .operationsForBlocks m =>
      .inr (.inr (.inr (.inr (.inr (.inr (.inr (.inr (.inr (.inr (.inr (.inr (
        .inr (.inr (.inr (.inr (.inr (.inl m.toVal)))))))))))))))))

/-- The variant of a value of the schema. -/
def ofVal (v : schema.Val) : PeerMessage :=
  match (v : Unit ⊕ AdvertiseMessage.schema.Val ⊕ SwapMessage.schema.Val ⊕ SwapMessage.schema.Val ⊕
    Unit ⊕ GetCurrentBranchMessage.schema.Val ⊕ CurrentBranchMessage.schema.Val ⊕
    DeactivateMessage.schema.Val ⊕ GetCurrentHeadMessage.schema.Val ⊕ CurrentHeadMessage.schema.Val ⊕
    GetBlockHeadersMessage.schema.Val ⊕ BlockHeaderMessage.schema.Val ⊕
    GetOperationsMessage.schema.Val ⊕ OperationMessage.schema.Val ⊕ GetProtocolsMessage.schema.Val ⊕
    ProtocolMessage.schema.Val ⊕ GetOperationsForBlocksMessage.schema.Val ⊕
    OperationsForBlocksMessage.schema.Val ⊕ Empty) with
  | .inl _ => .disconnect
  | .inr (.inl m) => .advertise (.ofVal m)
  | .inr (.inr (.inl m)) => .swapRequest (.ofVal m)
  | .inr (.inr (.inr (.inl m))) => .swapAck (.ofVal m)
  | .inr (.inr (.inr (.inr (.inl _)))) => .bootstrap
  | .inr (.inr (.inr (.inr (.inr (.inl m))))) => .getCurrentBranch (.ofVal m)
  | .inr (.inr (.inr (.inr (.inr (.inr (.inl m)))))) => .currentBranch (.ofVal m)
  | .inr (.inr (.inr (.inr (.inr (.inr (.inr (.inl m))))))) => .deactivate (.ofVal m)
  | .inr (.inr (.inr (.inr (.inr (.inr (.inr (.inr (.inl m)))))))) => .getCurrentHead (.ofVal m)
  | .inr (.inr (.inr (.inr (.inr (.inr (.inr (.inr (.inr (.inl m))))))))) => .currentHead (.ofVal m)
  | .inr (.inr (.inr (.inr (.inr (.inr (.inr (.inr (.inr (.inr (.inl m)))))))))) =>
      .getBlockHeaders (.ofVal m)
  | .inr (.inr (.inr (.inr (.inr (.inr (.inr (.inr (.inr (.inr (.inr (.inl m))))))))))) =>
      .blockHeader (.ofVal m)
  | .inr (.inr (.inr (.inr (.inr (.inr (.inr (.inr (.inr (.inr (.inr (.inr (.inl m)))))))))))) =>
      .getOperations (.ofVal m)
  | .inr (.inr (.inr (.inr (.inr (.inr (.inr (.inr (.inr (.inr (.inr (.inr (
      .inr (.inl m))))))))))))) =>
      .operation (.ofVal m)
  | .inr (.inr (.inr (.inr (.inr (.inr (.inr (.inr (.inr (.inr (.inr (.inr (
      .inr (.inr (.inl m)))))))))))))) =>
      .getProtocols (.ofVal m)
  | .inr (.inr (.inr (.inr (.inr (.inr (.inr (.inr (.inr (.inr (.inr (.inr (
      .inr (.inr (.inr (.inl m))))))))))))))) =>
      .protocol (.ofVal m)
  | .inr (.inr (.inr (.inr (.inr (.inr (.inr (.inr (.inr (.inr (.inr (.inr (
      .inr (.inr (.inr (.inr (.inl m)))))))))))))))) =>
      .getOperationsForBlocks (.ofVal m)
  | .inr (.inr (.inr (.inr (.inr (.inr (.inr (.inr (.inr (.inr (.inr (.inr (
      .inr (.inr (.inr (.inr (.inr (.inl m))))))))))))))))) =>
      .operationsForBlocks (.ofVal m)

theorem ofVal_toVal (m : PeerMessage) : ofVal m.toVal = m := by
  cases m with
  | protocol m => exact congrArg (fun p => protocol ⟨p⟩) m.protocol.ofVal_toVal
  | getOperationsForBlocks m => exact congrArg getOperationsForBlocks m.ofVal_toVal
  | operationsForBlocks m => exact congrArg operationsForBlocks m.ofVal_toVal
  | _ => rfl

end PeerMessage

end NodeFuzzer
