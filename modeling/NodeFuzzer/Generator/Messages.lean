import NodeFuzzer.Encoding.Size
import NodeFuzzer.Generator.RandomState

/-!
# Generating messages

The `Generator` and `Mutator` implementations for the messages the fuzzer pushes.  A
message of a kind that was received before is mutated, any other is made up.  The budgets
the generators keep by hand are kept here as they are; where the source subtracts from one
that is too small, or adds to a number at its end, it panics.
-/

namespace NodeFuzzer

/-- `P2P_POINT_MAX_LENGTH`. -/
def P2P_POINT_MAX_LENGTH : Nat := P2P_POINT_MAX_SIZE - 4

/-- The hash function of the cryptographic library, `digest_256`. -/
class Blake2b where
  digest256 : Bytes → Bytes
  digest256_length : ∀ b, (digest256 b).length = 32

/-- `level + 1`; `none` is an overflow. -/
def succI32 (n : Int32) : Option Int32 := if n.toInt + 1 < 2 ^ 31 then some (n + 1) else none

/-- `validation_pass + 1`; `none` is an overflow. -/
def succU8 (n : UInt8) : Option UInt8 := if n.toNat + 1 < 2 ^ 8 then some (n + 1) else none

/-- `timestamp + seconds`; `none` is an overflow. -/
def addI64 (n : Int64) (seconds : Nat) : Option Int64 :=
  if n.toInt + seconds < 2 ^ 63 then some (n + Int64.ofNat seconds) else none

/-- `n - m` of sizes; `none` is an underflow. -/
def subUsize (n m : Nat) : Option Nat := if m ≤ n then some (n - m) else none

namespace RandomState

/-! ## Hashes and addresses -/

/-- `Generator<HashKind<T>>`. -/
def genHash (t : HashType) : Gen (TypedHash t) := do
  let bytes ← genVec UInt8 t.size
  Exec.orAbort (TypedHash.tryFromBytes t bytes)

/-- A number of hashes. -/
def genHashes (t : HashType) (count : Nat) : Gen (List Bytes) :=
  collect count do
    let hash ← genHash t
    pure hash.val

/-- `Generator<net::SocketAddr>`, as the text `AdvertiseMessage::new` makes of it. -/
def genSocketAddr : Gen String := do
  let a ← genT UInt8
  let b ← genT UInt8
  let c ← genT UInt8
  let d ← genT UInt8
  let port ← genT UInt16
  pure (toString a.toNat ++ "." ++ toString b.toNat ++ "." ++ toString c.toNat ++ "." ++
    toString d.toNat ++ ":" ++ toString port.toNat)

/-- `Generator<advertise::AdvertiseMessage>`. -/
def genAdvertiseMessage : Gen AdvertiseMessage := do
  let size ← genRange 0 ADVERTISE_ID_LIST_MAX_LENGTH
  let addresses ← collect size genSocketAddr
  pure ⟨addresses⟩

/-- `Generator<swap::SwapMessage>`. -/
def genSwapMessage : Gen SwapMessage := do
  let sizeBytes ← genRange 0 P2P_POINT_MAX_LENGTH
  let peerId ← genHash .cryptoboxPublicKeyHash
  let point ← genString sizeBytes
  pure ⟨point, peerId.val⟩

/-- A chain id: made up or the one of the run. -/
def genChainId : Gen Bytes :=
  coin
    (do
      let chainId ← genHash .chainId
      pure chainId.val)
    (Exec.gets fun s => s.chainId.val)

/-- `Generator<current_branch::GetCurrentBranchMessage>`, and the same for
`DeactivateMessage` and `GetCurrentHeadMessage`. -/
def genChainIdMessage : Gen ChainIdMessage := do
  let chainId ← genChainId
  pure ⟨chainId⟩

/-! ## Block headers -/

section

variable [Blake2b]

/-- `block_hash`. -/
def blockHash (bh : BlockHeader) : Gen (TypedHash .blockHash) := do
  let bytes ← Exec.unwrap (asBytes BlockHeader.schema bh.toVal)
  Exec.orAbort (TypedHash.tryFromBytes .blockHash (Blake2b.digest256 bytes))

end

/-- The loop that makes up a fitness, with at most `fuel` passes: the fitness and what
remains of the size of the header. -/
def genFitnessLoop : Nat → Nat → Nat → List Bytes → Gen (List Bytes × Nat)
  | 0, _, _, _ => Exec.abort
  | fuel + 1, remainingFitnessSize, remaining, fitness => do
      let elementSize ← genRange 1 28
      let element ← genVec UInt8 elementSize
      if elementSize + 4 > remainingFitnessSize then pure (fitness, remaining)
      else do
        let remaining ← Exec.orAbort (subUsize remaining (elementSize + 4))
        genFitnessLoop fuel (remainingFitnessSize - (elementSize + 4)) remaining (fitness ++ [element])

/-- The size of protocol data that is made up. -/
def genDataLen (remaining : Nat) : Gen Nat :=
  if remaining > 1 then genRange 1 remaining else pure remaining

/-- `Generator<block_header::BlockHeaderBuilder>`; all fields are set. -/
def genBlockHeader : Gen BlockHeader := do
  let (fitness, remaining) ← genFitnessLoop 29 28 (BLOCK_HEADER_MAX_SIZE - 0x1000) []
  let dataLen ← genDataLen remaining
  let predecessor ← genHash .blockHash
  let operationsHash ← genHash .operationListListHash
  let context ← genHash .contextHash
  let level ← genT Int32
  let proto ← genT UInt8
  let timestamp ← genT Int64
  let validationPass ← genT UInt8
  let protocolData ← genVec UInt8 dataLen
  pure ⟨level, proto, predecessor.val, timestamp, validationPass, operationsHash.val, fitness,
    context.val, protocolData⟩

/-- Whether a bit of the next byte is flipped. -/
def genFlip (flips : Nat) : Gen Bool := if flips > 0 then genBool else pure false

/-- Flip a bit in some of the bytes, at most `flips` times. -/
def flipBits : Nat → Bytes → Gen Bytes
  | _, [] => pure []
  | flips, b :: bytes => do
      let flip ← genFlip flips
      if flip then do
        let place ← genRange 0 8
        let rest ← flipBits (flips - 1) bytes
        pure ((b ^^^ (1 <<< UInt8.ofNat place)) :: rest)
      else do
        let rest ← flipBits flips bytes
        pure (b :: rest)

section

variable [Blake2b]

/-- The predecessor of a block header that is mutated. -/
def mutatePredecessor : Gen Bytes := do
  let currentHead ← Exec.gets currentHead
  match currentHead with
  | some head => do
      let hash ← blockHash head.currentBlockHeader
      pure hash.val
  | none => do
      let block ← genBlockHeader
      let predecessor ← Exec.gets lastBlock
      let hash ← blockHash { block with predecessor := predecessor.val }
      pure hash.val

/-- The fitness of a block header that is mutated, and what remains of its size. -/
def mutateFitness (fitness : List Bytes) (remaining : Nat) : Gen (List Bytes × Nat) :=
  coin
    (do
      let first ← Exec.orAbort fitness.head?
      let remaining ← Exec.orAbort (subUsize remaining first.length)
      let count ← genFitness
      let remaining ← Exec.orAbort (subUsize remaining (toBe 8 count).length)
      pure ([first, toBe 8 count], remaining))
    (genFitnessLoop 29 28 remaining [])

/-- Flip bits in bytes that are not empty. -/
def mutateBytes (bytes : Bytes) : Gen Bytes := do
  let flips ← genRange 0 bytes.length
  flipBits (flips >>> 3) bytes

/-- The protocol data of a block header that is mutated. -/
def mutateProtocolData (bytes : Bytes) (remaining : Nat) : Gen Bytes := do
  let keep ← genBool
  if keep ∧ bytes.length > 0 then mutateBytes bytes
  else do
    let dataLen ← genDataLen remaining
    genVec UInt8 dataLen

/-- The timestamp of a block header that is mutated. -/
def mutateTimestamp (timestamp : Int64) : Gen Int64 :=
  coin
    (do
      let seconds ← genRange 0 (60 * 60)
      Exec.orAbort (addI64 timestamp seconds))
    (genT Int64)

/-- `Mutator<block_header::BlockHeader>`. -/
def mutateBlockHeader (data : BlockHeader) : Gen BlockHeader := do
  let level ← coin (Exec.orAbort (succI32 data.level)) (genT Int32)
  let proto ← coin (pure data.proto) (genT UInt8)
  let predecessor ← mutatePredecessor
  let timestamp ← mutateTimestamp data.timestamp
  let validationPass ← coin (Exec.orAbort (succU8 data.validationPass)) (genT UInt8)
  let operationsHash ← genHash .operationListListHash
  let (fitness, remaining) ← mutateFitness data.fitness (BLOCK_HEADER_MAX_SIZE - 0x1000)
  let context ← genHash .contextHash
  let protocolData ← mutateProtocolData data.protocolData remaining
  pure ⟨level, proto, predecessor, timestamp, validationPass, operationsHash.val, fitness,
    context.val, protocolData⟩

/-! ## Branches -/

/-- `keys().take(1)`.  The map has its keys in an order of its own, so that the place of the first
one is drawn. -/
def arbitraryKey (blocks : List (TypedHash .blockHash × BlockHeader)) (place : Nat) :
    Option (TypedHash .blockHash) :=
  blocks[place % blocks.length]?.map Prod.fst

/-- Remove an arbitrary block when the map of a copied state is full. -/
def makeRoom (state : RandomState) : Gen Unit :=
  if state.blocks.length = state.blocksLimit then do
    let place ← draws Rng.draw
    let key ← Exec.orAbort (arbitraryKey state.blocks place)
    Exec.modify fun s => { s with blocks := s.blocks.filter fun entry => entry.1.val ≠ key.val }
  else pure ()

/-- Keep the map of blocks within its limit, and add a block. -/
def insertBlock (hash : TypedHash .blockHash) (block : BlockHeader) : Gen Unit := do
  let state ← Exec.gets id
  if state.blocksLimit = 0 then pure ()
  else do
    makeRoom state
    Exec.modify fun s => { s with
      blocks := (hash, block) :: s.blocks.filter fun entry => entry.1.val ≠ hash.val }

/-- `Generator<current_branch::CurrentBranch>`. -/
def genCurrentBranch : Gen CurrentBranch := do
  let historyLen ← genRange 0 CURRENT_BRANCH_HISTORY_MAX_LENGTH
  let history ← genHashes .blockHash (historyLen - 1)
  let block ← genBlockHeader
  let predecessor ← Exec.gets lastBlock
  let newBlock : BlockHeader := { block with predecessor := predecessor.val }
  let hash ← blockHash newBlock
  insertBlock hash newBlock
  Exec.modify fun s => { s with lastBlock := hash }
  pure ⟨newBlock, history⟩

/-- `Mutator<current_branch::CurrentBranch>`. -/
def mutateCurrentBranch (data : CurrentBranch) : Gen CurrentBranch := do
  let currentHead ← mutateBlockHeader data.currentHead
  let history ← coin (pure data.history) (do
    let historyLen ← genRange 1 CURRENT_BRANCH_HISTORY_MAX_LENGTH
    genHashes .blockHash historyLen)
  let hash ← blockHash currentHead
  Exec.modify fun s => { s with lastBlock := hash }
  pure ⟨currentHead, history⟩

/-- `Generator<current_branch::CurrentBranchMessage>`, with its `Mutator`. -/
def genCurrentBranchMessage : Gen CurrentBranchMessage := do
  let currentBranch ← Exec.gets currentBranch
  match currentBranch with
  | some data => do
      let branch ← mutateCurrentBranch data.currentBranch
      pure ⟨data.chainId, branch⟩
  | none => do
      let chainId ← genChainId
      let branch ← genCurrentBranch
      pure ⟨chainId, branch⟩

/-! ## Heads -/

/-- `Mutator<mempool::Mempool>`. -/
def mutateMempool (data : Mempool) : Gen Mempool := do
  let knownValid ← coin (coin (pure data.knownValid) (pure data.pending)) (do
    let knownValidNum ← genRange 1 MEMPOOL_MAX_OPERATIONS
    genHashes .operationHash knownValidNum)
  let remaining ← Exec.orAbort (subUsize MEMPOOL_MAX_OPERATIONS knownValid.length)
  let pending ← coin
    (coin (pure (data.pending.take (min data.pending.length remaining)))
      (pure (data.knownValid.take (min data.knownValid.length remaining))))
    (do
      let pendingNum ← genDataLen remaining
      genHashes .operationHash pendingNum)
  pure ⟨knownValid, pending⟩

/-- `Generator<mempool::Mempool>`. -/
def genMempool : Gen Mempool := do
  let currentHead ← Exec.gets currentHead
  match currentHead with
  | some head => mutateMempool head.currentMempool
  | none => do
      let pendingNum ← genRange 1 (MEMPOOL_MAX_OPERATIONS - 2)
      let knownValidNum ← genRange 1 (MEMPOOL_MAX_OPERATIONS - pendingNum)
      let pending ← genHashes .operationHash pendingNum
      let knownValid ← genHashes .operationHash knownValidNum
      pure ⟨knownValid, pending⟩

/-- `Generator<current_head::CurrentHeadMessage>`, with its `Mutator`. -/
def genCurrentHeadMessage : Gen CurrentHeadMessage := do
  let currentHead ← Exec.gets currentHead
  match currentHead with
  | some data => do
      let header ← mutateBlockHeader data.currentBlockHeader
      let mempool ← mutateMempool data.currentMempool
      pure ⟨data.chainId, header, mempool⟩
  | none => do
      let chainId ← genChainId
      let header ← genBlockHeader
      let mempool ← genMempool
      pure ⟨chainId, header, mempool⟩

/-- `Generator<block_header::GetBlockHeadersMessage>`, and the same for
`GetOperationsMessage` and `GetProtocolsMessage`: less than `max` hashes of a kind. -/
def genHashesMessage (t : HashType) (max : Nat) : Gen HashesMessage := do
  let count ← genRange 0 max
  let hashes ← genHashes t count
  pure ⟨hashes⟩

/-- `Generator<block_header::BlockHeaderMessage>`, with its `Mutator`. -/
def genBlockHeaderMessage : Gen BlockHeaderMessage := do
  let blockHeader ← Exec.gets blockHeader
  match blockHeader with
  | some data => do
      let header ← mutateBlockHeader data.blockHeader
      pure ⟨header⟩
  | none => do
      let header ← genBlockHeader
      pure ⟨header⟩

/-! ## Operations -/

/-- The branch of an operation that is made up. -/
def genOperationBranch : Gen Bytes := do
  let currentHead ← Exec.gets currentHead
  match currentHead with
  | some head => do
      let hash ← blockHash head.currentBlockHeader
      pure hash.val
  | none => coin (Exec.gets fun s => s.lastBlock.val) (do
      let hash ← genHash .blockHash
      pure hash.val)

/-- `Generator<operation::Operation>`. -/
def genOperation : Gen Operation := do
  let branch ← genOperationBranch
  let data ← genVec UInt8 (OPERATION_MAX_SIZE - HashType.blockHash.size - 0x20)
  pure ⟨branch, data⟩

/-- The data of an operation that is mutated, in one of two ways. -/
def mutateOperationData (data : Bytes) : Gen Bytes :=
  coin (if data.length > 0 then mutateBytes data else flipBits 0 data) (do
    let dataLen ← genDataLen data.length
    genVec UInt8 dataLen)

/-- `Mutator<operation::Operation>`. -/
def mutateOperation (data : Operation) : Gen Operation := do
  let branch ← coin (pure data.branch) genOperationBranch
  let bytes ← mutateOperationData data.data
  pure ⟨branch, bytes⟩

/-- `Generator<operation::OperationMessage>`. -/
def genOperationMessage : Gen OperationMessage := do
  let operation ← Exec.gets operation
  match operation with
  | some data => do
      let operation ← mutateOperation data.operation
      pure ⟨operation⟩
  | none => do
      let operation ← genOperation
      pure ⟨operation⟩

end

/-! ## Protocols -/

/-- A text of less than `max` bytes. -/
def genText (max : Nat) : Gen String := do
  let size ← genRange 0 max
  genString size

/-- `Generator<protocol::Component>`. -/
def genComponent : Gen Component := do
  let name ← genText 1025
  let interface ← coin (do
    let iface ← genText 102401
    pure (some iface)) (pure none)
  let implementation ← genText 102401
  pure ⟨name, interface, implementation⟩

/-- The interface of a component that is mutated. -/
def mutateInterface (interface : Option String) : Gen (Option String) := do
  let choice ← genRange 0 3
  match choice with
  | 0 => do
      let iface ← genText 102401
      pure (some iface)
  | 1 => pure none
  | _ => pure interface

/-- `Mutator<protocol::Component>`. -/
def mutateComponent (data : Component) : Gen Component := do
  let name ← coin (genText 1025) (pure data.name)
  let interface ← mutateInterface data.interface
  let implementation ← coin (genText 102401) (pure data.implementation)
  pure ⟨name, interface, implementation⟩

/-- The loop of `Generator<Vec<protocol::Component>>`, with at most `fuel` passes. -/
def genComponents : Nat → Nat → List Component → Gen (List Component)
  | 0, _, _ => Exec.abort
  | fuel + 1, remaining, components => do
      let component ← genComponent
      let bytes ← Exec.unwrap (asBytes Component.schema component.toVal)
      if bytes.length > remaining then pure components
      else genComponents fuel (remaining - bytes.length) (components ++ [component])

/-- `Generator<protocol::ProtocolMessage>`, with the `Mutator`s it calls. -/
def genProtocolMessage : Gen ProtocolMessage := do
  let protocol ← Exec.gets protocol
  match protocol with
  | some data => do
      let expectedEnvVersion ← coin (pure data.protocol.expectedEnvVersion) (genT Int16)
      let components ← Exec.mapEach mutateComponent data.protocol.components
      pure ⟨⟨expectedEnvVersion, components⟩⟩
  | none => do
      let expectedEnvVersion ← genT Int16
      let components ← genComponents (PROTOCOL_COMPONENT_MAX_SIZE + 1) PROTOCOL_COMPONENT_MAX_SIZE []
      pure ⟨⟨expectedEnvVersion, components⟩⟩

/-! ## Operations for blocks -/

section

variable [Blake2b]

/-- The block of `Generator<operations_for_blocks::OperationsForBlock>`. -/
def genKnownBlock : Gen Bytes := do
  let s ← Exec.gets id
  match s.currentBranch, s.blockHeader, s.currentHead with
  | some branch, _, _ =>
      if branch.currentBranch.history.length > 0 then do
        let index ← genRange 0 branch.currentBranch.history.length
        Exec.orAbort branch.currentBranch.history[index]?
      else do
        let hash ← genHash .blockHash
        pure hash.val
  | none, some header, _ => do
      let hash ← blockHash header.blockHeader
      pure hash.val
  | none, none, some head => do
      let hash ← blockHash head.currentBlockHeader
      pure hash.val
  | none, none, none => do
      let hash ← genHash .blockHash
      pure hash.val

/-- `Generator<operations_for_blocks::OperationsForBlock>`. -/
def genOperationsForBlock : Gen OperationsForBlock := do
  let hash ← genKnownBlock
  let validationPass ← genT Int8
  pure ⟨hash, validationPass⟩

/-- `Generator<operations_for_blocks::GetOperationsForBlocksMessage>`. -/
def genGetOperationsForBlocksMessage : Gen GetOperationsForBlocksMessage := do
  let count ← genRange 0 GET_OPERATIONS_FOR_BLOCKS_MAX_LENGTH
  let operations ← collect count genOperationsForBlock
  pure ⟨operations⟩

/-- `Generator<operations_for_blocks::PathItem>`. -/
def genPathItem : Gen PathItem := do
  let hash ← genVec UInt8 32
  coin (pure (.right hash)) (pure (.left hash))

/-- `Generator<operations_for_blocks::Path>`. -/
def genPath : Gen (List PathItem) := do
  let max ← Exec.orAbort MAX_PASS_MERKLE_DEPTH
  let count ← genRange 0 max
  collect count genPathItem

/-- The loop of `Generator<Vec::<operation::Operation>>`, with at most `fuel` passes. -/
def genOperations : Nat → Nat → List Operation → Gen (List Operation)
  | 0, _, _ => Exec.abort
  | fuel + 1, remaining, operations => do
      let operation ← genOperation
      let bytes ← Exec.unwrap (asBytes Operation.schema operation.toVal)
      if bytes.length > remaining then pure operations
      else genOperations fuel (remaining - bytes.length) (operations ++ [operation])

/-- A list of operations that is made up. -/
def genOperationList : Gen (List Operation) :=
  genOperations (OPERATION_LIST_MAX_SIZE + 1) OPERATION_LIST_MAX_SIZE []

/-- `Generator<operations_for_blocks::OperationsForBlocksMessage>`. -/
def genOperationsForBlocksMessage : Gen OperationsForBlocksMessage := do
  let operationsForBlocks ← Exec.gets operationsForBlocks
  match operationsForBlocks with
  | some data => do
      let block ← coin (pure data.operationsForBlock) genOperationsForBlock
      let path ← coin (pure data.operationHashesPath) genPath
      let operations ← coin (pure data.operations) genOperationList
      pure ⟨block, path, operations⟩
  | none => do
      let block ← genOperationsForBlock
      let path ← genPath
      let operations ← genOperationList
      pure ⟨block, path, operations⟩

end

end RandomState

/-! ## Pushing messages -/

/-- The messages `fuzz_peer_messages` can push. -/
inductive MessageKind where
  | disconnect | bootstrap | advertise | swapRequest | swapAck | getCurrentBranch | currentBranch
  | deactivate | getCurrentHead | currentHead | getBlockHeaders | blockHeader | getOperations
  | operation | getProtocols | protocol | getOperationsForBlocks | operationsForBlocks
deriving DecidableEq, Repr

/-- The kind of a name in the options; every other name panics. -/
def MessageKind.ofName : String → Option MessageKind
  | "Disconnect" => some .disconnect
  | "Bootstrap" => some .bootstrap
  | "Advertise" => some .advertise
  | "SwapRequest" => some .swapRequest
  | "SwapAck" => some .swapAck
  | "GetCurrentBranch" => some .getCurrentBranch
  | "CurrentBranch" => some .currentBranch
  | "Deactivate" => some .deactivate
  | "GetCurrentHead" => some .getCurrentHead
  | "CurrentHead" => some .currentHead
  | "GetBlockHeaders" => some .getBlockHeaders
  | "BlockHeader" => some .blockHeader
  | "GetOperations" => some .getOperations
  | "Operation" => some .operation
  | "GetProtocols" => some .getProtocols
  | "Protocol" => some .protocol
  | "GetOperationsForBlocks" => some .getOperationsForBlocks
  | "OperationsForBlocks" => some .operationsForBlocks
  | _ => none

open RandomState in
/-- The message of `fuzz_peer_messages` of a kind. -/
def MessageKind.gen [Blake2b] : MessageKind → Gen PeerMessage
  | .disconnect => pure .disconnect
  | .bootstrap => pure .bootstrap
  | .advertise => PeerMessage.advertise <$> genAdvertiseMessage
  | .swapRequest => PeerMessage.swapRequest <$> genSwapMessage
  | .swapAck => PeerMessage.swapAck <$> genSwapMessage
  | .getCurrentBranch => PeerMessage.getCurrentBranch <$> genChainIdMessage
  | .currentBranch => PeerMessage.currentBranch <$> genCurrentBranchMessage
  | .deactivate => PeerMessage.deactivate <$> genChainIdMessage
  | .getCurrentHead => PeerMessage.getCurrentHead <$> genChainIdMessage
  | .currentHead => PeerMessage.currentHead <$> genCurrentHeadMessage
  | .getBlockHeaders =>
      PeerMessage.getBlockHeaders <$> genHashesMessage .blockHash GET_BLOCK_HEADERS_MAX_LENGTH
  | .blockHeader => PeerMessage.blockHeader <$> genBlockHeaderMessage
  | .getOperations =>
      PeerMessage.getOperations <$> genHashesMessage .operationHash GET_OPERATIONS_MAX_LENGTH
  | .operation => PeerMessage.operation <$> genOperationMessage
  | .getProtocols =>
      PeerMessage.getProtocols <$> genHashesMessage .protocolHash GET_PROTOCOLS_MAX_LENGTH
  | .protocol => PeerMessage.protocol <$> genProtocolMessage
  | .getOperationsForBlocks =>
      PeerMessage.getOperationsForBlocks <$> genGetOperationsForBlocksMessage
  | .operationsForBlocks => PeerMessage.operationsForBlocks <$> genOperationsForBlocksMessage

end NodeFuzzer
