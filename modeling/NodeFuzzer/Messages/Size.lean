import NodeFuzzer.Encoding.Accepted
import NodeFuzzer.Messages.BinaryMessage

/-!
# Messages that can be written

What it takes for the parts of a message to be written, in the terms of the messages: the
sizes of block headers, mempools and protocols against their limits.  A message that can be
written, with Merkle path hashes of the right size, always fits into a
`PeerMessageResponse` (`PeerMessage.Sendable.asBytes`), and every message that is accepted is
one (`PeerMessage.sendable_of_fromBytes`).  A mempool of its own is read back
(`Mempool.fromBytes_of_asBytes`), and its limit is one operation less than the source says
(`Mempool.asBytes_limit`).
-/

namespace NodeFuzzer

open Nom

theorem bytesList_size (max : Option Nat) (b : Bytes) :
    (Schema.list max (.primitive .uint8)).size b = b.length := by
  show (List.map (fun _ : UInt8 => 1) b).sum = _
  simp

theorem hashes_size {t : HashType} (max : Option Nat) {l : List Bytes}
    (h : ∀ a ∈ l, a.length = t.size) : (Schema.list max (.hash t)).size l = l.length * t.size := by
  induction l with
  | nil => exact (Nat.zero_mul _).symm
  | cons a l ih =>
      have ha := h a List.mem_cons_self
      have hl : (List.map List.length l).sum = _ := ih fun a ha => h a (List.mem_cons_of_mem _ ha)
      show (List.map List.length (a :: l)).sum = _
      rw [List.map_cons, List.sum_cons, ha, hl, List.length_cons, Nat.succ_mul, Nat.add_comm]

/-! ## Block headers -/

/-- The bytes of a fitness behind its size. -/
def fitnessSize (fitness : List Bytes) : Nat := (fitness.map fun element => 4 + element.length).sum

theorem fitness_size (fitness : List Bytes) :
    (Schema.list none (.dynamic none (.list none (.primitive .uint8)))).size fitness =
      fitnessSize fitness := by
  induction fitness with
  | nil => rfl
  | cons element rest ih =>
      show (4 + (Schema.list none (.primitive .uint8)).size element) + _ = _
      rw [bytesList_size, fitnessSize, List.map_cons, List.sum_cons]
      exact congrArg (4 + element.length + ·) ih

/-- The bytes of a block header. -/
def BlockHeader.size (h : BlockHeader) : Nat := 114 + fitnessSize h.fitness + h.protocolData.length

/-- The hashes of a block header have their sizes, and the header is within its limit. -/
structure BlockHeader.Fits (h : BlockHeader) : Prop where
  predecessor : h.predecessor.length = HashType.blockHash.size
  operationsHash : h.operationsHash.length = HashType.operationListListHash.size
  context : h.context.length = HashType.contextHash.size
  size : h.size ≤ BLOCK_HEADER_MAX_SIZE

theorem le_fitnessSize {fitness : List Bytes} {element : Bytes} (h : element ∈ fitness) :
    4 + element.length ≤ fitnessSize fitness :=
  size_le_sum (f := fun element : Bytes => 4 + element.length) h

namespace BlockHeader

theorem schema_size {h : BlockHeader} (predecessor : h.predecessor.length = HashType.blockHash.size)
    (operationsHash : h.operationsHash.length = HashType.operationListListHash.size)
    (context : h.context.length = HashType.contextHash.size) : schema.size h.toVal = h.size := by
  have hfields : schema.size h.toVal = 4 + (1 + (h.predecessor.length + (8 + (1 +
      (h.operationsHash.length + ((4 + (Schema.list none (.dynamic none (.list none
        (.primitive .uint8)))).size h.fitness) + (h.context.length +
        ((Schema.list none (.primitive .uint8)).size h.protocolData + 0)))))))) := rfl
  rw [hfields, fitness_size, bytesList_size, predecessor, operationsHash, context, size]
  simp only [HashType.size]
  omega

theorem writable_iff {h : BlockHeader} : schema.Writable h.toVal ↔ h.Fits := by
  constructor
  · intro h
    obtain ⟨⟨_, _, predecessor, _, _, operationsHash, _, context, _⟩, hsize⟩ := h
    have hsize' : schema.size h.toVal ≤ _ := hsize
    rw [schema_size predecessor operationsHash context] at hsize'
    exact ⟨predecessor, operationsHash, context, hsize'⟩
  · intro h
    obtain ⟨predecessor, operationsHash, context, hsize⟩ := h
    have hlimit : fitnessSize h.fitness < 2 ^ 32 := by
      have : BLOCK_HEADER_MAX_SIZE < 2 ^ 32 := by decide
      rw [size] at hsize
      omega
    have helements : ∀ element : Bytes, List.Mem element h.fitness →
        (Schema.dynamic none (.list none (.primitive .uint8))).Writable element := by
      intro element hmem
      have hle := le_fitnessSize hmem
      refine ⟨⟨unbounded, fun _ _ => trivial⟩, ?_, unbounded⟩
      rw [bytesList_size]
      omega
    refine ⟨⟨trivial, trivial, predecessor, trivial, trivial, operationsHash, ?_, context,
      ⟨unbounded, fun _ _ => trivial⟩, trivial⟩, ?_⟩
    · refine ⟨⟨unbounded, helements⟩, ?_, unbounded⟩
      exact (fitness_size h.fitness).trans_lt hlimit
    · exact (schema_size predecessor operationsHash context).trans_le hsize

/-- The header as a branch or a head has it, behind its size. -/
theorem Fits.dynamic_writable {h : BlockHeader} (fits : h.Fits) :
    (Schema.dynamic (some BLOCK_HEADER_MAX_SIZE) schema).Writable h.toVal := by
  have hsize : schema.size h.toVal ≤ BLOCK_HEADER_MAX_SIZE :=
    (schema_size fits.predecessor fits.operationsHash fits.context).trans_le fits.size
  refine ⟨writable_iff.mpr fits, hsize.trans_lt (by decide), ?_⟩
  intro max hmax
  rw [← Option.some.inj hmax]
  exact hsize

end BlockHeader

/-! ## Mempools -/

/-- The hashes of a mempool have their size, and the mempool is within its limit. -/
structure Mempool.Fits (m : Mempool) : Prop where
  knownValid : ∀ hash ∈ m.knownValid, hash.length = HashType.operationHash.size
  pending : ∀ hash ∈ m.pending, hash.length = HashType.operationHash.size
  count : m.knownValid.length + m.pending.length < MEMPOOL_MAX_OPERATIONS

namespace Mempool

theorem schema_size {m : Mempool}
    (knownValid : ∀ hash ∈ m.knownValid, hash.length = HashType.operationHash.size)
    (pending : ∀ hash ∈ m.pending, hash.length = HashType.operationHash.size) :
    schema.size m.toVal = 12 + 32 * (m.knownValid.length + m.pending.length) := by
  have hfields : schema.size m.toVal =
      (4 + (Schema.list none (.hash .operationHash)).size m.knownValid) +
        ((4 + (4 + (Schema.list none (.hash .operationHash)).size m.pending)) + 0) := rfl
  rw [hfields, hashes_size none knownValid, hashes_size none pending]
  simp only [HashType.size]
  omega

/-- The two sizes in front of the pending operations leave no room for the last operation of
`MEMPOOL_MAX_OPERATIONS`. -/
theorem writable_iff {m : Mempool} : schema.Writable m.toVal ↔ m.Fits := by
  have hlimit : MEMPOOL_MAX_SIZE = 8 + MEMPOOL_MAX_OPERATIONS * 32 := rfl
  have hcount : MEMPOOL_MAX_OPERATIONS = 4000 := rfl
  constructor
  · intro h
    obtain ⟨⟨⟨⟨_, knownValid⟩, _⟩, ⟨⟨⟨_, pending⟩, _⟩, _⟩, _⟩, hsize⟩ := h
    have hsize' : schema.size m.toVal ≤ _ := hsize
    rw [schema_size knownValid pending] at hsize'
    exact ⟨knownValid, pending, by omega⟩
  · intro h
    obtain ⟨knownValid, pending, count⟩ := h
    have hknownValid := hashes_size none knownValid
    have hpending := hashes_size none pending
    simp only [HashType.size] at hknownValid hpending
    refine ⟨⟨⟨⟨unbounded, knownValid⟩, ?_, unbounded⟩, ⟨⟨⟨unbounded, pending⟩, ?_, unbounded⟩, ?_, unbounded⟩, trivial⟩, ?_⟩
    · show (Schema.list none (.hash .operationHash)).size m.knownValid < _
      omega
    · show (Schema.list none (.hash .operationHash)).size m.pending < _
      omega
    · show 4 + (Schema.list none (.hash .operationHash)).size m.pending < _
      omega
    · show schema.size m.toVal ≤ _
      rw [schema_size knownValid pending]
      omega

theorem schema_wf : schema.Wf := Schema.wf_of_check _ (by decide +kernel)

theorem schema_noPath : schema.NoPath := by
  repeat' constructor

/-- `Mempool::new`. -/
def new (knownValid pending : List (TypedHash .operationHash)) : Mempool :=
  ⟨knownValid.map (·.val), pending.map (·.val)⟩

/-- `BinaryWrite::as_bytes`. -/
def asBytes (m : Mempool) : Except BinaryWriterError Bytes := NodeFuzzer.asBytes schema m.toVal

/-- `NomReader::nom_read`. -/
def nomRead : Reader Mempool := map (generateNomRead schema) ofVal

/-- `BinaryRead::from_bytes`. -/
def fromBytes (b : Bytes) : Except BinaryReaderError Mempool := allConsumingCompleteInput nomRead b

theorem fits_new {knownValid pending : List (TypedHash .operationHash)} :
    (new knownValid pending).Fits ↔
      knownValid.length + pending.length < MEMPOOL_MAX_OPERATIONS := by
  have hsized : ∀ l : List (TypedHash .operationHash), ∀ hash ∈ l.map (·.val),
      hash.length = HashType.operationHash.size := by
    intro l hash hmem
    obtain ⟨typed, _, rfl⟩ := List.mem_map.mp hmem
    exact typed.property
  constructor
  · intro h
    simpa [new] using h.count
  · intro h
    exact ⟨hsized knownValid, hsized pending, by simpa [new] using h⟩

/-- What is written is read back: a mempool has no strings. -/
theorem generateNomRead_of_asBytes {m : Mempool} {b : Bytes} (hb : m.asBytes = .ok b) :
    generateNomRead schema b = .done [] m.toVal := by
  have hshort : ShortStrings schema m.toVal :=
    ⟨fun _ _ => trivial, fun _ _ => trivial, trivial⟩
  exact generateNomRead_of_shortStrings schema_wf schema_noPath hb hshort

theorem fromBytes_of_asBytes {m : Mempool} {b : Bytes} (hb : m.asBytes = .ok b) :
    fromBytes b = .ok m := by
  refine allConsumingCompleteInput_done ?_
  rw [nomRead, map, generateNomRead_of_asBytes hb, andThen_done]
  rfl

theorem asBytes_ok_iff {m : Mempool} : (∃ b, m.asBytes = .ok b) ↔ m.Fits := by
  rw [← writable_iff]
  constructor
  · intro h
    obtain ⟨b, hb⟩ := h
    -- What is written is accepted, and what is accepted is within the limits.
    have haccepted := spends_generateNomRead schema rfl _ _ _ (generateNomRead_of_asBytes hb)
    exact haccepted.1.1
  · intro h
    have hsize : schema.size m.toVal ≤ MEMPOOL_MAX_SIZE := h.2
    obtain ⟨b, hb, _⟩ := encodes_of_writable schema schema_wf h (hsize.trans_lt (by decide))
    exact ⟨b, asBytes_iff.mpr hb⟩

/-- The limit on the operations is the one of the bytes, and what is within it is read
back, up to a mempool of exactly `MEMPOOL_MAX_OPERATIONS`: whatever its division into the
two lists, it is too long by one of the three sizes. -/
theorem asBytes_limit (knownValid pending : List (TypedHash .operationHash)) :
    (((∃ b, (new knownValid pending).asBytes = .ok b) ↔
        knownValid.length + pending.length ≤ MEMPOOL_MAX_OPERATIONS) ∧
      (knownValid.length + pending.length ≤ MEMPOOL_MAX_OPERATIONS →
        ∃ b, (new knownValid pending).asBytes = .ok b ∧
          fromBytes b = .ok (new knownValid pending))) ↔
      knownValid.length + pending.length ≠ MEMPOOL_MAX_OPERATIONS := by
  rw [asBytes_ok_iff, fits_new]
  constructor
  · intro h
    have hiff := h.1
    omega
  · intro hne
    refine ⟨by omega, ?_⟩
    intro hle
    have hfits : (new knownValid pending).Fits := fits_new.mpr (by omega)
    obtain ⟨b, hb⟩ := asBytes_ok_iff.mpr hfits
    exact ⟨b, hb, fromBytes_of_asBytes hb⟩

/-- The hash of an operation that is all zeros. -/
def zeroOperation : TypedHash .operationHash := ⟨List.replicate 32 0, rfl⟩

/-- A mempool of `MEMPOOL_MAX_OPERATIONS` operations, all known to be valid. -/
theorem asBytes_limit_reached :
    ¬ ∀ knownValid pending : List (TypedHash .operationHash),
      ((∃ b, (new knownValid pending).asBytes = .ok b) ↔
        knownValid.length + pending.length ≤ MEMPOOL_MAX_OPERATIONS) ∧
      (knownValid.length + pending.length ≤ MEMPOOL_MAX_OPERATIONS →
        ∃ b, (new knownValid pending).asBytes = .ok b ∧
          fromBytes b = .ok (new knownValid pending)) := by
  intro h
  have hfull := (h (List.replicate 4000 zeroOperation) []).1
  rw [asBytes_ok_iff, fits_new, List.length_replicate, List.length_nil] at hfull
  exact absurd (hfull.mpr le_rfl) (lt_irrefl 4000)

end Mempool

/-! ## Operations -/

/-- The branch of an operation has its size, and its data is within its limit. -/
structure Operation.Fits (o : Operation) : Prop where
  branch : o.branch.length = HashType.blockHash.size
  data : o.data.length ≤ OPERATION_MAX_SIZE

namespace Operation

theorem writable_iff {o : Operation} : schema.Writable o.toVal ↔ o.Fits := by
  constructor
  · intro h
    obtain ⟨branch, data, _⟩ := h
    exact ⟨branch, data.1 _ rfl⟩
  · intro h
    obtain ⟨branch, data⟩ := h
    exact ⟨branch, ⟨fun m hm => Option.some.inj hm ▸ data, fun _ _ => trivial⟩, trivial⟩

theorem schema_size {o : Operation} (branch : o.branch.length = HashType.blockHash.size) :
    schema.size o.toVal = 32 + o.data.length := by
  have hfields : schema.size o.toVal =
      o.branch.length + ((Schema.list (some OPERATION_MAX_SIZE) (.primitive .uint8)).size o.data + 0) := rfl
  rw [hfields, branch, bytesList_size]
  rfl

end Operation

/-! ## Protocols -/

/-- The bytes of a component. -/
def Component.size (c : Component) : Nat :=
  9 + (utf8 c.name).length + (c.interface.elim 0 fun interface => 4 + (utf8 interface).length) +
    (utf8 c.implementation).length

namespace Component

theorem writable (c : Component) : schema.Writable c.toVal := by
  refine ⟨unbounded, ?_, unbounded, trivial⟩
  cases h : c.interface with
  | none => simp only [toVal, h]; trivial
  | some interface => simp only [toVal, h]; exact unbounded

theorem schema_size (c : Component) : schema.size c.toVal = c.size := by
  have hfields : schema.size c.toVal = (4 + (utf8 c.name).length) +
      ((Schema.optionField (.string none)).size (c.interface : Option String) +
        ((4 + (utf8 c.implementation).length) + 0)) := rfl
  have hoption : (Schema.optionField (.string none)).size (c.interface : Option String) =
      1 + c.interface.elim 0 fun interface => 4 + (utf8 interface).length := by
    cases c.interface <;> rfl
  rw [hfields, hoption, size]
  omega

end Component

namespace Protocol

theorem components_size (components : List Component) :
    (Schema.list none Component.schema).size (components.map Component.toVal) =
      (components.map Component.size).sum := by
  show ((components.map Component.toVal).map fun v : Component.schema.Val =>
    Component.schema.size v).sum = _
  rw [List.map_map]
  exact congrArg List.sum (List.map_congr_left fun c _ => c.schema_size)

theorem writable_iff {p : Protocol} : schema.Writable p.toVal ↔
    (p.components.map Component.size).sum ≤ PROTOCOL_COMPONENT_MAX_SIZE := by
  constructor
  · intro h
    obtain ⟨_, ⟨_, _, hmax⟩, _⟩ := h
    rw [← components_size]
    exact hmax _ rfl
  · intro h
    have helements : ∀ v : Component.schema.Val, List.Mem v (p.components.map Component.toVal) →
        Component.schema.Writable v := by
      intro v hv
      obtain ⟨c, _, rfl⟩ := List.mem_map.mp hv
      exact c.writable
    have hlimit : PROTOCOL_COMPONENT_MAX_SIZE < 2 ^ 32 := by decide
    refine ⟨trivial, ⟨⟨unbounded, helements⟩, ?_, ?_⟩, trivial⟩
    · exact (components_size p.components).trans_lt (h.trans_lt hlimit)
    · intro m hm
      rw [← Option.some.inj hm]
      exact (components_size p.components).trans_le h

end Protocol

/-! ## Operations for blocks -/

/-- The operations have their sizes, and the list of them is within its limit. -/
structure OperationsForBlocksMessage.Fits (m : OperationsForBlocksMessage) : Prop where
  block : m.operationsForBlock.hash.length = HashType.blockHash.size
  depth : ∀ max, MAX_PASS_MERKLE_DEPTH = some max → m.operationHashesPath.length ≤ max
  operations : ∀ o ∈ m.operations, o.Fits
  size : (m.operations.map fun o => 36 + o.data.length).sum ≤ OPERATION_LIST_MAX_SIZE

namespace OperationsForBlocksMessage

theorem operations_size {operations : List Operation} (h : ∀ o ∈ operations, o.Fits) :
    (Schema.list none (.dynamic none Operation.schema)).size (operations.map Operation.toVal) =
      (operations.map fun o => 36 + o.data.length).sum := by
  show ((operations.map Operation.toVal).map fun v : Operation.schema.Val =>
    4 + Operation.schema.size v).sum = _
  rw [List.map_map]
  refine congrArg List.sum (List.map_congr_left fun o ho => ?_)
  show 4 + Operation.schema.size o.toVal = _
  rw [Operation.schema_size (h o ho).branch]
  omega

theorem writable_iff {m : OperationsForBlocksMessage} : schema.Writable m.toVal ↔ m.Fits := by
  constructor
  · intro h
    obtain ⟨⟨block, _⟩, depth, ⟨⟨_, helements⟩, hsize⟩, _⟩ := h
    have operations : ∀ o ∈ m.operations, o.Fits := fun o ho =>
      Operation.writable_iff.mp (helements _ (List.mem_map_of_mem ho)).1
    refine ⟨block, depth, operations, ?_⟩
    rw [← operations_size operations]
    exact hsize
  · intro h
    obtain ⟨block, depth, operations, hsize⟩ := h
    have helements : ∀ v : Operation.schema.Val, List.Mem v (m.operations.map Operation.toVal) →
        (Schema.dynamic none Operation.schema).Writable v := by
      intro v hv
      obtain ⟨o, ho, rfl⟩ := List.mem_map.mp hv
      have hdata := (operations o ho).data
      have hlimit : OPERATION_MAX_SIZE + 32 < 2 ^ 32 := by decide
      refine ⟨Operation.writable_iff.mpr (operations o ho), ?_, unbounded⟩
      rw [Operation.schema_size (operations o ho).branch]
      omega
    exact ⟨⟨block, trivial, trivial⟩, depth, ⟨⟨unbounded, helements⟩,
      (operations_size operations).trans_le hsize⟩, trivial⟩

end OperationsForBlocksMessage

/-! ## Peer messages -/

namespace PeerMessage

theorem operationsForBlocks_size_le {m : OperationsForBlocksMessage} (h : m.Fits)
    (hashes : NodeFuzzer.HashSized m.operationHashesPath) :
    OperationsForBlocksMessage.schema.size m.toVal ≤ 33 + 100 + OPERATION_LIST_MAX_SIZE := by
  have hfields : OperationsForBlocksMessage.schema.size m.toVal =
      (m.operationsForBlock.hash.length + (1 + 0)) +
        ((bodyPath (m.operationHashesPath.map PathItem.parts)).length +
          ((Schema.list none (.dynamic none Operation.schema)).size
            (m.operations.map Operation.toVal) + 0)) := rfl
  have hdepth : m.operationHashesPath.length ≤ 3 := h.depth 3 rfl
  have hsize := h.size
  rw [hfields, h.block, bodyPath_length hashes, OperationsForBlocksMessage.operations_size h.operations]
  simp only [HashType.size]
  omega

/-- A variant whose schema bounds its size. -/
theorem variant_size_le (s : Schema) {v : s.Val} {n : Nat} (h : s.Writable v)
    (hmax : s.maxSize = some n) (hle : 2 + n ≤ MESSAGE_MAX_SIZE) : 2 + s.size v ≤ MESSAGE_MAX_SIZE :=
  (Nat.add_le_add_left (size_le_maxSize s h hmax) 2).trans hle

/-- The limits of the parts of a message add up to less than the limit of the message. -/
theorem size_le {m : PeerMessage} (h : schema.Writable m.toVal) (hashes : m.HashSized) :
    schema.size m.toVal ≤ MESSAGE_MAX_SIZE := by
  cases m with
  | disconnect => exact Nat.le_of_ble_eq_true rfl
  | bootstrap => exact Nat.le_of_ble_eq_true rfl
  | operationsForBlocks m =>
      have hm := OperationsForBlocksMessage.writable_iff.mp h.2
      exact (Nat.add_le_add_left (operationsForBlocks_size_le hm hashes) 2).trans (by decide)
  | advertise m => exact variant_size_le AdvertiseMessage.schema h.2 rfl (by decide)
  | swapRequest m => exact variant_size_le SwapMessage.schema h.2 rfl (by decide)
  | swapAck m => exact variant_size_le SwapMessage.schema h.2 rfl (by decide)
  | getCurrentBranch m => exact variant_size_le GetCurrentBranchMessage.schema h.2 rfl (by decide)
  | currentBranch m => exact variant_size_le CurrentBranchMessage.schema h.2 rfl (by decide)
  | deactivate m => exact variant_size_le DeactivateMessage.schema h.2 rfl (by decide)
  | getCurrentHead m => exact variant_size_le GetCurrentHeadMessage.schema h.2 rfl (by decide)
  | currentHead m => exact variant_size_le CurrentHeadMessage.schema h.2 rfl (by decide)
  | getBlockHeaders m => exact variant_size_le GetBlockHeadersMessage.schema h.2 rfl (by decide)
  | blockHeader m => exact variant_size_le BlockHeaderMessage.schema h.2 rfl (by decide)
  | getOperations m => exact variant_size_le GetOperationsMessage.schema h.2 rfl (by decide)
  | operation m => exact variant_size_le OperationMessage.schema h.2 rfl (by decide)
  | getProtocols m => exact variant_size_le GetProtocolsMessage.schema h.2 rfl (by decide)
  | protocol m => exact variant_size_le ProtocolMessage.schema h.2 rfl (by decide)
  | getOperationsForBlocks m =>
      exact variant_size_le GetOperationsForBlocksMessage.schema h.2 rfl (by decide)

/-- Every part of the message can be written. -/
structure Sendable (m : PeerMessage) : Prop where
  writable : schema.Writable m.toVal
  hashes : m.HashSized

theorem Sendable.asBytes {m : PeerMessage} (h : m.Sendable) :
    ∃ b, (PeerMessageResponse.mk m).asBytes = .ok b := by
  have hle := size_le h.writable h.hashes
  have hlimit : MESSAGE_MAX_SIZE < 2 ^ 32 := by decide
  have hsize : PeerMessageResponse.content.size (PeerMessageResponse.mk m).toVal =
      schema.size m.toVal + 0 := rfl
  have hwritable : PeerMessageResponse.schema.Writable (PeerMessageResponse.mk m).toVal := by
    refine ⟨⟨h.writable, trivial⟩, ?_, ?_⟩
    · exact hsize.trans_lt (hle.trans_lt hlimit)
    · intro max hmax
      rw [← Option.some.inj hmax]
      exact hsize.trans_le hle
  have hbytes : PeerMessageResponse.schema.size (PeerMessageResponse.mk m).toVal < 2 ^ 64 := by
    show 4 + PeerMessageResponse.content.size (PeerMessageResponse.mk m).toVal < _
    omega
  obtain ⟨b, hb, _⟩ := encodes_of_writable PeerMessageResponse.schema
    PeerMessageResponse.content_wf hwritable hbytes
  exact ⟨b, asBytes_iff.mpr hb⟩

theorem map_map_of_inverse {α β : Type} {f : α → β} {g : β → α} (h : ∀ a, g (f a) = a) (l : List α) :
    (l.map f).map g = l := by
  simp [Function.comp_def, h]

theorem protocol_toVal_ofVal (v : ProtocolMessage.schema.Val) : (ProtocolMessage.ofVal v).toVal = v := by
  obtain ⟨⟨version, components, _⟩, _⟩ := v
  have hmap : (List.map Component.ofVal components).map Component.toVal = components :=
    map_map_of_inverse (fun _ => rfl) _
  exact congrArg (fun c : List Component.schema.Val => ((version, c, ()), ())) hmap

theorem getOperationsForBlocks_toVal_ofVal (v : GetOperationsForBlocksMessage.schema.Val) :
    (GetOperationsForBlocksMessage.ofVal v).toVal = v := by
  obtain ⟨blocks, _⟩ := v
  have hmap : (List.map OperationsForBlock.ofVal blocks).map OperationsForBlock.toVal = blocks :=
    map_map_of_inverse (fun _ => rfl) _
  exact congrArg (fun l : List OperationsForBlock.schema.Val => (l, ())) hmap

theorem operationsForBlocks_toVal_ofVal (v : OperationsForBlocksMessage.schema.Val) :
    (OperationsForBlocksMessage.ofVal v).toVal = v := by
  obtain ⟨block, path, operations, _⟩ := v
  have hmap : (List.map Operation.ofVal operations).map Operation.toVal = operations :=
    map_map_of_inverse (fun _ => rfl) _
  exact congrArg (fun l : List Operation.schema.Val => (block, path, l, ())) hmap

theorem toVal_ofVal (v : schema.Val) : (ofVal v).toVal = v := by
  rcases (v : Unit ⊕ AdvertiseMessage.schema.Val ⊕ SwapMessage.schema.Val ⊕ SwapMessage.schema.Val ⊕
    Unit ⊕ GetCurrentBranchMessage.schema.Val ⊕ CurrentBranchMessage.schema.Val ⊕
    DeactivateMessage.schema.Val ⊕ GetCurrentHeadMessage.schema.Val ⊕ CurrentHeadMessage.schema.Val ⊕
    GetBlockHeadersMessage.schema.Val ⊕ BlockHeaderMessage.schema.Val ⊕
    GetOperationsMessage.schema.Val ⊕ OperationMessage.schema.Val ⊕ GetProtocolsMessage.schema.Val ⊕
    ProtocolMessage.schema.Val ⊕ GetOperationsForBlocksMessage.schema.Val ⊕
    OperationsForBlocksMessage.schema.Val ⊕ Empty) with
    _ | m | m | m | _ | m | m | m | m | m | m | m | m | m | m | m | m | m | m
  -- Three variants hold lists of structures, the others are their fields.
  case inr.inr.inr.inr.inr.inr.inr.inr.inr.inr.inr.inr.inr.inr.inr.inl =>
    iterate 15 refine congrArg Sum.inr ?_
    exact congrArg Sum.inl (protocol_toVal_ofVal m)
  case inr.inr.inr.inr.inr.inr.inr.inr.inr.inr.inr.inr.inr.inr.inr.inr.inl =>
    iterate 16 refine congrArg Sum.inr ?_
    exact congrArg Sum.inl (getOperationsForBlocks_toVal_ofVal m)
  case inr.inr.inr.inr.inr.inr.inr.inr.inr.inr.inr.inr.inr.inr.inr.inr.inr.inl =>
    iterate 17 refine congrArg Sum.inr ?_
    exact congrArg Sum.inl (operationsForBlocks_toVal_ofVal m)
  case inr.inr.inr.inr.inr.inr.inr.inr.inr.inr.inr.inr.inr.inr.inr.inr.inr.inr => cases m
  all_goals rfl

theorem hashSized_of_all {m : PeerMessage}
    (h : schema.All (fun _ => True) NodeFuzzer.HashSized m.toVal) : m.HashSized := by
  cases m with
  | operationsForBlocks m => exact h.2.1
  | _ => trivial

theorem nomRead_yields : Nom.Yields PeerMessageResponse.nomRead fun r => r.message.Sendable := by
  intro input rest r hr
  obtain ⟨rest', v, hv, hr⟩ := andThen_eq_done hr
  cases hr
  obtain ⟨⟨⟨⟨hwritable, _⟩, _⟩, ⟨hall, _⟩⟩, _⟩ :=
    spends_generateNomRead PeerMessageResponse.schema (by decide +kernel) _ _ _ hv
  have hval : (ofVal v.1).toVal = v.1 := toVal_ofVal v.1
  exact ⟨hval ▸ hwritable, hashSized_of_all (hval ▸ hall)⟩

/-- A message that is accepted can be sent on. -/
theorem sendable_of_fromBytes {b : Bytes} {r : PeerMessageResponse}
    (h : PeerMessageResponse.fromBytes b = .ok r) : r.message.Sendable := by
  rw [PeerMessageResponse.fromBytes, allConsumingCompleteInput] at h
  split at h
  next rest output hread =>
    cases h
    exact nomRead_yields.complete.allConsuming _ _ _ hread
  next => cases h
  next => cases h
  next => cases h

end PeerMessage

end NodeFuzzer
