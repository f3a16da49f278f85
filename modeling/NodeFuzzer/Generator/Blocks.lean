import NodeFuzzer.Generator.Cache
import NodeFuzzer.Generator.Chunks
import NodeFuzzer.Generator.Received

/-!
# The blocks a generator keeps

Whatever a generator is asked for, and whatever it is given, the map of blocks only ever gets
blocks under their own hashes, never more than its limit, and none at all when there is no limit
(`Caches`).  Each generator is followed through its binds.

Clones that share the map keep it so, however they take its lock, and every block they make is at
the end of a chain of headers from the genesis block on (`blocks_chained`).
-/

namespace NodeFuzzer

namespace RandomState

variable [Blake2b] {T U : Type} {s t u : RandomState}

/-- What may have happened to the blocks, however a call ended. -/
structure Caches (s t : RandomState) : Prop where
  blocksLimit : t.blocksLimit = s.blocksLimit
  maxChunkSize : t.maxChunkSize = s.maxChunkSize
  entries : ∀ entry ∈ t.blocks, entry ∈ s.blocks ∨ Clone.blockHash entry.2 = some entry.1
  unlimited : s.blocksLimit = 0 → t.blocks = s.blocks

/-- A step that leaves the blocks alone. -/
theorem Caches.of_eq (blocksLimit : t.blocksLimit = s.blocksLimit)
    (maxChunkSize : t.maxChunkSize = s.maxChunkSize) (blocks : t.blocks = s.blocks) : Caches s t :=
  ⟨blocksLimit, maxChunkSize, fun _ mem => .inl (blocks ▸ mem), fun _ => blocks⟩

theorem Caches.refl (s : RandomState) : Caches s s := .of_eq rfl rfl rfl

theorem Caches.trans (first : Caches s t) (second : Caches t u) : Caches s u := by
  refine ⟨second.blocksLimit.trans first.blocksLimit, second.maxChunkSize.trans first.maxChunkSize,
    ?_, ?_⟩
  · intro entry mem
    obtain kept | same := second.entries entry mem
    · exact first.entries entry kept
    · exact .inr same
  · intro unlimited
    rw [second.unlimited (first.blocksLimit.trans unlimited), first.unlimited unlimited]

instance : Std.Refl Caches := ⟨Caches.refl⟩

instance : IsTrans RandomState Caches := ⟨fun _ _ _ => Caches.trans⟩

/-! ## Draws -/

omit [Blake2b] in
/-- A draw changes the generator of numbers only. -/
theorem steps_draws {S : RandomState → RandomState → Prop}
    (h : ∀ s rng, S s { s with rng := rng }) (x : Exec Rng Empty T) : Exec.Steps S (draws x) :=
  fun s => h s _

theorem caches_draws (x : Exec Rng Empty T) : Exec.Steps Caches (draws x) :=
  steps_draws (fun _ _ => .of_eq rfl rfl rfl) x

/-- A list of generated elements. -/
theorem caches_collect {gen : Gen T} (size : Nat) (h : Exec.Steps Caches gen) :
    Exec.Steps Caches (collect size gen) :=
  Exec.Steps.mapEach fun _ _ => h

/-- Either of two ways. -/
theorem caches_coin {x y : Gen T} (hx : Exec.Steps Caches x) (hy : Exec.Steps Caches y) :
    Exec.Steps Caches (coin x y) := by
  refine (caches_draws _).bind fun b => ?_
  cases b with
  | false => exact hy
  | true => exact hx

theorem caches_genT (T : Type) [Standard T] : Exec.Steps Caches (genT T) := caches_draws _

theorem caches_genVec (T : Type) [Standard T] (size : Nat) : Exec.Steps Caches (genVec T size) :=
  caches_collect size (caches_genT T)

theorem caches_genRange (lo hi : Nat) : Exec.Steps Caches (genRange lo hi) := caches_draws _

theorem caches_genBool : Exec.Steps Caches genBool := caches_draws _

theorem caches_genString (size : Nat) : Exec.Steps Caches (genString size) :=
  (caches_collect size (caches_genT Char)).bind fun _ => Exec.steps_pure _

/-- The fitness counts the calls, beside the blocks. -/
theorem caches_genFitness : Exec.Steps Caches genFitness := by
  refine (Exec.steps_gets _).bind fun count => ?_
  split
  next =>
    refine Exec.Steps.bind (Exec.steps_modify fun s => ?_) fun _ => Exec.steps_pure _
    exact .of_eq rfl rfl rfl
  next => exact Exec.steps_abort

omit [Blake2b] in
/-- An error that is unwrapped ends the process where it is. -/
theorem steps_unwrap {σ ε δ : Type} {S : σ → σ → Prop} [Std.Refl S] (e : Except δ T) :
    Exec.Steps S (Exec.unwrap e : Exec σ ε T) := by
  cases e with
  | ok a => exact Exec.steps_pure a
  | error e => exact Exec.steps_abort

/-! ## Parts of messages -/

/-- A hash is made of drawn bytes. -/
theorem caches_genHash (t : HashType) : Exec.Steps Caches (genHash t) :=
  (caches_genVec _ _).bind fun _ => Exec.steps_orAbort _

theorem caches_genHashes (t : HashType) (count : Nat) : Exec.Steps Caches (genHashes t count) :=
  caches_collect count ((caches_genHash t).bind fun _ => Exec.steps_pure _)

theorem caches_genSocketAddr : Exec.Steps Caches genSocketAddr :=
  (caches_genT _).bind fun _ => (caches_genT _).bind fun _ => (caches_genT _).bind fun _ =>
    (caches_genT _).bind fun _ => (caches_genT _).bind fun _ => Exec.steps_pure _

theorem caches_genChainId : Exec.Steps Caches genChainId :=
  caches_coin ((caches_genHash _).bind fun _ => Exec.steps_pure _) (Exec.steps_gets _)

theorem caches_blockHash (bh : BlockHeader) : Exec.Steps Caches (blockHash bh) :=
  (steps_unwrap _).bind fun _ => Exec.steps_orAbort _

/-- By induction on the rounds of the loop. -/
theorem caches_genFitnessLoop (fuel budget remaining : Nat) (fitness : List Bytes) :
    Exec.Steps Caches (genFitnessLoop fuel budget remaining fitness) := by
  induction fuel generalizing budget remaining fitness with
  | zero => exact Exec.steps_abort
  | succ fuel ih =>
      refine (caches_genRange _ _).bind fun elementSize => (caches_genVec _ _).bind fun element => ?_
      split
      next => exact Exec.steps_pure _
      next => exact (Exec.steps_orAbort _).bind fun remaining => ih _ _ _

theorem caches_genDataLen (remaining : Nat) : Exec.Steps Caches (genDataLen remaining) := by
  unfold genDataLen
  split
  next => exact caches_genRange 1 remaining
  next => exact Exec.steps_pure remaining

/-- A header of drawn parts goes nowhere. -/
theorem caches_genBlockHeader : Exec.Steps Caches genBlockHeader :=
  (caches_genFitnessLoop _ _ _ _).bind fun _ => (caches_genDataLen _).bind fun _ =>
    (caches_genHash _).bind fun _ => (caches_genHash _).bind fun _ => (caches_genHash _).bind fun _ =>
    (caches_genT _).bind fun _ => (caches_genT _).bind fun _ => (caches_genT _).bind fun _ =>
    (caches_genT _).bind fun _ => (caches_genVec _ _).bind fun _ => Exec.steps_pure _

/-- By induction on the bytes. -/
theorem caches_flipBits (flips : Nat) (bytes : Bytes) :
    Exec.Steps Caches (flipBits flips bytes) := by
  induction bytes generalizing flips with
  | nil => exact Exec.steps_pure []
  | cons b bytes ih =>
      have hflip : Exec.Steps Caches (genFlip flips) := by
        unfold genFlip
        split
        next => exact caches_genBool
        next => exact Exec.steps_pure false
      refine hflip.bind fun flip => ?_
      split
      next =>
        exact (caches_genRange 0 8).bind fun place => (ih _).bind fun rest => Exec.steps_pure _
      next => exact (ih _).bind fun rest => Exec.steps_pure _

/-! ## Block headers -/

/-- The predecessor may be the head that was received, which stays. -/
theorem caches_mutatePredecessor : Exec.Steps Caches mutatePredecessor := by
  refine (Exec.steps_gets _).bind fun currentHead => ?_
  split
  next head => exact (caches_blockHash _).bind fun _ => Exec.steps_pure _
  next =>
    exact caches_genBlockHeader.bind fun _ => (Exec.steps_gets _).bind fun _ =>
      (caches_blockHash _).bind fun _ => Exec.steps_pure _

theorem caches_mutateFitness (fitness : List Bytes) (remaining : Nat) :
    Exec.Steps Caches (mutateFitness fitness remaining) := by
  refine caches_coin ?_ (caches_genFitnessLoop _ _ _ _)
  exact (Exec.steps_orAbort _).bind fun _ => (Exec.steps_orAbort _).bind fun _ =>
    caches_genFitness.bind fun _ => (Exec.steps_orAbort _).bind fun _ => Exec.steps_pure _

theorem caches_mutateBytes (bytes : Bytes) : Exec.Steps Caches (mutateBytes bytes) :=
  (caches_genRange _ _).bind fun _ => caches_flipBits _ _

theorem caches_genData (remaining : Nat) :
    Exec.Steps Caches (genDataLen remaining >>= fun dataLen => genVec UInt8 dataLen) :=
  (caches_genDataLen _).bind fun _ => caches_genVec _ _

theorem caches_mutateProtocolData (bytes : Bytes) (remaining : Nat) :
    Exec.Steps Caches (mutateProtocolData bytes remaining) := by
  refine caches_genBool.bind fun keep => ?_
  split
  next => exact caches_mutateBytes bytes
  next => exact caches_genData remaining

theorem caches_mutateTimestamp (timestamp : Int64) :
    Exec.Steps Caches (mutateTimestamp timestamp) :=
  caches_coin ((caches_genRange _ _).bind fun _ => Exec.steps_orAbort _) (caches_genT _)

/-- A header that was received is changed in a copy. -/
theorem caches_mutateBlockHeader (data : BlockHeader) :
    Exec.Steps Caches (mutateBlockHeader data) :=
  (caches_coin (Exec.steps_orAbort _) (caches_genT _)).bind fun _ =>
    (caches_coin (Exec.steps_pure _) (caches_genT _)).bind fun _ =>
    caches_mutatePredecessor.bind fun _ => (caches_mutateTimestamp _).bind fun _ =>
    (caches_coin (Exec.steps_orAbort _) (caches_genT _)).bind fun _ =>
    (caches_genHash _).bind fun _ => (caches_mutateFitness _ _).bind fun _ =>
    (caches_genHash _).bind fun _ => (caches_mutateProtocolData _ _).bind fun _ => Exec.steps_pure _

/-! ## Branches and heads -/

/-- The hash of the last block is no entry of the map. -/
theorem caches_lastBlock (hash : TypedHash .blockHash) :
    Exec.Steps Caches (Exec.modify fun s => { s with lastBlock := hash } : Gen Unit) :=
  Exec.steps_modify fun _ => .of_eq rfl rfl rfl

/-- A block goes in under its own hash. -/
theorem caches_insertBlock {hash : TypedHash .blockHash} {block : BlockHeader}
    (same : Clone.blockHash block = some hash) : Exec.Steps Caches (insertBlock hash block) := by
  refine Exec.steps_of_wp fun s => ?_
  rw [insertBlock, Exec.wp_bind, Exec.wp_gets]
  split
  next => exact .refl s
  next limited =>
    have roomed : Exec.wp (makeRoom s) (fun _ t => Caches s t) (Caches s) s := by
      unfold makeRoom
      split
      next =>
        rw [Exec.wp_bind]
        refine wp_draws (Rng.wp_draw fun place rng => ?_)
        rw [Exec.wp_bind]
        refine Exec.wp_orAbort _ (fun key _ => ?_) fun _ => .of_eq rfl rfl rfl
        rw [Exec.wp_modify]
        exact ⟨rfl, rfl, fun entry mem => .inl (List.mem_filter.mp mem).1,
          fun unlimited => absurd unlimited limited⟩
      next => exact .refl s
    rw [Exec.wp_bind]
    refine Exec.wp_mono roomed (fun _ t caches => ?_) fun _ caches => caches
    rw [Exec.wp_modify]
    refine ⟨caches.blocksLimit, caches.maxChunkSize, ?_, fun unlimited => absurd unlimited limited⟩
    intro entry mem
    obtain rfl | kept := List.mem_cons.mp mem
    · exact .inr same
    · exact caches.entries entry (List.mem_filter.mp kept).1

/-- The block of a made up branch goes into the map, under the hash that was made of it. -/
theorem caches_keepBlock (block : BlockHeader) : Exec.Steps Caches (do
    let hash ← blockHash block
    insertBlock hash block
    Exec.modify fun s => { s with lastBlock := hash } : Gen Unit) := by
  refine Exec.steps_of_wp fun s => ?_
  rw [Clone.blockHash_eq, Exec.wp_bind]
  refine Exec.wp_orAbort _ ?_ fun _ => .refl s
  intro hash same
  rw [Exec.wp_bind]
  refine Exec.wp_mono ((caches_insertBlock same).wp s) (fun _ t caches => ?_) fun _ caches => caches
  rw [Exec.wp_modify]
  exact caches.trans (.of_eq rfl rfl rfl)

/-- All of the branch but its block is drawn. -/
theorem caches_genCurrentBranch : Exec.Steps Caches genCurrentBranch := by
  have known : genCurrentBranch = (do
      let historyLen ← genRange 0 CURRENT_BRANCH_HISTORY_MAX_LENGTH
      let history ← genHashes .blockHash (historyLen - 1)
      let block ← genBlockHeader
      let predecessor ← Exec.gets lastBlock
      let newBlock : BlockHeader := { block with predecessor := predecessor.val }
      let _ ← (do
        let hash ← blockHash newBlock
        insertBlock hash newBlock
        Exec.modify fun s => { s with lastBlock := hash } : Gen Unit)
      pure ⟨newBlock, history⟩) := by
    simp only [genCurrentBranch, Exec.bind_assoc]
  rw [known]
  exact (caches_genRange _ _).bind fun _ => (caches_genHashes _ _).bind fun _ =>
    caches_genBlockHeader.bind fun _ => (Exec.steps_gets _).bind fun _ =>
    (caches_keepBlock _).bind fun _ => Exec.steps_pure _

theorem caches_genHistory (lo : Nat) : Exec.Steps Caches (do
    let historyLen ← genRange lo CURRENT_BRANCH_HISTORY_MAX_LENGTH
    genHashes .blockHash historyLen) :=
  (caches_genRange _ _).bind fun _ => caches_genHashes _ _

/-- A branch that was received is answered without a new block. -/
theorem caches_mutateCurrentBranch (data : CurrentBranch) :
    Exec.Steps Caches (mutateCurrentBranch data) :=
  (caches_mutateBlockHeader _).bind fun _ =>
    (caches_coin (Exec.steps_pure _) (caches_genHistory 1)).bind fun _ =>
    (caches_blockHash _).bind fun _ => (caches_lastBlock _).bind fun _ => Exec.steps_pure _

theorem caches_genCurrentBranchMessage : Exec.Steps Caches genCurrentBranchMessage := by
  refine (Exec.steps_gets _).bind fun currentBranch => ?_
  split
  next data => exact (caches_mutateCurrentBranch _).bind fun _ => Exec.steps_pure _
  next =>
    exact caches_genChainId.bind fun _ => caches_genCurrentBranch.bind fun _ => Exec.steps_pure _

theorem caches_someHashes (t : HashType) (lo hi : Nat) : Exec.Steps Caches (do
    let count ← genRange lo hi
    genHashes t count) :=
  (caches_genRange _ _).bind fun _ => caches_genHashes _ _

/-- The operations of a mempool are hashes. -/
theorem caches_mutateMempool (data : Mempool) : Exec.Steps Caches (mutateMempool data) := by
  refine (caches_coin (caches_coin (Exec.steps_pure _) (Exec.steps_pure _))
    (caches_someHashes _ _ _)).bind fun _ => (Exec.steps_orAbort _).bind fun remaining => ?_
  refine (caches_coin (caches_coin (Exec.steps_pure _) (Exec.steps_pure _)) ?_).bind fun _ =>
    Exec.steps_pure _
  exact (caches_genDataLen _).bind fun _ => caches_genHashes _ _

theorem caches_genMempool : Exec.Steps Caches genMempool := by
  refine (Exec.steps_gets _).bind fun currentHead => ?_
  split
  next head => exact caches_mutateMempool _
  next =>
    exact (caches_genRange _ _).bind fun _ => (caches_genRange _ _).bind fun _ =>
      (caches_genHashes _ _).bind fun _ => (caches_genHashes _ _).bind fun _ => Exec.steps_pure _

/-- A head that was received is mutated in a copy, and a new one is made of drawn parts. -/
theorem caches_genCurrentHeadMessage : Exec.Steps Caches genCurrentHeadMessage := by
  refine (Exec.steps_gets _).bind fun currentHead => ?_
  split
  next data =>
    exact (caches_mutateBlockHeader _).bind fun _ => (caches_mutateMempool _).bind fun _ =>
      Exec.steps_pure _
  next =>
    exact caches_genChainId.bind fun _ => caches_genBlockHeader.bind fun _ =>
      caches_genMempool.bind fun _ => Exec.steps_pure _

theorem caches_genBlockHeaderMessage : Exec.Steps Caches genBlockHeaderMessage := by
  refine (Exec.steps_gets _).bind fun blockHeader => ?_
  split
  next data => exact (caches_mutateBlockHeader _).bind fun _ => Exec.steps_pure _
  next => exact caches_genBlockHeader.bind fun _ => Exec.steps_pure _

/-! ## Operations and protocols -/

/-- An operation may refer to the head that was received. -/
theorem caches_genOperationBranch : Exec.Steps Caches genOperationBranch := by
  refine (Exec.steps_gets _).bind fun currentHead => ?_
  split
  next head => exact (caches_blockHash _).bind fun _ => Exec.steps_pure _
  next =>
    exact caches_coin (Exec.steps_gets _) ((caches_genHash _).bind fun _ => Exec.steps_pure _)

theorem caches_genOperation : Exec.Steps Caches genOperation :=
  caches_genOperationBranch.bind fun _ => (caches_genVec _ _).bind fun _ => Exec.steps_pure _

/-- The bytes of an operation that was received. -/
theorem caches_mutateOperationData (data : Bytes) :
    Exec.Steps Caches (mutateOperationData data) := by
  refine caches_coin ?_ (caches_genData _)
  split
  next => exact caches_mutateBytes data
  next => exact caches_flipBits 0 data

theorem caches_genOperationMessage : Exec.Steps Caches genOperationMessage := by
  refine (Exec.steps_gets _).bind fun operation => ?_
  split
  next data =>
    refine Exec.Steps.bind ?_ fun _ => Exec.steps_pure _
    exact (caches_coin (Exec.steps_pure _) caches_genOperationBranch).bind fun _ =>
      (caches_mutateOperationData _).bind fun _ => Exec.steps_pure _
  next => exact caches_genOperation.bind fun _ => Exec.steps_pure _

theorem caches_genText (max : Nat) : Exec.Steps Caches (genText max) :=
  (caches_genRange _ _).bind fun _ => caches_genString _

theorem caches_someText : Exec.Steps Caches (do
    let iface ← genText 102401
    pure (some iface) : Gen (Option String)) :=
  (caches_genText _).bind fun _ => Exec.steps_pure _

theorem caches_genComponent : Exec.Steps Caches genComponent :=
  (caches_genText _).bind fun _ => (caches_coin caches_someText (Exec.steps_pure _)).bind fun _ =>
    (caches_genText _).bind fun _ => Exec.steps_pure _

/-- One of three ways to go on with an interface. -/
theorem caches_mutateInterface (interface : Option String) :
    Exec.Steps Caches (mutateInterface interface) := by
  refine (caches_genRange _ _).bind fun choice => ?_
  split
  next => exact caches_someText
  next => exact Exec.steps_pure _
  next => exact Exec.steps_pure _

theorem caches_mutateComponent (data : Component) : Exec.Steps Caches (mutateComponent data) :=
  (caches_coin (caches_genText _) (Exec.steps_pure _)).bind fun _ =>
    (caches_mutateInterface _).bind fun _ =>
    (caches_coin (caches_genText _) (Exec.steps_pure _)).bind fun _ => Exec.steps_pure _

/-- By induction on the components that there is room for. -/
theorem caches_genComponents (fuel remaining : Nat) (components : List Component) :
    Exec.Steps Caches (genComponents fuel remaining components) := by
  induction fuel generalizing remaining components with
  | zero => exact Exec.steps_abort
  | succ fuel ih =>
      refine caches_genComponent.bind fun component => (steps_unwrap _).bind fun bytes => ?_
      split
      next => exact Exec.steps_pure _
      next => exact ih _ _

theorem caches_genProtocolMessage : Exec.Steps Caches genProtocolMessage := by
  refine (Exec.steps_gets _).bind fun protocol => ?_
  split
  next data =>
    exact (caches_coin (Exec.steps_pure _) (caches_genT _)).bind fun _ =>
      (Exec.Steps.mapEach fun _ _ => caches_mutateComponent _).bind fun _ => Exec.steps_pure _
  next =>
    exact (caches_genT _).bind fun _ => (caches_genComponents _ _ _).bind fun _ => Exec.steps_pure _

/-! ## Operations for blocks -/

/-- A hash of the state, or one that is drawn. -/
theorem caches_genKnownBlock : Exec.Steps Caches genKnownBlock := by
  have made : Exec.Steps Caches (do
      let hash ← genHash .blockHash
      pure hash.val) := (caches_genHash _).bind fun _ => Exec.steps_pure _
  refine (Exec.steps_gets _).bind fun s => ?_
  split
  next branch _ _ =>
    split
    next => exact (caches_genRange _ _).bind fun _ => Exec.steps_orAbort _
    next => exact made
  next => exact (caches_blockHash _).bind fun _ => Exec.steps_pure _
  next => exact (caches_blockHash _).bind fun _ => Exec.steps_pure _
  next => exact made

theorem caches_genOperationsForBlock : Exec.Steps Caches genOperationsForBlock :=
  caches_genKnownBlock.bind fun _ => (caches_genT _).bind fun _ => Exec.steps_pure _

theorem caches_genPath : Exec.Steps Caches genPath :=
  (Exec.steps_orAbort _).bind fun _ => (caches_genRange _ _).bind fun _ =>
    caches_collect _ ((caches_genVec _ _).bind fun _ =>
      caches_coin (Exec.steps_pure _) (Exec.steps_pure _))

/-- By induction on the operations that there is room for. -/
theorem caches_genOperations (fuel remaining : Nat) (operations : List Operation) :
    Exec.Steps Caches (genOperations fuel remaining operations) := by
  induction fuel generalizing remaining operations with
  | zero => exact Exec.steps_abort
  | succ fuel ih =>
      refine caches_genOperation.bind fun operation => (steps_unwrap _).bind fun bytes => ?_
      split
      next => exact Exec.steps_pure _
      next => exact ih _ _

/-- The reply to a request for the operations of a block. -/
theorem caches_genOperationsReply (block : OperationsForBlock) :
    Exec.Steps Caches (genOperationsReply block) :=
  caches_genPath.bind fun _ => (caches_genOperations _ _ _).bind fun _ => Exec.steps_pure _

theorem caches_genOperationsForBlocksMessage : Exec.Steps Caches genOperationsForBlocksMessage := by
  refine (Exec.steps_gets _).bind fun operationsForBlocks => ?_
  split
  next data =>
    exact (caches_coin (Exec.steps_pure _) caches_genOperationsForBlock).bind fun _ =>
      (caches_coin (Exec.steps_pure _) caches_genPath).bind fun _ =>
      (caches_coin (Exec.steps_pure _) (caches_genOperations _ _ _)).bind fun _ => Exec.steps_pure _
  next =>
    exact caches_genOperationsForBlock.bind fun _ => caches_genPath.bind fun _ =>
      (caches_genOperations _ _ _).bind fun _ => Exec.steps_pure _

/-! ## Whole messages -/

/-- A part is wrapped into its message. -/
theorem caches_map {gen : Gen T} (f : T → U) (h : Exec.Steps Caches gen) :
    Exec.Steps Caches (f <$> gen) :=
  h.bind fun _ => Exec.steps_pure _

theorem caches_genAdvertiseMessage : Exec.Steps Caches genAdvertiseMessage :=
  (caches_genRange _ _).bind fun _ => (caches_collect _ caches_genSocketAddr).bind fun _ =>
    Exec.steps_pure _

theorem caches_genSwapMessage : Exec.Steps Caches genSwapMessage :=
  (caches_genRange _ _).bind fun _ => (caches_genHash _).bind fun _ =>
    (caches_genString _).bind fun _ =>
    Exec.steps_pure _

theorem caches_genChainIdMessage : Exec.Steps Caches genChainIdMessage :=
  caches_genChainId.bind fun _ => Exec.steps_pure _

theorem caches_genHashesMessage (t : HashType) (max : Nat) :
    Exec.Steps Caches (genHashesMessage t max) :=
  (caches_genRange _ _).bind fun _ => (caches_genHashes _ _).bind fun _ => Exec.steps_pure _

theorem caches_genGetOperationsForBlocksMessage :
    Exec.Steps Caches genGetOperationsForBlocksMessage :=
  (caches_genRange _ _).bind fun _ => (caches_collect _ caches_genOperationsForBlock).bind fun _ =>
    Exec.steps_pure _

/-- Every message that is pushed. -/
theorem caches_gen (kind : MessageKind) : Exec.Steps Caches kind.gen := by
  cases kind with
  | disconnect => exact Exec.steps_pure _
  | bootstrap => exact Exec.steps_pure _
  | advertise => exact caches_map _ caches_genAdvertiseMessage
  | swapRequest => exact caches_map _ caches_genSwapMessage
  | swapAck => exact caches_map _ caches_genSwapMessage
  | getCurrentBranch => exact caches_map _ caches_genChainIdMessage
  | currentBranch => exact caches_map _ caches_genCurrentBranchMessage
  | deactivate => exact caches_map _ caches_genChainIdMessage
  | getCurrentHead => exact caches_map _ caches_genChainIdMessage
  | currentHead => exact caches_map _ caches_genCurrentHeadMessage
  | getBlockHeaders => exact caches_map _ (caches_genHashesMessage _ _)
  | blockHeader => exact caches_map _ caches_genBlockHeaderMessage
  | getOperations => exact caches_map _ (caches_genHashesMessage _ _)
  | operation => exact caches_map _ caches_genOperationMessage
  | getProtocols => exact caches_map _ (caches_genHashesMessage _ _)
  | protocol => exact caches_map _ caches_genProtocolMessage
  | getOperationsForBlocks => exact caches_map _ caches_genGetOperationsForBlocksMessage
  | operationsForBlocks => exact caches_map _ caches_genOperationsForBlocksMessage

/-! ## Messages that are received -/

/-- A header that was received sets the count of its fitness before it is stored. -/
theorem caches_absorb (fitness : List Bytes) {store : RandomState → RandomState}
    (h : ∀ s, Caches s (store s)) : Exec.Steps Caches (absorb fitness store) := by
  unfold absorb
  split
  next =>
    have read : Exec.Steps Caches (countOfFitness fitness) := by
      refine (Exec.steps_orAbort _).bind fun element => ?_
      split
      next => exact Exec.steps_pure _
      next => exact Exec.steps_abort
    have counted : ∀ count, Exec.Steps Caches
        (Exec.modify fun s => { s with fitnessCount := count } : Gen Unit) :=
      fun count => Exec.steps_modify fun _ => .of_eq rfl rfl rfl
    exact read.bind fun count => (counted count).bind fun _ => Exec.steps_modify h
  next => exact Exec.steps_pure ()

theorem caches_setChainId (chainId : TypedHash .chainId) : Exec.Steps Caches (setChainId chainId) :=
  Exec.steps_modify fun _ => .of_eq rfl rfl rfl

/-- No message that is received comes into the map. -/
theorem caches_store (m : PeerMessage) : Exec.Steps Caches (store m) := by
  have kept (f : RandomState → RandomState) (h : ∀ s, Caches s (f s)) :
      Exec.Steps Caches (Exec.modify f : Gen Unit) := Exec.steps_modify h
  cases m with
  | getCurrentHead m | getCurrentBranch m =>
      exact (Exec.steps_orAbort _).bind fun _ => caches_setChainId _
  | currentBranch m => exact caches_absorb _ fun _ => .of_eq rfl rfl rfl
  | currentHead m =>
      exact (Exec.steps_orAbort _).bind fun _ => (caches_setChainId _).bind fun _ =>
        caches_absorb _ fun _ => .of_eq rfl rfl rfl
  | blockHeader m => exact kept _ fun _ => .of_eq rfl rfl rfl
  | operation m => exact kept _ fun _ => .of_eq rfl rfl rfl
  | protocol m => exact kept _ fun _ => .of_eq rfl rfl rfl
  | operationsForBlocks m => exact kept _ fun _ => .of_eq rfl rfl rfl
  | _ => exact Exec.steps_pure ()

/-! ## Chunks -/

section

variable {Key : Type} [CryptoBox Key]

/-- The sizes of pieces, by induction on their number. -/
theorem caches_drawSizes {gen : Nat → Gen Nat} (h : ∀ n, Exec.Steps Caches (gen n))
    (fuel remaining : Nat) : Exec.Steps Caches (drawSizes gen fuel remaining) := by
  induction fuel generalizing remaining with
  | zero => exact Exec.steps_abort
  | succ fuel ih =>
      rw [drawSizes]
      split
      next => exact Exec.steps_pure _
      next =>
        refine (h remaining).bind fun size => ?_
        split
        next => exact (ih _).bind fun _ => Exec.steps_pure _
        next => exact Exec.steps_abort

theorem caches_shuffledSizes {gen : Nat → Gen Nat} (h : ∀ n, Exec.Steps Caches (gen n))
    (length : Nat) : Exec.Steps Caches (shuffledSizes gen length) :=
  (caches_drawSizes h _ _).bind fun _ => caches_draws _

theorem caches_chunkSize (maxSize remaining : Nat) :
    Exec.Steps Caches (chunkSize maxSize remaining) := by
  unfold chunkSize
  split
  next => exact Exec.steps_pure 1
  next => exact caches_genRange _ _

theorem caches_sealPiece (key : Key) (piece : Bytes) (nonce : Nonce) :
    Exec.Steps Caches (sealPiece key piece nonce) :=
  (steps_unwrap _).bind fun _ => steps_unwrap _

/-- Each piece is sealed under the next nonce. -/
theorem caches_cutChunks (key : Key) (bytes : Bytes) (sizes : List Nat) (start : Nat) (nonce : Nonce) :
    Exec.Steps Caches (cutChunks key bytes sizes start nonce) := by
  induction sizes generalizing start nonce with
  | nil => exact Exec.steps_pure _
  | cons size sizes ih =>
      exact (Exec.steps_orAbort _).bind fun _ => (caches_sealPiece _ _ _).bind fun _ =>
        (ih _ _).bind fun _ => Exec.steps_pure _

/-- Cutting and sealing a message draws sizes only. -/
theorem caches_genChunks (bytes : Bytes) (key : Key) (nonce : Nonce) :
    Exec.Steps Caches (genChunks bytes key nonce) :=
  (Exec.steps_gets _).bind fun _ => (caches_shuffledSizes (caches_chunkSize _) _).bind fun _ =>
    caches_cutChunks _ _ _ _ _

theorem caches_sealPieces (key : Key) (pieces : List Bytes) (nonce : Nonce) :
    Exec.Steps Caches (sealPieces key pieces nonce) := by
  induction pieces generalizing nonce with
  | nil => exact Exec.steps_pure _
  | cons piece pieces ih =>
      exact (caches_sealPiece _ _ _).bind fun _ => (ih _).bind fun _ => Exec.steps_pure _

theorem caches_cutBytes (bytes : Bytes) (sizes : List Nat) (start : Nat) :
    Exec.Steps Caches (cutBytes bytes sizes start) := by
  induction sizes generalizing start with
  | nil => exact Exec.steps_pure _
  | cons size sizes ih =>
      exact (Exec.steps_orAbort _).bind fun _ => (ih _).bind fun _ => Exec.steps_pure _

theorem caches_genByteChunks (bytes : Bytes) : Exec.Steps Caches (genByteChunks bytes) :=
  (caches_shuffledSizes (caches_genRange 1) _).bind fun _ => caches_cutBytes _ _ _

end

/-! ## Looking blocks up -/

/-- `get_block`. -/
def getBlock (hash : Bytes) (s : RandomState) : Option BlockHeaderMessage :=
  (s.blocks.find? fun entry => entry.1.val = hash).map fun entry => ⟨entry.2⟩

/-- Every block is under its own hash. -/
def Authentic (s : RandomState) : Prop :=
  ∀ entry ∈ s.blocks, Clone.blockHash entry.2 = some entry.1

/-- No step puts a block under the hash of another. -/
theorem Authentic.caches (authentic : s.Authentic) (caches : Caches s t) : t.Authentic := by
  intro entry mem
  obtain kept | same := caches.entries entry mem
  · exact authentic entry kept
  · exact same

omit [Blake2b] in
/-- Before the first block nothing is found. -/
theorem getBlock_none (h : s.blocks = []) (hash : Bytes) : s.getBlock hash = none := by
  rw [getBlock, h]
  rfl

/-- A block that is found has the hash it was asked for by. -/
theorem Authentic.getBlock (authentic : s.Authentic) {hash : Bytes} {m : BlockHeaderMessage}
    (h : s.getBlock hash = some m) : ∃ known, Clone.blockHash m.blockHeader = some known ∧
      known.val = hash := by
  obtain ⟨entry, found, rfl⟩ := Option.map_eq_some_iff.mp h
  refine ⟨entry.1, authentic entry (List.mem_of_find?_eq_some found), ?_⟩
  simpa using List.find?_some found

end RandomState

/-! ## The blocks of clones

A clone reads the hash of the last block under one lock, and writes its own under another, so that
others may come between.  What it read is the hash of a block all the same. -/

/-- A hash at the end of a chain of headers from the genesis block on. -/
inductive Chained [Blake2b] : TypedHash .blockHash → Prop where
  | genesis : Chained genesisHash
  | next {predecessor hash : TypedHash .blockHash} {block : BlockHeader} : Chained predecessor →
      block.predecessor = predecessor.val → Clone.blockHash block = some hash → Chained hash

section

variable [Blake2b]

/-- The hash is that of the header, on a chain. -/
structure Clone.Hashed (block : BlockHeader) (hash : TypedHash .blockHash) : Prop where
  same : blockHash block = some hash
  chained : Chained hash

/-- What a clone knows of the block it made. -/
def Clone.Knows : Clone → Prop
  | idle (some branch) => ∃ hash, Hashed branch.currentHead hash
  | copiesState _ newBlock hash => Hashed newBlock hash
  | removes _ _ newBlock hash => Hashed newBlock hash
  | inserts _ newBlock hash => Hashed newBlock hash
  | setsLastBlock _ newBlock hash => Hashed newBlock hash
  | _ => True

/-- What holds of the state the clones share. -/
structure RandomState.Linked (s : RandomState) : Prop where
  blocks : ∀ entry ∈ s.blocks, Clone.Hashed entry.2 entry.1
  keys : (s.blocks.map fun entry => entry.1.val).Nodup
  last : Chained s.lastBlock

theorem Clone.knows_ofDraw (x : Draw (List Bytes × BlockHeader)) : (ofDraw x).Knows := by
  cases x <;> trivial

/-- The map stays as it is linked when some of it is removed. -/
theorem RandomState.Linked.filter {s : RandomState} (linked : s.Linked)
    (keep : TypedHash .blockHash × BlockHeader → Bool) :
    RandomState.Linked { s with blocks := s.blocks.filter keep } := by
  refine ⟨fun entry mem => linked.blocks entry (List.mem_of_mem_filter mem), ?_, linked.last⟩
  exact linked.keys.sublist (List.filter_sublist.map _)

/-- A block replaces the one with its hash. -/
theorem RandomState.Linked.insert {s : RandomState} (linked : s.Linked) {block : BlockHeader}
    {hash : TypedHash .blockHash} (hashed : Clone.Hashed block hash) :
    RandomState.Linked { s with
      blocks := (hash, block) :: s.blocks.filter fun entry => entry.1.val ≠ hash.val } := by
  obtain ⟨blocks, keys, last⟩ := linked.filter fun entry => entry.1.val ≠ hash.val
  refine ⟨fun entry mem => ?_, ?_, last⟩
  · rcases List.mem_cons.mp mem with rfl | mem
    · exact hashed
    · exact blocks entry mem
  · rw [List.map_cons, List.nodup_cons]
    refine ⟨fun mem => ?_, keys⟩
    obtain ⟨entry, mem, same⟩ := List.mem_map.mp mem
    simpa [same] using List.of_mem_filter mem

/-- Whatever the others did to the state meanwhile. -/
theorem Clone.Knows.step {c : Clone} (knows : c.Knows) {s : RandomState} (linked : s.Linked) :
    (c.step s).1.Knows ∧ (c.step s).2.Linked := by
  cases c with
  | idle last => exact ⟨knows_ofDraw Draw.genHistoryAndBlock, linked⟩
  | draws rest =>
      exact ⟨knows_ofDraw (rest (s.rng.draws 0)), linked.blocks, linked.keys, linked.last⟩
  | readsLastBlock history block =>
      simp only [Clone.step]
      split
      next hash same => exact ⟨⟨same, .next linked.last rfl same⟩, linked⟩
      next => exact ⟨trivial, linked⟩
  | copiesState history newBlock hash =>
      simp only [Clone.step]
      split
      next => exact ⟨knows, linked⟩
      next =>
        split
        next =>
          split
          next => exact ⟨knows, linked.blocks, linked.keys, linked.last⟩
          next => exact ⟨trivial, linked⟩
        next => exact ⟨knows, linked⟩
  | removes key history newBlock hash => exact ⟨knows, linked.filter _⟩
  | inserts history newBlock hash => exact ⟨knows, linked.insert knows⟩
  | setsLastBlock history newBlock hash =>
      exact ⟨⟨hash, knows⟩, linked.blocks, linked.keys, knows.chained⟩
  | panicked => exact ⟨trivial, linked⟩

/-- What every state of a run is. -/
structure Clones.Linked (c : Clones) : Prop where
  clones : ∀ clone ∈ c.clones, clone.Knows
  shared : c.shared.Linked

/-- By the cases of the move; a new clone knows nothing. -/
theorem Clones.Linked.act {c : Clones} (linked : c.Linked) (move : CloneMove) :
    (c.act move).Linked := by
  cases move with
  | step i =>
      cases hi : c.clones[i]? with
      | none =>
          simp only [Clones.act, hi]
          exact linked
      | some clone =>
          obtain ⟨knows, shared⟩ :=
            (linked.clones clone (List.mem_of_getElem? hi)).step linked.shared
          simp only [Clones.act, hi]
          refine ⟨fun clone' mem => ?_, shared⟩
          rcases List.mem_or_eq_of_mem_set mem with old | rfl
          · exact linked.clones clone' old
          · exact knows
  | clone =>
      refine ⟨fun clone' mem => ?_, linked.shared⟩
      rcases List.mem_append.mp mem with old | new
      · exact linked.clones clone' old
      · cases List.mem_singleton.mp new
        trivial

/-- By induction on the run. -/
theorem Clones.Runs.linked {P : Clones → CloneMove → Prop} {c c' : Clones} (runs : Runs P c c')
    (linked : c.Linked) : c'.Linked := by
  induction runs with
  | refl => exact linked
  | tail _ move ih =>
      obtain ⟨move, _, rfl⟩ := move
      exact ih.act move

/-- However any number of clones take the lock, the map has each block once and under its own hash,
so that a block that is looked up is the one that was asked for; and the blocks of the map, the
heads of the branches that were returned and the last block all end chains of headers from the
genesis block on. -/
theorem blocks_chained {P : Clones → CloneMove → Prop} {rng : Rng} {blocksLimit maxChunkSize : Nat}
    {c : Clones} (runs : Clones.Runs P (.start rng blocksLimit maxChunkSize) c) :
    (c.shared.blocks.map fun entry => entry.1.val).Nodup ∧
    (∀ hash m, c.shared.getBlock hash = some m →
      ∃ known, known.val = hash ∧ Clone.Hashed m.blockHeader known) ∧
    (∀ branch, .idle (some branch) ∈ c.clones → ∃ hash, Clone.Hashed branch.currentHead hash) ∧
    Chained c.shared.lastBlock := by
  have start : Clones.Linked (.start rng blocksLimit maxChunkSize) := by
    refine ⟨by simp [Clones.start], ⟨by simp [Clones.start, RandomState.new],
      by simp [Clones.start, RandomState.new], .genesis⟩⟩
  obtain ⟨clones, blocks, keys, last⟩ := runs.linked start
  refine ⟨keys, fun hash m found => ?_, fun branch mem => clones _ mem, last⟩
  obtain ⟨entry, found', rfl⟩ := Option.map_eq_some_iff.mp found
  have same : entry.1.val = hash := by simpa using List.find?_some found'
  exact ⟨entry.1, same, blocks entry (List.mem_of_find?_eq_some found')⟩

end

section

local instance chainDigest : Blake2b := RandomState.unusedDigest

/-- Two clones that returned branches, the second one with the map full. -/
theorem blocks_chained_two : ∃ (c : Clones) (first second : CurrentBranch),
    c.clones = [.idle (some first), .idle (some second)] ∧
      (∃ hash, Clone.Hashed first.currentHead hash) ∧
      (∃ hash, Clone.Hashed second.currentHead hash) ∧ Chained c.shared.lastBlock := by
  obtain ⟨first, s, run, _⟩ :=
    (RandomState.gives_genCurrentBranch (s := .new ⟨id⟩ 1 100)).returns
  obtain ⟨second, t, run', _⟩ := (RandomState.gives_genCurrentBranch (s := s)).returns
  have called := Clones.runs_genCurrentBranch (l := [.idle none, .idle none]) (i := 0)
    ⟨by simp, rfl⟩ run none
  have called' := Clones.runs_genCurrentBranch (l := [.idle (some first), .idle none]) (i := 1)
    ⟨by simp, rfl⟩ run' none
  have chained := blocks_chained
    (.head ⟨.clone, trivial, rfl⟩ (.head ⟨.clone, trivial, rfl⟩ (called.trans called')))
  exact ⟨.doing [.idle (some first), .idle none] 1 (.idle (some second)) t, first, second, rfl,
    chained.2.2.1 first (.head _), chained.2.2.1 second (.tail _ (.head _)), chained.2.2.2⟩

end

end NodeFuzzer
