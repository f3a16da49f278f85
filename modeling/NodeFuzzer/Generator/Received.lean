import NodeFuzzer.Generator.Pushed

/-!
# Messages that are received

The setters of the generator, as `handle_response` calls them, and runs in which messages
are received and pushed in any order.  A message is pushed without a panic, and can be sent,
in every state that can push its kind (`Along.sends`).
-/

namespace NodeFuzzer

namespace RandomState

/-! ## Setters -/

/-- `set_chain_id`. -/
def setChainId (chainId : TypedHash .chainId) : Gen Unit :=
  Exec.modify fun s => { s with chainId := chainId }

/-- `u64::from_be_bytes(fitness[1].clone().try_into().unwrap())`. -/
def countOfFitness (fitness : List Bytes) : Gen Nat := do
  let element ← Exec.orAbort fitness[1]?
  if element.length = 8 then pure (ofBe element) else Exec.abort

/-- `set_current_branch`. -/
def setCurrentBranch (m : CurrentBranchMessage) : Gen Unit :=
  if m.currentBranch.currentHead.fitness.length > 1 then do
    let count ← countOfFitness m.currentBranch.currentHead.fitness
    Exec.modify fun s => { s with fitnessCount := count }
    Exec.modify fun s => { s with currentBranch := some m }
  else pure ()

/-- `set_current_head`. -/
def setCurrentHead (m : CurrentHeadMessage) : Gen Unit :=
  if m.currentBlockHeader.fitness.length > 1 then do
    let count ← countOfFitness m.currentBlockHeader.fitness
    Exec.modify fun s => { s with fitnessCount := count }
    Exec.modify fun s => { s with currentHead := some m }
  else pure ()

/-- `set_block_header`. -/
def setBlockHeader (m : BlockHeaderMessage) : Gen Unit :=
  Exec.modify fun s => { s with blockHeader := some m }

/-- `set_operation`. -/
def setOperation (m : OperationMessage) : Gen Unit :=
  Exec.modify fun s => { s with operation := some m }

/-- `set_protocol`. -/
def setProtocol (m : ProtocolMessage) : Gen Unit :=
  Exec.modify fun s => { s with protocol := some m }

/-- `set_operations_for_blocks`. -/
def setOperationsForBlocks (m : OperationsForBlocksMessage) : Gen Unit :=
  Exec.modify fun s => { s with operationsForBlocks := some m }

/-- What `handle_response` stores of a message.  A chain id that was decoded has its size. -/
def store : PeerMessage → Gen Unit
  | .getCurrentHead m | .getCurrentBranch m => do
      let chainId ← Exec.orAbort (TypedHash.tryFromBytes .chainId m.chainId)
      setChainId chainId
  | .currentBranch m => setCurrentBranch m
  | .currentHead m => do
      let chainId ← Exec.orAbort (TypedHash.tryFromBytes .chainId m.chainId)
      setChainId chainId
      setCurrentHead m
  | .blockHeader m => setBlockHeader m
  | .operation m => setOperation m
  | .protocol m => setProtocol m
  | .operationsForBlocks m => setOperationsForBlocks m
  | _ => pure ()

/-! ## Announcements -/

/-- What the two setters that read a fitness do.  They store the count and then the message, each
under a lock of its own, and the count is known before the first. -/
def absorb (fitness : List Bytes) (store : RandomState → RandomState) : Gen Unit :=
  if fitness.length > 1 then do
    let count ← countOfFitness fitness
    Exec.modify fun s => { s with fitnessCount := count }
    Exec.modify store
  else pure ()

theorem absorb_short {fitness : List Bytes} (store : RandomState → RandomState)
    (h : fitness.length ≤ 1) (s : RandomState) : absorb fitness store s = (.ok (), s) := by
  rw [absorb, if_neg (Nat.not_lt.mpr h)]
  rfl

theorem countOfFitness_element {fitness : List Bytes} {element : Bytes}
    (h : fitness[1]? = some element) (s : RandomState) : countOfFitness fitness s =
      if element.length = 8 then (.ok (ofBe element), s) else (.panic, s) := by
  have hread : (Exec.orAbort fitness[1]? : Gen Bytes) s = (.ok element, s) := by
    rw [h]
    rfl
  refine (Exec.bind_ok hread).trans ?_
  split <;> rfl

theorem absorb_element {fitness : List Bytes} {element : Bytes}
    (store : RandomState → RandomState) (h : fitness[1]? = some element) (s : RandomState) :
    absorb fitness store s =
      if element.length = 8 then (.ok (), store { s with fitnessCount := ofBe element })
      else (.panic, s) := by
  have hlen : fitness.length > 1 := (List.getElem?_eq_some_iff.mp h).choose
  have hcount := countOfFitness_element h s
  rw [absorb, if_pos hlen]
  split
  next height =>
    rw [if_pos height] at hcount
    exact Exec.bind_ok hcount
  next height =>
    rw [if_neg height] at hcount
    simp [bind, Exec.bind, hcount]

/-- A message that announces a branch or a head. -/
inductive Announcement where
  | branch (m : CurrentBranchMessage)
  | head (m : CurrentHeadMessage)

namespace Announcement

/-- The message. -/
def message : Announcement → PeerMessage
  | .branch m => .currentBranch m
  | .head m => .currentHead m

/-- The fitness of the head. -/
def fitness : Announcement → List Bytes
  | .branch m => m.currentBranch.currentHead.fitness
  | .head m => m.currentBlockHeader.fitness

/-- The setter. -/
def set : Announcement → Gen Unit
  | .branch m => setCurrentBranch m
  | .head m => setCurrentHead m

/-- The stored message of the same kind. -/
def slot : Announcement → RandomState → Option PeerMessage
  | .branch _, s => s.currentBranch.map .currentBranch
  | .head _, s => s.currentHead.map .currentHead

/-- The setter returns, and has updated the counter and the stored message from the message,
or neither. -/
def Atomic (m : Announcement) (s : RandomState) : Prop :=
  ∃ t, m.set s = (.ok (), t) ∧
    ((∃ element, m.fitness[1]? = some element ∧ t.fitnessCount = ofBe element ∧
        m.slot t = some m.message) ∨
      (t.fitnessCount = s.fitnessCount ∧ m.slot t = m.slot s))

theorem set_eq (m : Announcement) : ∃ store, m.set = absorb m.fitness store ∧
    ∀ s, (store s).fitnessCount = s.fitnessCount ∧ m.slot (store s) = some m.message := by
  cases m with
  | branch m => exact ⟨fun s => { s with currentBranch := some m }, rfl, fun _ => ⟨rfl, rfl⟩⟩
  | head m => exact ⟨fun s => { s with currentHead := some m }, rfl, fun _ => ⟨rfl, rfl⟩⟩

/-- The setters absorb a message as a whole exactly when the second element of its fitness,
if there is one, has the eight bytes of a count. -/
theorem atomic_iff (m : Announcement) (s : RandomState) :
    m.Atomic s ↔ ∀ element, m.fitness[1]? = some element → element.length = 8 := by
  obtain ⟨store, hset, hstore⟩ := m.set_eq
  rw [Atomic, hset]
  constructor
  · intro h element helement
    obtain ⟨t, hrun, _⟩ := h
    rw [absorb_element store helement] at hrun
    by_contra hne
    simp [hne] at hrun
  · intro h
    cases helement : m.fitness[1]? with
    | none =>
        have hshort := List.getElem?_eq_none_iff.mp helement
        exact ⟨s, absorb_short store hshort s, .inr ⟨rfl, rfl⟩⟩
    | some element =>
        have hrun := absorb_element store helement s
        rw [if_pos (h element helement)] at hrun
        obtain ⟨hcount, hslot⟩ := hstore { s with fitnessCount := ofBe element }
        exact ⟨_, hrun, .inl ⟨element, rfl, hcount, hslot⟩⟩

/-- A head whose fitness has two elements of one byte. -/
def shortFitness : Announcement :=
  .head ⟨List.replicate 4 0, ⟨0, 0, List.replicate 32 0, 0, 0, List.replicate 32 0, [[0], [0]],
    List.replicate 32 0, []⟩, ⟨[], []⟩⟩

/-- The decoder accepts a head whose fitness is too short to be counted. -/
theorem atomic_short_fitness : ¬ ∀ (m : Announcement) (s : RandomState),
    (∃ b, PeerMessageResponse.fromBytes b = .ok ⟨m.message⟩) → m.Atomic s := by
  intro h
  have hwritable : PeerMessage.Sendable shortFitness.message := by
    refine ⟨⟨.inr rfl, ⟨rfl, ?_, ?_, trivial⟩⟩, trivial⟩
    · exact BlockHeader.Fits.dynamic_writable ⟨rfl, rfl, rfl, by decide⟩
    · exact Mempool.writable_iff.mpr ⟨by simp, by simp, by decide⟩
  obtain ⟨b, hb⟩ := hwritable.asBytes
  have hatomic := h shortFitness (RandomState.new ⟨fun n => n⟩ 10 100)
    ⟨b, PeerMessageResponse.fromBytes_of_asBytes hwritable.hashes hb⟩
  exact absurd ((atomic_iff _ _).mp hatomic [0] rfl) (by simp)

end Announcement

/-! ## Replies -/

section

variable [Blake2b]

/-- The reply of `handle_response` to the request of one block. -/
def genOperationsReply (block : OperationsForBlock) : Gen PeerMessage := do
  let path ← genPath
  let operations ← genOperationList
  pure (.operationsForBlocks ⟨block, path, operations⟩)

/-- The replies of `handle_response` to a request of operations. -/
def replyOperations (m : GetOperationsForBlocksMessage) : Gen (List PeerMessage) :=
  Exec.mapEach genOperationsReply m.getOperationsForBlocks

end

/-! ## Runs -/

/-- What happens to a generator. -/
inductive Event where
  /-- A message is received, and stored. -/
  | receive (m : PeerMessage)
  /-- A message of a kind is pushed. -/
  | push (kind : MessageKind)
  /-- A request is replied to. -/
  | reply (m : GetOperationsForBlocksMessage)

namespace Event

/-- The decoder accepted the message of the event. -/
def Accepted : Event → Prop
  | .receive m => ∃ b, PeerMessageResponse.fromBytes b = .ok ⟨m⟩
  | .push _ => True
  | .reply m => ∃ b, PeerMessageResponse.fromBytes b = .ok ⟨.getOperationsForBlocks m⟩

/-- A message that is pushed is of a kind the state can push. -/
def CanPush : Event → RandomState → Prop
  | .push kind, s => s.Pushable kind
  | _, _ => True

variable [Blake2b]

/-- The state after an event. -/
def after : Event → RandomState → RandomState
  | .receive m, s => (store m s).2
  | .push kind, s => (kind.gen s).2
  | .reply m, s => (replyOperations m s).2

/-- The messages of the event are made without a panic, and can be sent. -/
def Sends : Event → RandomState → Prop
  | .receive _, _ => True
  | .push kind, s =>
      ∃ m t, kind.gen s = (.ok m, t) ∧ ∃ b, (PeerMessageResponse.mk m).asBytes = .ok b
  | .reply m, s => ∃ ms t, replyOperations m s = (.ok ms, t) ∧
      ∀ m ∈ ms, ∃ b, (PeerMessageResponse.mk m).asBytes = .ok b

end Event

/-- `P` holds at every event of a run. -/
def Along [Blake2b] (P : Event → RandomState → Prop) : List Event → RandomState → Prop
  | [], _ => True
  | e :: events, s => P e s ∧ Along P events (e.after s)

variable {s : RandomState}

/-! ## What a setter stores -/

theorem wp_countOfFitness (fitness : List Bytes) :
    Exec.wp (countOfFitness fitness) (fun _ t => t = s) (fun t => t = s) s := by
  rw [countOfFitness, Exec.wp_bind]
  refine Exec.wp_orAbort _ (fun element _ => ?_) fun _ => rfl
  split
  next => rfl
  next => rfl

theorem stored_setCurrentBranch {m : CurrentBranchMessage}
    (hm : CurrentBranchMessage.schema.Writable m.toVal) (stored : Stored s) :
    Exec.wp (setCurrentBranch m) (fun _ => Stored) Stored s := by
  rw [setCurrentBranch]
  split
  next =>
    rw [Exec.wp_bind]
    refine Exec.wp_mono (wp_countOfFitness _) (fun count t ht => ?_) fun t ht => ht ▸ stored
    subst ht
    rw [Exec.wp_bind, Exec.wp_modify, Exec.wp_modify]
    exact { stored with currentBranch := fun m' h => Option.some.inj h ▸ hm }
  next => exact stored

theorem stored_setCurrentHead {m : CurrentHeadMessage}
    (hm : CurrentHeadMessage.schema.Writable m.toVal) (stored : Stored s) :
    Exec.wp (setCurrentHead m) (fun _ => Stored) Stored s := by
  rw [setCurrentHead]
  split
  next =>
    rw [Exec.wp_bind]
    refine Exec.wp_mono (wp_countOfFitness _) (fun count t ht => ?_) fun t ht => ht ▸ stored
    subst ht
    rw [Exec.wp_bind, Exec.wp_modify, Exec.wp_modify]
    exact { stored with currentHead := fun m' h => Option.some.inj h ▸ hm }
  next => exact stored

theorem stored_setChainId (chainId : TypedHash .chainId) (stored : Stored s) :
    Stored { s with chainId := chainId } := stored.of_received rfl

/-- A message that can be sent on is stored. -/
theorem stored_store {m : PeerMessage} (hm : m.Sendable) (stored : Stored s) :
    Stored (store m s).2 := by
  have hstate : Exec.wp (store m) (fun _ => Stored) Stored s := by
    cases m with
    | getCurrentHead m | getCurrentBranch m =>
        rw [store, Exec.wp_bind]
        refine Exec.wp_orAbort _ (fun chainId _ => ?_) fun _ => stored
        exact stored_setChainId chainId stored
    | currentBranch m => exact stored_setCurrentBranch hm.writable.2 stored
    | currentHead m =>
        rw [store, Exec.wp_bind]
        refine Exec.wp_orAbort _ (fun chainId _ => ?_) fun _ => stored
        rw [Exec.wp_bind, setChainId, Exec.wp_modify]
        exact stored_setCurrentHead hm.writable.2 (stored_setChainId chainId stored)
    | blockHeader m => exact { stored with blockHeader := fun m' h => Option.some.inj h ▸ hm.writable.2 }
    | operation m => exact { stored with operation := fun m' h => Option.some.inj h ▸ hm.writable.2 }
    | protocol m => exact { stored with currentBranch := stored.currentBranch }
    | operationsForBlocks m =>
        have hfits := OperationsForBlocksMessage.writable_iff.mp hm.writable.2
        exact { stored with
          operationsForBlocks := fun m' h => Option.some.inj h ▸ ⟨hfits, hm.hashes⟩ }
    | _ => exact stored
  exact Exec.wp_state hstate

/-! ## What a run sends -/

section

variable [Blake2b]

theorem gives_replyOperations {m : GetOperationsForBlocksMessage} (stored : Stored s)
    (hm : (PeerMessage.getOperationsForBlocks m).Sendable) :
    Gives (replyOperations m) (fun ms => ∀ r ∈ ms, r.Sendable) s := by
  have hblocks : ∀ block ∈ m.getOperationsForBlocks, block.hash.length = HashType.blockHash.size := by
    intro block hblock
    exact (hm.writable.2.1.1.2 _ (List.mem_map_of_mem hblock)).1
  have hreply : ∀ block ∈ m.getOperationsForBlocks, ∀ t, Keeps s t →
      Gives (genOperationsReply block) PeerMessage.Sendable t := by
    intro block hblock t ht
    refine gives_genPath.bind fun path u hpath hu => ?_
    have stored' := stored.of_received (ht.trans hu).received
    refine (gives_genOperationList stored').bind fun operations _ hoperations _ => gives_pure ?_
    refine ⟨⟨.inr rfl, OperationsForBlocksMessage.writable_iff.mpr ?_⟩, hpath.2⟩
    exact ⟨hblocks block hblock, fun max hmax => Option.some.inj hmax ▸ hpath.1, hoperations.1,
      hoperations.2⟩
  refine (gives_mapEach hreply).mono fun ms hms r hr => ?_
  obtain ⟨_, _, h⟩ := exists_mem_of_forall₂ hms.flip hr
  exact h

/-- The state after an event, and what was sent. -/
theorem Event.sends {e : Event} (stored : Stored s) (accepted : e.Accepted) (h : e.CanPush s) :
    e.Sends s ∧ Stored (e.after s) := by
  cases e with
  | receive m =>
      obtain ⟨b, hb⟩ := accepted
      exact ⟨trivial, stored_store (PeerMessage.sendable_of_fromBytes hb) stored⟩
  | push kind =>
      obtain ⟨m, t, hgen, hbytes, ht⟩ := gen_of_pushable stored h
      refine ⟨⟨m, t, hgen, hbytes⟩, ?_⟩
      rw [after, hgen]
      exact stored.of_received ht
  | reply m =>
      obtain ⟨b, hb⟩ := accepted
      obtain ⟨ms, t, hgen, hms, ht⟩ :=
        (gives_replyOperations stored (PeerMessage.sendable_of_fromBytes hb)).returns
      refine ⟨⟨ms, t, hgen, fun r hr => (hms r hr).asBytes⟩, ?_⟩
      rw [after, hgen]
      exact stored.of_received ht.received

theorem Along.sends {events : List Event} (stored : Stored s) (accepted : ∀ e ∈ events, e.Accepted)
    (h : Along Event.CanPush events s) : Along Event.Sends events s := by
  induction events generalizing s with
  | nil => trivial
  | cons e events ih =>
      obtain ⟨hsends, stored'⟩ := Event.sends stored (accepted e List.mem_cons_self) h.1
      exact ⟨hsends, ih stored' (fun e he => accepted e (List.mem_cons_of_mem _ he)) h.2⟩

/-- In every run in which only messages are pushed that the state can push, every message is
made without a panic, and can be sent. -/
theorem run_sends (rng : Rng) (blocksLimit maxChunkSize : Nat) {events : List Event}
    (accepted : ∀ e ∈ events, e.Accepted)
    (h : Along Event.CanPush events (new rng blocksLimit maxChunkSize)) :
    Along Event.Sends events (new rng blocksLimit maxChunkSize) :=
  Along.sends (Fresh.stored rfl) accepted h

end

/-- No message of the runs below is hashed. -/
local instance receivedDigest : Blake2b := unusedDigest

theorem accepted_of_sendable {m : PeerMessage} (h : m.Sendable) :
    ∃ b, PeerMessageResponse.fromBytes b = .ok ⟨m⟩ := by
  obtain ⟨b, hb⟩ := h.asBytes
  exact ⟨b, PeerMessageResponse.fromBytes_of_asBytes h.hashes hb⟩

/-- A protocol of one small component. -/
def smallProtocol : ProtocolMessage := ⟨⟨0, [⟨"a", none, "b"⟩]⟩⟩

theorem smallProtocol_accepted :
    ∀ e ∈ [Event.receive (.protocol smallProtocol), .push .protocol], e.Accepted := by
  intro e he
  simp only [List.mem_cons, List.not_mem_nil, or_false] at he
  obtain rfl | rfl := he
  · exact accepted_of_sendable ⟨⟨.inr rfl, Protocol.writable_iff.mpr (by decide), trivial⟩, trivial⟩
  · trivial

theorem smallProtocol_canPush (s : RandomState) :
    Along Event.CanPush [.receive (.protocol smallProtocol), .push .protocol] s := by
  have hsize : (smallProtocol.protocol.components.map maxComponentSize).sum ≤
      PROTOCOL_COMPONENT_MAX_SIZE := by decide
  exact ⟨trivial, fun m hm => Option.some.inj hm ▸ hsize, trivial⟩

/-- A protocol is received, mutated and pushed. -/
theorem run_sends_protocol : Along Event.Sends
    [.receive (.protocol smallProtocol), .push .protocol] (new ⟨fun n => n⟩ 10 100) :=
  run_sends _ _ _ smallProtocol_accepted (smallProtocol_canPush _)

/-- A block header at the last level. -/
def lastLevel : BlockHeaderMessage :=
  ⟨⟨2147483647, 0, List.replicate 32 0, 0, 0, List.replicate 32 0, [[0, 1]], List.replicate 32 0, []⟩⟩

/-- A block header at the last level is received; the mutator counts its level on. -/
theorem lastLevel_overflows : (Event.receive (.blockHeader lastLevel)).Accepted ∧
    ¬ Along Event.Sends
      [.receive (.blockHeader lastLevel), .push .blockHeader] (new ⟨fun _ => 1⟩ 10 100) := by
  have hpanic : (MessageKind.gen .blockHeader
      ((Event.receive (.blockHeader lastLevel)).after (new ⟨fun _ => 1⟩ 10 100))).1.isOk = false := by
    decide +kernel
  refine ⟨accepted_of_sendable ⟨⟨.inr rfl, BlockHeader.writable_iff.mpr ?_, trivial⟩, trivial⟩, ?_⟩
  · exact ⟨rfl, rfl, rfl, by decide⟩
  · intro h
    obtain ⟨m, t, hgen, _⟩ := h.2.1
    have hok := congrArg (fun r => r.1.isOk) hgen
    exact Bool.noConfusion (hpanic.symm.trans hok)

end RandomState

end NodeFuzzer
