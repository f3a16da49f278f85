import NodeFuzzer.P2pFuzzer.Speaking

/-!
# Peer messages

Once a connection is made the fuzzer goes round and round: `handle_response` reads a message and
may reply to it, and `fuzz_peer_messages` pushes a burst of messages of the configured kinds, some
of them in each write.

Every run of the loop is a sequence of rounds (`fuzzLoop_rounds`).
-/

namespace NodeFuzzer

open RandomState (OnlyGives)

variable {Key : Type} [CryptoBox Key]

/-! ## Options -/

/-- `PeerMessageReplyOptions`. -/
structure PeerMessageReplyOptions where
  bootstrap : Chance
  getCurrentHead : Chance
  getCurrentBranch : Chance
  getBlockHeaders : Chance
  getOperationsForBlocks : Chance

/-- `PeerMessageOptions`. -/
structure PeerMessageOptions where
  chunkOptions : ChunkOptions
  messagesPerChunk : Nat
  pushMessages : List String
  maxPushThroughput : Nat
  replyOptions : Option PeerMessageReplyOptions

namespace Sender

variable [Blake2b]

/-! ## Pushing -/

/-- The bytes of a message of `fuzz_peer_messages`: one of the names is drawn. -/
def genPushed (pushMessages : List String) : Gen Bytes := do
  let index ← RandomState.genRange 0 pushMessages.length
  let name ← Exec.orAbort pushMessages[index]?
  let kind ← Exec.orAbort (MessageKind.ofName name)
  let msg ← kind.gen
  Exec.unwrap (PeerMessageResponse.mk msg).asBytes

/-- The loop of `fuzz_peer_messages`, with at most `fuel` passes. -/
def pushBatches (options : PeerMessageOptions) (key : Key) : Nat → Nat → Exec Sender WriteError Unit
  | 0, _ => Exec.abort
  | fuel + 1, remaining =>
      if options.messagesPerChunk > remaining then pure ()
      else do
        let msgBatch ← draws
          (RandomState.collect options.messagesPerChunk (genPushed options.pushMessages))
        writeBytesEncrypted options.chunkOptions msgBatch.flatten key
        pushBatches options key fuel (remaining - options.messagesPerChunk)

/-- The number of messages in a burst; `max_push_throughput + 1` may overflow. -/
def genThroughput (maxPushThroughput : Nat) : Gen Nat := do
  let stop ← Exec.orAbort
    (if maxPushThroughput + 1 < 2 ^ 64 then some (maxPushThroughput + 1) else none)
  RandomState.genRange 1 stop

/-- `fuzz_peer_messages`.  With no messages in a batch it does not return, as the loop makes more
passes than there are messages. -/
def fuzzPeerMessages (options : PeerMessageOptions) (key : Key) : Exec Sender WriteError Unit := do
  let remaining ← draws (genThroughput options.maxPushThroughput)
  pushBatches options key (remaining + 1) remaining

/-! ## Replying -/

/-- Reply with one message that is made up. -/
def replyWith (options : ChunkOptions) (key : Key) (chance : Chance) (gen : Gen PeerMessage) :
    Exec Sender WriteError Unit := do
  let reply ← draws chance.toss
  if reply then do
    let msg ← draws gen
    writePeerMessage options key msg
  else pure ()

/-- Reply with a message for each of some elements, if there is one. -/
def replyEach {α : Type} (options : ChunkOptions) (key : Key) (chance : Chance)
    (gen : α → Gen (Option PeerMessage)) (l : List α) : Exec Sender WriteError Unit := do
  let reply ← draws chance.toss
  if reply then
    Exec.forEach (fun a => do
      let msg ← draws (gen a)
      match msg with
      | some msg => writePeerMessage options key msg
      | none => pure ()) l
  else pure ()

/-- The part of `handle_response` behind the setters: a request is replied to. -/
def respond (options : ChunkOptions) (replyOptions : PeerMessageReplyOptions) (key : Key) :
    PeerMessage → Exec Sender WriteError Unit
  | .bootstrap => replyWith options key replyOptions.bootstrap
      (PeerMessage.advertise <$> RandomState.genAdvertiseMessage)
  | .getCurrentHead _ => replyWith options key replyOptions.getCurrentHead
      (PeerMessage.currentHead <$> RandomState.genCurrentHeadMessage)
  | .getCurrentBranch _ => replyWith options key replyOptions.getCurrentBranch
      (PeerMessage.currentBranch <$> RandomState.genCurrentBranchMessage)
  | .getBlockHeaders bh => replyEach options key replyOptions.getBlockHeaders
      (fun blockHash => Exec.gets fun s => (s.getBlock blockHash).map .blockHeader) bh.hashes
  | .getOperationsForBlocks ops => replyEach options key replyOptions.getOperationsForBlocks
      (fun block => some <$> RandomState.genOperationsReply block) ops.getOperationsForBlocks
  | _ => pure ()

/-- `handle_response`, once a message was read. -/
def handle (options : ChunkOptions) (replyOptions : PeerMessageReplyOptions) (key : Key)
    (m : PeerMessage) : Exec Sender WriteError Unit := do
  draws (RandomState.store m)
  respond options replyOptions key m

end Sender

/-! ## The loop -/

namespace Fuzzer

variable [Blake2b]

/-- `handle_response`, with the bounds of `readMsg`. -/
def handleResponse (options : PeerMessageOptions) (key : Key) (passes fuel : Nat) :
    Exec Fuzzer FuzzError Unit :=
  match options.replyOptions with
  | none => pure ()
  | some replyOptions => do
      let m ← reads (Receiver.readMsg PeerMessageResponse.fromBytes key true passes fuel)
      writes (Sender.handle options.chunkOptions replyOptions key m.message)

/-- The first passes of the loop of `fuzz`, which has no end. -/
def fuzzLoop (options : PeerMessageOptions) (key : Key) (passes fuel : Nat) :
    Nat → Exec Fuzzer FuzzError Unit
  | 0 => pure ()
  | n + 1 => do
      handleResponse options key passes fuel
      writes (Sender.fuzzPeerMessages options key)
      fuzzLoop options key passes fuel n

end Fuzzer

/-! ## What is pushed -/

namespace Sender

/-- The bytes of some messages, one after the other. -/
def Encoded (ms : List PeerMessage) (bytes : Bytes) : Prop :=
  ∃ parts, List.Forall₂ (fun m part => (PeerMessageResponse.mk m).asBytes = .ok part) ms parts ∧
    bytes = parts.flatten


end Sender

/-- The kind of a message. -/
def PeerMessage.kind : PeerMessage → MessageKind
  | .disconnect => .disconnect
  | .advertise _ => .advertise
  | .swapRequest _ => .swapRequest
  | .swapAck _ => .swapAck
  | .bootstrap => .bootstrap
  | .getCurrentBranch _ => .getCurrentBranch
  | .currentBranch _ => .currentBranch
  | .deactivate _ => .deactivate
  | .getCurrentHead _ => .getCurrentHead
  | .currentHead _ => .currentHead
  | .getBlockHeaders _ => .getBlockHeaders
  | .blockHeader _ => .blockHeader
  | .getOperations _ => .getOperations
  | .operation _ => .operation
  | .getProtocols _ => .getProtocols
  | .protocol _ => .protocol
  | .getOperationsForBlocks _ => .getOperationsForBlocks
  | .operationsForBlocks _ => .operationsForBlocks

namespace Sender

variable [Blake2b] {options : PeerMessageOptions} {key : Key}

/-- A message that is made is of the kind it was made for. -/
theorem onlyGives_gen (kind : MessageKind) : OnlyGives kind.gen fun m => m.kind = kind := by
  cases kind with
  | disconnect => exact .pure rfl
  | bootstrap => exact .pure rfl
  | _ =>
      rw [MessageKind.gen]
      apply OnlyGives.map
      intro a
      rfl

/-- A message whose kind has one of the names. -/
def Named (pushMessages : List String) (m : PeerMessage) : Prop :=
  ∃ name ∈ pushMessages, MessageKind.ofName name = some m.kind

theorem onlyGives_genPushed (pushMessages : List String) : OnlyGives (genPushed pushMessages)
    fun part => ∃ m, Named pushMessages m ∧ (PeerMessageResponse.mk m).asBytes = .ok part := by
  refine OnlyGives.anyBind fun index => ?_
  refine (OnlyGives.orAbort (P := (· ∈ pushMessages)) ?_).bind fun name mem => ?_
  · exact fun name hname => List.mem_of_getElem? hname
  refine (OnlyGives.orAbort fun kind hkind => hkind).bind fun kind hkind => ?_
  refine (onlyGives_gen kind).bind fun m same => OnlyGives.unwrap fun part hb => ?_
  exact ⟨m, ⟨name, mem, same ▸ hkind⟩, hb⟩

theorem caches_genPushed (pushMessages : List String) :
    Exec.Steps RandomState.Caches (genPushed pushMessages) :=
  (RandomState.caches_genRange _ _).bind fun _ => (Exec.steps_orAbort _).bind fun _ =>
    (Exec.steps_orAbort _).bind fun kind => (RandomState.caches_gen kind).bind fun _ =>
    RandomState.steps_unwrap _

/-- So many messages of the names. -/
def Batch (options : PeerMessageOptions) (ms : List PeerMessage) : Prop :=
  ms.length = options.messagesPerChunk ∧ ∀ m ∈ ms, Named options.pushMessages m

omit [Blake2b] in
theorem exists_encoded {P : PeerMessage → Prop} {parts : List Bytes}
    (h : ∀ part ∈ parts, ∃ m, P m ∧ (PeerMessageResponse.mk m).asBytes = .ok part) :
    ∃ ms, ms.length = parts.length ∧ (∀ m ∈ ms, P m) ∧ Encoded ms parts.flatten := by
  induction parts with
  | nil => exact ⟨[], rfl, by simp, [], .nil, rfl⟩
  | cons part parts ih =>
      obtain ⟨m, hm, hb⟩ := h part List.mem_cons_self
      obtain ⟨ms, hlen, hms, parts', hparts, hflatten⟩ :=
        ih fun part mem => h part (List.mem_cons_of_mem _ mem)
      refine ⟨m :: ms, by simp [hlen], ?_, part :: parts', .cons hb hparts, by simp [hflatten]⟩
      intro m' mem
      obtain rfl | mem := List.mem_cons.mp mem
      · exact hm
      · exact hms m' mem

theorem onlyGives_batch :
    OnlyGives (RandomState.collect options.messagesPerChunk (genPushed options.pushMessages))
      fun parts => ∃ ms, Batch options ms ∧ Encoded ms parts.flatten := by
  refine (OnlyGives.collect _ (onlyGives_genPushed _)).mono fun parts h => ?_
  obtain ⟨ms, hlen, hms, encoded⟩ := exists_encoded h.2
  exact ⟨ms, ⟨hlen.trans h.1, hms⟩, encoded⟩

/-- As many batches as there is room for in `remaining` messages. -/
theorem speaks_pushBatches (correct : CryptoBox.Correct Key) (fuel remaining : Nat)
    {F : List (List PeerMessage) → Prop}
    (begins : ∀ batches, batches.length * options.messagesPerChunk ≤ remaining →
      (∀ ms ∈ batches, Batch options ms) → F batches) :
    Speaks Encoded id options.chunkOptions key (pushBatches options key fuel remaining)
      (fun _ batches => 0 < options.messagesPerChunk ∧
        batches.length = remaining / options.messagesPerChunk ∧
        ∀ ms ∈ batches, Batch options ms) F := by
  induction fuel generalizing remaining F with
  | zero => exact Speaks.abort
  | succ fuel ih =>
      rw [pushBatches]
      split
      next few =>
        exact Speaks.nothing ⟨Nat.zero_lt_of_lt few, (Nat.div_eq_of_lt few).symm, by simp⟩
      next enough =>
        refine (Speaks.gives (RandomState.caches_collect _ (caches_genPushed _))
          onlyGives_batch).silentBind fun parts made => ?_
        obtain ⟨ms, batch, encoded⟩ := made
        have first : F [ms] := begins [ms] (by simpa using enough) (by simpa using batch)
        refine (Speaks.write correct encoded first).bind fun _ batches written => ?_
        subst written
        refine (ih _ fun batches small all => ?_).mono fun _ batches rest => ?_
        · refine begins ([ms] ++ batches) ?_ (by simpa using ⟨batch, all⟩)
          rw [List.singleton_append, List.length_cons, Nat.succ_mul]
          omega
        · obtain ⟨pos, hlen, hall⟩ := rest
          refine ⟨pos, ?_, ?_⟩
          · rw [Nat.div_eq, if_pos ⟨pos, Nat.not_lt.mp enough⟩]
            simp [hlen]
          · simpa using ⟨batch, hall⟩

/-- What a burst is: up to the maximum of messages, less those that do not fill a batch. -/
structure Pushes (options : PeerMessageOptions) (batches : List (List PeerMessage)) : Prop where
  size : ∃ throughput, 1 ≤ throughput ∧ throughput ≤ options.maxPushThroughput ∧
    batches.length = throughput / options.messagesPerChunk
  batch : ∀ ms ∈ batches, Batch options ms
  pos : 0 < options.messagesPerChunk

/-- What a burst that failed had begun with. -/
structure Pushing (options : PeerMessageOptions) (batches : List (List PeerMessage)) : Prop where
  size : batches.length * options.messagesPerChunk ≤ options.maxPushThroughput
  batch : ∀ ms ∈ batches, Batch options ms

theorem caches_genThroughput (max : Nat) : Exec.Steps RandomState.Caches (genThroughput max) :=
  (Exec.steps_orAbort _).bind fun _ => RandomState.caches_genRange _ _

omit [Blake2b] in
theorem onlyGives_genThroughput (max : Nat) :
    OnlyGives (genThroughput max) fun n => 1 ≤ n ∧ n ≤ max := by
  refine (OnlyGives.orAbort (P := (· = max + 1)) fun stop hstop => ?_).bind fun stop hstop => ?_
  · split at hstop
    next => exact (Option.some.inj hstop).symm
    next => cases hstop
  · subst hstop
    exact (OnlyGives.genRange 1 _).mono fun n h => ⟨h.1, Nat.le_of_lt_succ h.2⟩

theorem speaks_fuzzPeerMessages (correct : CryptoBox.Correct Key) :
    Speaks Encoded id options.chunkOptions key (fuzzPeerMessages options key)
      (fun _ => Pushes options) (Pushing options) := by
  refine (Speaks.gives (caches_genThroughput _) (onlyGives_genThroughput _)).silentBind
    fun throughput bounds => ?_
  refine (speaks_pushBatches correct _ _ fun batches small all => ?_).mono fun _ batches h => ?_
  · exact ⟨small.trans bounds.2, all⟩
  · obtain ⟨pos, hlen, hall⟩ := h
    exact ⟨⟨throughput, bounds.1, bounds.2, hlen⟩, hall, pos⟩

/-! ## What is replied -/

end Sender

/-- The chance of a reply to a message; nothing when it is only stored. -/
def PeerMessageReplyOptions.chance (options : PeerMessageReplyOptions) : PeerMessage → Option Chance
  | .bootstrap => some options.bootstrap
  | .getCurrentHead _ => some options.getCurrentHead
  | .getCurrentBranch _ => some options.getCurrentBranch
  | .getBlockHeaders _ => some options.getBlockHeaders
  | .getOperationsForBlocks _ => some options.getOperationsForBlocks
  | _ => none

/-- A block has the hash. -/
def HasHash [Blake2b] (hash : Bytes) (block : BlockHeaderMessage) : Prop :=
  ∃ known : TypedHash .blockHash,
    Clone.blockHash block.blockHeader = some known ∧ known.val = hash

/-- What a message that was asked for may be. -/
inductive Replies [Blake2b] : PeerMessage → List PeerMessage → Prop
  | bootstrap {r : AdvertiseMessage} : Replies .bootstrap [.advertise r]
  | getCurrentHead {m : ChainIdMessage} {r : CurrentHeadMessage} :
      Replies (.getCurrentHead m) [.currentHead r]
  | getCurrentBranch {m : ChainIdMessage} {r : CurrentBranchMessage} :
      Replies (.getCurrentBranch m) [.currentBranch r]
  /-- Some of the blocks, in the order in which they were asked for. -/
  | getBlockHeaders {m : HashesMessage} {asked : List Bytes} {blocks : List BlockHeaderMessage} :
      asked.Sublist m.hashes → List.Forall₂ HasHash asked blocks →
      Replies (.getBlockHeaders m) (blocks.map .blockHeader)
  /-- The operations of every block, in order. -/
  | getOperationsForBlocks {m : GetOperationsForBlocksMessage}
      {answers : List OperationsForBlocksMessage} :
      answers.map OperationsForBlocksMessage.operationsForBlock = m.getOperationsForBlocks →
      Replies (.getOperationsForBlocks m) (answers.map .operationsForBlocks)

/-- The replies to a message: none, or those that were asked for, as the options allow. -/
def Answers [Blake2b] (options : PeerMessageReplyOptions) (m : PeerMessage)
    (replies : List PeerMessage) : Prop :=
  match options.chance m with
  | none => replies = []
  | some chance => (chance.Allows false ∧ replies = []) ∨ (chance.Allows true ∧ Replies m replies)

/-- Replies to a message, perhaps not all of them. -/
def Answering [Blake2b] (options : PeerMessageReplyOptions) (m : PeerMessage)
    (replies : List PeerMessage) : Prop :=
  replies = [] ∨ ∃ more, Answers options m (replies ++ more)

namespace Sender

variable [Blake2b] {options : ChunkOptions} {key : Key} {F : List (List PeerMessage) → Prop}

/-- A message is written in a batch of its own. -/
theorem speaks_message (correct : CryptoBox.Correct Key) (m : PeerMessage) (said : F [[m]]) :
    Speaks Encoded id options key (writePeerMessage options key m)
      (fun _ batches => batches = [[m]]) F :=
  Speaks.message correct (fun bytes hb => ⟨[bytes], .cons hb .nil, List.flatten_singleton.symm⟩)
    said

/-- A toss, and what is said when it allows a reply. -/
theorem speaks_tossed {chance : Chance} {x : Exec Sender WriteError Unit}
    {P : List (List PeerMessage) → Prop}
    (h : chance.Allows true → Speaks Encoded id options key x (fun _ => P) F) :
    Speaks Encoded id options key (do
      let reply ← draws chance.toss
      if reply then x else pure ()) (fun _ batches =>
        (chance.Allows false ∧ batches = []) ∨ (chance.Allows true ∧ P batches)) F := by
  refine (speaks_toss chance).silentBind fun reply allows => ?_
  cases reply with
  | false => exact Speaks.nothing (.inl ⟨allows, rfl⟩)
  | true => exact (h allows).mono fun _ batches said => .inr ⟨allows, said⟩

theorem speaks_replyWith (correct : CryptoBox.Correct Key)
    {chance : Chance} {gen : Gen PeerMessage} {P : PeerMessage → Prop}
    (caches : Exec.Steps RandomState.Caches gen) (h : OnlyGives gen P)
    (begins : chance.Allows true → ∀ m, P m → F [[m]]) :
    Speaks Encoded id options key (replyWith options key chance gen) (fun _ batches =>
      (chance.Allows false ∧ batches = []) ∨
        (chance.Allows true ∧ ∃ m, P m ∧ batches = [[m]])) F := by
  refine speaks_tossed fun allows => (Speaks.gives caches h).silentBind fun m made => ?_
  exact (speaks_message correct m (begins allows m made)).mono fun _ batches written =>
    ⟨m, made, written⟩

omit [Blake2b] in
/-- The messages that some passes of a loop were given. -/
theorem made_of_parts {α : Type} {R : α → Option PeerMessage → Prop} {l : List α}
    {parts : List (List (List PeerMessage))}
    (h : List.Forall₂ (fun a batches => ∃ m, R a m ∧ batches = m.toList.map ([·])) l parts) :
    ∃ made, List.Forall₂ R l made ∧ parts.flatten = (made.filterMap id).map ([·]) := by
  induction h with
  | nil => exact ⟨[], .nil, rfl⟩
  | cons here _ ih =>
      obtain ⟨m, made, rfl⟩ := here
      obtain ⟨rest, hrest, heq⟩ := ih
      refine ⟨m :: rest, .cons made hrest, ?_⟩
      rw [List.flatten_cons, heq]
      cases m <;> simp

theorem speaks_replyEach {α : Type} (correct : CryptoBox.Correct Key) {chance : Chance}
    {gen : α → Gen (Option PeerMessage)} {l : List α} {R : α → Option PeerMessage → Prop}
    (caches : ∀ a, Exec.Steps RandomState.Caches (gen a))
    (h : ∀ a g, g.Authentic → Exec.wp (gen a) (fun m _ => R a m) (fun _ => True) g)
    (begins : chance.Allows true → ∀ done rest made, l = done ++ rest → List.Forall₂ R done made →
      F ((made.filterMap id).map ([·]))) :
    Speaks Encoded id options key (replyEach options key chance gen l) (fun _ batches =>
      (chance.Allows false ∧ batches = []) ∨ (chance.Allows true ∧
        ∃ made, List.Forall₂ R l made ∧ batches = (made.filterMap id).map ([·]))) F := by
  refine speaks_tossed fun allows => (Speaks.each (R := fun a batches => ∃ m, R a m ∧
    batches = m.toList.map ([·])) (fun done rest parts split hparts => ?_)
    fun a _ G le => ?_).mono fun _ batches said => ?_
  · obtain ⟨made, hmade, heq⟩ := made_of_parts hparts
    rw [heq]
    exact begins allows done rest made split hmade
  · refine (Speaks.draws (caches a) (h a)).silentBind fun m made => ?_
    cases m with
    | none => exact Speaks.nothing ⟨none, made, rfl⟩
    | some m =>
        have said : G [[m]] := le _ ⟨some m, made, rfl⟩
        exact (speaks_message correct m said).mono fun _ batches written => ⟨some m, made, written⟩
  · obtain ⟨parts, hparts, rfl⟩ := said
    exact made_of_parts hparts

/-- A reply to the request of a block. -/
def Found (hash : Bytes) (reply : Option PeerMessage) : Prop :=
  ∀ m, reply = some m → ∃ block, m = .blockHeader block ∧ HasHash hash block

/-- A reply to the request of operations. -/
def Reported (block : OperationsForBlock) (reply : Option PeerMessage) : Prop :=
  ∃ answer : OperationsForBlocksMessage,
    reply = some (.operationsForBlocks answer) ∧ answer.operationsForBlock = block

/-- The blocks that were found, and what they were asked for by. -/
theorem found_blocks {hashes : List Bytes} {made : List (Option PeerMessage)}
    (h : List.Forall₂ Found hashes made) :
    ∃ (asked : List Bytes) (blocks : List BlockHeaderMessage), asked.Sublist hashes ∧
      made.filterMap id = blocks.map .blockHeader ∧ List.Forall₂ HasHash asked blocks := by
  induction h with
  | nil => exact ⟨[], [], .slnil, rfl, .nil⟩
  | @cons hash reply hashes made here _ ih =>
      obtain ⟨asked, blocks, sub, heq, all⟩ := ih
      cases reply with
      | none => exact ⟨asked, blocks, sub.cons _, by simpa using heq, all⟩
      | some m =>
          obtain ⟨block, rfl, same⟩ := here m rfl
          exact ⟨hash :: asked, block :: blocks, sub.cons_cons _, by simpa using heq,
            .cons same all⟩

omit [Blake2b] in
theorem made_answers {blocks : List OperationsForBlock} {made : List (Option PeerMessage)}
    (h : List.Forall₂ Reported blocks made) :
    ∃ answers : List OperationsForBlocksMessage,
      made.filterMap id = answers.map .operationsForBlocks ∧
      answers.map OperationsForBlocksMessage.operationsForBlock = blocks := by
  induction h with
  | nil => exact ⟨[], rfl, rfl⟩
  | cons here _ ih =>
      obtain ⟨answer, rfl, rfl⟩ := here
      obtain ⟨answers, heq, rfl⟩ := ih
      exact ⟨answer :: answers, by simpa using heq, rfl⟩

/-- The operations that were reported before a failure, and some for the blocks that are left. -/
theorem reported_answering {replyOptions : PeerMessageReplyOptions}
    {m : GetOperationsForBlocksMessage} {done rest : List OperationsForBlock}
    {made : List (Option PeerMessage)} (allows : replyOptions.getOperationsForBlocks.Allows true)
    (split : m.getOperationsForBlocks = done ++ rest) (h : List.Forall₂ Reported done made) :
    Answering replyOptions (.getOperationsForBlocks m) (made.filterMap id) := by
  obtain ⟨answers, heq, blocks⟩ := made_answers h
  let others : List OperationsForBlocksMessage := rest.map fun block => ⟨block, [], []⟩
  have all : (answers ++ others).map OperationsForBlocksMessage.operationsForBlock =
      m.getOperationsForBlocks := by
    rw [List.map_append, blocks, split, List.map_map]
    exact congrArg (done ++ ·) (List.map_id rest)
  refine .inr ⟨others.map .operationsForBlocks, .inr ⟨allows, ?_⟩⟩
  rw [heq, ← List.map_append]
  exact .getOperationsForBlocks all

/-- The replies of `handle_response` are those that were asked for. -/
theorem speaks_respond (correct : CryptoBox.Correct Key)
    (replyOptions : PeerMessageReplyOptions) (m : PeerMessage) :
    Speaks Encoded id options key (respond options replyOptions key m)
      (fun _ batches => ∃ replies, Answers replyOptions m replies ∧ batches = replies.map ([·]))
      fun batches => ∃ replies, Answering replyOptions m replies ∧
        batches = replies.map ([·]) := by
  have once : ∀ {chance : Chance} {T : Type} {gen : Gen T} {f : T → PeerMessage},
      Exec.Steps RandomState.Caches gen → replyOptions.chance m = some chance →
      (∀ r, Replies m [f r]) →
      Speaks Encoded id options key (replyWith options key chance (f <$> gen))
        (fun _ batches => ∃ replies, Answers replyOptions m replies ∧ batches = replies.map ([·]))
        fun batches => ∃ replies, Answering replyOptions m replies ∧
          batches = replies.map ([·]) := by
    intro chance T gen f caches hchance replies
    have made : OnlyGives (f <$> gen) fun m => ∃ r, m = f r := .map fun r => ⟨r, rfl⟩
    have one : chance.Allows true → ∀ r, Answers replyOptions m [f r] := by
      intro allows r
      unfold Answers
      rw [hchance]
      exact .inr ⟨allows, replies r⟩
    refine (speaks_replyWith correct (RandomState.caches_map f caches) made ?_).mono ?_
    · intro allows _ hmade
      obtain ⟨r, rfl⟩ := hmade
      exact ⟨[f r], .inr ⟨[], one allows r⟩, rfl⟩
    · intro _ batches said
      obtain ⟨allows, rfl⟩ | ⟨allows, _, ⟨r, rfl⟩, rfl⟩ := said
      · refine ⟨[], ?_, rfl⟩
        unfold Answers
        rw [hchance]
        exact .inl ⟨allows, rfl⟩
      · exact ⟨[f r], one allows r, rfl⟩
  cases m with
  | bootstrap =>
      exact once RandomState.caches_genAdvertiseMessage rfl fun _ => .bootstrap
  | getCurrentHead m =>
      exact once RandomState.caches_genCurrentHeadMessage rfl fun _ => .getCurrentHead
  | getCurrentBranch m =>
      exact once RandomState.caches_genCurrentBranchMessage rfl fun _ => .getCurrentBranch
  | getBlockHeaders m =>
      have replies : ∀ done rest made, m.hashes = done ++ rest → List.Forall₂ Found done made →
          Replies (.getBlockHeaders m) (made.filterMap id) := by
        intro done rest made split hmade
        obtain ⟨asked, blocks, sub, heq, hashes⟩ := found_blocks hmade
        rw [heq]
        refine .getBlockHeaders (sub.trans ?_) hashes
        rw [split]
        exact List.sublist_append_left done rest
      refine (speaks_replyEach (R := Found) correct (fun _ => Exec.steps_gets _) ?_ ?_).mono ?_
      · intro hash g authentic
        rw [Exec.wp_gets]
        intro m hm
        obtain ⟨block, found, rfl⟩ := Option.map_eq_some_iff.mp hm
        exact ⟨block, rfl, authentic.getBlock found⟩
      · intro allows done rest made split hmade
        refine ⟨made.filterMap id, .inr ⟨[], .inr ⟨allows, ?_⟩⟩, rfl⟩
        rw [List.append_nil]
        exact replies done rest made split hmade
      · intro _ batches said
        obtain ⟨allows, rfl⟩ | ⟨allows, made, hmade, rfl⟩ := said
        · exact ⟨[], .inl ⟨allows, rfl⟩, rfl⟩
        · exact ⟨made.filterMap id,
            .inr ⟨allows, replies m.hashes [] made (List.append_nil _).symm hmade⟩, rfl⟩
  | getOperationsForBlocks m =>
      refine (speaks_replyEach (R := Reported) correct (fun block =>
        RandomState.caches_map _ (RandomState.caches_genOperationsReply block)) ?_ ?_).mono ?_
      · intro block g _
        have made : OnlyGives (RandomState.genOperationsReply block) fun m =>
            ∃ answer : OperationsForBlocksMessage,
              m = .operationsForBlocks answer ∧ answer.operationsForBlock = block :=
          .anyBind fun path => .anyBind fun operations => .pure ⟨⟨block, path, operations⟩, rfl, rfl⟩
        refine (made.bind fun m h => OnlyGives.pure (P := Reported block) ?_).wp g
        obtain ⟨answer, rfl, same⟩ := h
        exact ⟨answer, rfl, same⟩
      · intro allows done rest made split hmade
        exact ⟨made.filterMap id, reported_answering allows split hmade, rfl⟩
      · intro _ batches said
        obtain ⟨allows, rfl⟩ | ⟨allows, made, hmade, rfl⟩ := said
        · exact ⟨[], .inl ⟨allows, rfl⟩, rfl⟩
        · refine ⟨made.filterMap id, .inr ⟨allows, ?_⟩, rfl⟩
          obtain ⟨answers, heq, blocks⟩ := made_answers hmade
          rw [heq]
          exact .getOperationsForBlocks blocks
  | _ => exact Speaks.nothing ⟨[], rfl, rfl⟩

theorem speaks_handle (correct : CryptoBox.Correct Key)
    (replyOptions : PeerMessageReplyOptions) (m : PeerMessage) :
    Speaks Encoded id options key (handle options replyOptions key m)
      (fun _ batches => ∃ replies, Answers replyOptions m replies ∧ batches = replies.map ([·]))
      fun batches => ∃ replies, Answering replyOptions m replies ∧ batches = replies.map ([·]) :=
  (Speaks.gives (RandomState.caches_store m) (.any _)).silentBind fun _ _ =>
    speaks_respond correct replyOptions m

/-- Without blocks no request of blocks is replied to. -/
theorem wp_handle_noBlocks (replyOptions : PeerMessageReplyOptions) (m : HashesMessage) {s : Sender}
    (empty : s.generator.blocks = []) :
    Exec.wp (handle options replyOptions key (.getBlockHeaders m))
      (fun _ t => t.nonce = s.nonce ∧ t.stream.sent = s.stream.sent)
      (fun t => t.stream.sent = s.stream.sent) s := by
  rw [handle, Exec.wp_bind]
  refine wp_draws ((Exec.wp_pure _).mpr ?_)
  rw [respond, replyEach, Exec.wp_bind]
  refine wp_toss fun reply g same _ => ?_
  cases reply with
  | false => exact ⟨rfl, rfl⟩
  | true =>
      refine Exec.wp_mono (Exec.wp_forEach (I := fun _ t => t.generator.blocks = [] ∧
        t.nonce = s.nonce ∧ t.stream.sent = s.stream.sent) ⟨?_, rfl, rfl⟩ ?_) (fun _ _ h => h.2)
        fun _ h => h
      · rw [same]
        exact empty
      · intro _ hash t _ h
        rw [Exec.wp_bind]
        refine wp_draws ((Exec.wp_gets _).mpr ?_)
        rw [RandomState.getBlock_none h.1]
        exact h

/-- A request of blocks may go without a reply. -/
theorem Answers.noBlocks {replyOptions : PeerMessageReplyOptions} {m : HashesMessage}
    {replies : List PeerMessage} (h : Answers replyOptions (.getBlockHeaders m) replies) :
    Answers replyOptions (.getBlockHeaders m) [] := by
  obtain ⟨allows, _⟩ | ⟨allows, _⟩ := h
  · exact .inl ⟨allows, rfl⟩
  · exact .inr ⟨allows, .getBlockHeaders (List.nil_sublist _) .nil⟩

/-- What is written when a message was read. -/
theorem wp_handle (correct : CryptoBox.Correct Key) {replyOptions : PeerMessageReplyOptions}
    {m : PeerMessage} {s : Sender} (ready : Ready options s) :
    Exec.wp (handle options replyOptions key m)
      (fun _ t => ∃ replies, Answers replyOptions m replies ∧
        Says Encoded options key s (replies.map ([·])) t ∧ Caches s t ∧
        (s.generator.blocks = [] → ∀ asked, m = .getBlockHeaders asked → replies = []))
      (fun t => ∃ replies, Answering replyOptions m replies ∧
        Breaks Encoded options key s (replies.map ([·])) t ∧
        (s.generator.blocks = [] → ∀ asked, m = .getBlockHeaders asked → replies = [])) s := by
  have speaks : Speaks Encoded id options key (handle options replyOptions key m)
      (fun _ batches => ∃ replies, Answers replyOptions m replies ∧ batches = replies.map ([·]))
      fun batches => ∃ replies, Answering replyOptions m replies ∧ batches = replies.map ([·]) :=
    speaks_handle correct replyOptions m
  have said := speaks ⟨[], .inl rfl, rfl⟩ s ready
  by_cases known : s.generator.blocks = [] ∧ ∃ asked, m = .getBlockHeaders asked
  · obtain ⟨empty, asked, rfl⟩ := known
    refine Exec.wp_mono (Exec.wp_and said (wp_handle_noBlocks replyOptions asked empty)) ?_ ?_
    · intro _ t h
      obtain ⟨⟨_, ⟨replies, answers, rfl⟩, -, -, caches⟩, nonce, sent⟩ := h
      exact ⟨[], Answers.noBlocks answers, .nothing nonce sent, caches, fun _ _ _ => rfl⟩
    · intro t h
      exact ⟨[], .inl rfl, .between h.2, fun _ _ _ => rfl⟩
  · have other : ∀ replies : List PeerMessage,
        s.generator.blocks = [] → ∀ asked, m = .getBlockHeaders asked → replies = [] :=
      fun _ empty asked heard => absurd ⟨empty, asked, heard⟩ known
    refine Exec.wp_mono said ?_ ?_
    · intro _ t h
      obtain ⟨_, ⟨replies, answers, rfl⟩, -, spoken, caches⟩ := h
      exact ⟨replies, answers, spoken, caches, other replies⟩
    · intro t h
      obtain ⟨_, ⟨replies, answering, rfl⟩, broken⟩ := h
      exact ⟨replies, answering, broken, other replies⟩


/-! ## What is written keeps the blocks -/

theorem caches_pushBatches (options : PeerMessageOptions) (key : Key) (fuel remaining : Nat) :
    Exec.Steps Caches (pushBatches options key fuel remaining) := by
  induction fuel generalizing remaining with
  | zero => exact Exec.steps_abort
  | succ fuel ih =>
      rw [pushBatches]
      split
      next => exact Exec.steps_pure ()
      next =>
        exact (caches_draws (RandomState.caches_collect _ (caches_genPushed _))).bind fun _ =>
          (caches_writeBytesEncrypted _ _ _).bind fun _ => ih _

theorem caches_fuzzPeerMessages (options : PeerMessageOptions) (key : Key) :
    Exec.Steps Caches (fuzzPeerMessages options key) :=
  (caches_draws (caches_genThroughput _)).bind fun _ => caches_pushBatches _ _ _ _

theorem caches_replyWith {chance : Chance} {gen : Gen PeerMessage}
    (h : Exec.Steps RandomState.Caches gen) :
    Exec.Steps Caches (replyWith options key chance gen) := by
  refine (caches_toss chance).bind fun reply => ?_
  split
  next => exact (caches_draws h).bind fun _ => caches_writeMsg _ _ _
  next => exact Exec.steps_pure ()

theorem caches_replyEach {α : Type} {chance : Chance} {gen : α → Gen (Option PeerMessage)}
    (h : ∀ a, Exec.Steps RandomState.Caches (gen a)) (l : List α) :
    Exec.Steps Caches (replyEach options key chance gen l) := by
  refine (caches_toss chance).bind fun reply => ?_
  split
  next =>
    refine caches_forEach fun a => (caches_draws (h a)).bind fun msg => ?_
    split
    next => exact caches_writeMsg _ _ _
    next => exact Exec.steps_pure ()
  next => exact Exec.steps_pure ()

theorem caches_respond (options : ChunkOptions) (replyOptions : PeerMessageReplyOptions) (key : Key)
    (m : PeerMessage) : Exec.Steps Caches (respond options replyOptions key m) := by
  cases m with
  | bootstrap =>
      exact caches_replyWith (RandomState.caches_map _ RandomState.caches_genAdvertiseMessage)
  | getCurrentHead m =>
      exact caches_replyWith (RandomState.caches_map _ RandomState.caches_genCurrentHeadMessage)
  | getCurrentBranch m =>
      exact caches_replyWith (RandomState.caches_map _ RandomState.caches_genCurrentBranchMessage)
  | getBlockHeaders m => exact caches_replyEach (fun _ => Exec.steps_gets _) _
  | getOperationsForBlocks m =>
      exact caches_replyEach
        (fun _ => RandomState.caches_map _ (RandomState.caches_genOperationsReply _)) _
  | _ => exact Exec.steps_pure ()

theorem caches_handle (options : ChunkOptions) (replyOptions : PeerMessageReplyOptions) (key : Key)
    (m : PeerMessage) : Exec.Steps Caches (handle options replyOptions key m) :=
  (caches_draws (RandomState.caches_store m)).bind fun _ => caches_respond _ _ _ _

end Sender

/-! ## Rounds -/

/-- What happens in one pass of the loop. -/
structure Round where
  heard : Option PeerMessage
  replies : List PeerMessage
  batches : List (List PeerMessage)

/-- All that is written in a round: each reply, and then each batch. -/
def Round.written (round : Round) : List (List PeerMessage) :=
  round.replies.map ([·]) ++ round.batches

namespace Fuzzer

variable [Blake2b] {options : PeerMessageOptions} {key : Key} {passes fuel : Nat}

/-- What is read in a round, and the replies to it; nothing when there are no reply options. -/
inductive Hears (options : PeerMessageOptions) (key : Key) (passes fuel : Nat) (r : Receiver) :
    Option PeerMessage → List PeerMessage → Receiver → Prop
  | off : options.replyOptions = none → Hears options key passes fuel r none [] r
  | heard {replyOptions : PeerMessageReplyOptions} {m : PeerMessage} {replies : List PeerMessage}
      {r' : Receiver} : options.replyOptions = some replyOptions →
      Receiver.readMsg PeerMessageResponse.fromBytes key true passes fuel r = (.ok ⟨m⟩, r') →
      Answers replyOptions m replies → Hears options key passes fuel r (some m) replies r'

/-- A round between two states. -/
structure Plays (options : PeerMessageOptions) (key : Key) (passes fuel : Nat) (f : Fuzzer)
    (round : Round) (f' : Fuzzer) : Prop where
  hears : Hears options key passes fuel f.receiver round.heard round.replies f'.receiver
  pushes : Sender.Pushes options round.batches
  written : Sender.Says Sender.Encoded options.chunkOptions key f.sender round.written f'.sender
  noBlocks : f.sender.generator.blocks = [] → ∀ m, round.heard = some (.getBlockHeaders m) →
    round.replies = []
  caches : Sender.Caches f.sender f'.sender

/-- Rounds one after the other. -/
inductive Rounds (options : PeerMessageOptions) (key : Key) (passes fuel : Nat) :
    Fuzzer → List Round → Fuzzer → Prop
  | nil {f : Fuzzer} : Rounds options key passes fuel f [] f
  | cons {f f' f'' : Fuzzer} {round : Round} {rounds : List Round} :
      Plays options key passes fuel f round f' → Rounds options key passes fuel f' rounds f'' →
      Rounds options key passes fuel f (round :: rounds) f''

/-- How far a round came that failed: the peer was not heard, the replies to it were begun, or what
is pushed behind them was begun. -/
inductive Begins (options : PeerMessageOptions) (key : Key) (passes fuel : Nat) (r : Receiver) :
    Round → Receiver → Prop
  | reading {outcome : Outcome IoError PeerMessageResponse} {r' : Receiver} :
      options.replyOptions ≠ none →
      Receiver.readMsg PeerMessageResponse.fromBytes key true passes fuel r = (outcome, r') →
      outcome.isOk = false → Begins options key passes fuel r ⟨none, [], []⟩ r'
  | replying {replyOptions : PeerMessageReplyOptions} {m : PeerMessage}
      {replies : List PeerMessage} {r' : Receiver} : options.replyOptions = some replyOptions →
      Receiver.readMsg PeerMessageResponse.fromBytes key true passes fuel r = (.ok ⟨m⟩, r') →
      Answering replyOptions m replies →
      Begins options key passes fuel r ⟨some m, replies, []⟩ r'
  | pushing {heard : Option PeerMessage} {replies : List PeerMessage}
      {batches : List (List PeerMessage)} {r' : Receiver} :
      Hears options key passes fuel r heard replies r' → Sender.Pushing options batches →
      Begins options key passes fuel r ⟨heard, replies, batches⟩ r'

/-- A round that failed. -/
structure Fails (options : PeerMessageOptions) (key : Key) (passes fuel : Nat) (f : Fuzzer)
    (round : Round) (f' : Fuzzer) : Prop where
  begins : Begins options key passes fuel f.receiver round f'.receiver
  written : Sender.Breaks Sender.Encoded options.chunkOptions key f.sender round.written f'.sender
  noBlocks : f.sender.generator.blocks = [] → ∀ m, round.heard = some (.getBlockHeaders m) →
    round.replies = []

variable {f f' : Fuzzer}

omit [Blake2b] in
theorem wp_writes {α : Type} {x : Exec Sender WriteError α} {Q : α → Fuzzer → Prop}
    {E : Fuzzer → Prop} (h : Exec.wp x (fun a s => Q a { f with sender := s })
      (fun s => E { f with sender := s }) f.sender) : Exec.wp (writes x) Q E f :=
  (Exec.wp_mapErr _ _).mpr ((Exec.wp_onPart _ _).mpr h)

omit [Blake2b] in
theorem wp_reads {α : Type} {x : Exec Receiver IoError α} {Q : α → Fuzzer → Prop}
    {E : Fuzzer → Prop} (ok : ∀ a r, x f.receiver = (.ok a, r) → Q a { f with receiver := r })
    (failed : ∀ outcome r, x f.receiver = (outcome, r) → outcome.isOk = false →
      E { f with receiver := r }) : Exec.wp (reads x) Q E f :=
  (Exec.wp_mapErr _ _).mpr ((Exec.wp_onPart _ _).mpr (Exec.wp_of_run ok failed))

theorem wp_handleResponse (correct : CryptoBox.Correct Key)
    (ready : Sender.Ready options.chunkOptions f.sender) :
    Exec.wp (handleResponse options key passes fuel)
      (fun _ f' => ∃ heard replies, Hears options key passes fuel f.receiver heard replies f'.receiver ∧
        Sender.Says Sender.Encoded options.chunkOptions key f.sender (replies.map ([·])) f'.sender ∧
        Sender.Caches f.sender f'.sender ∧ (f.sender.generator.blocks = [] → ∀ m,
          heard = some (.getBlockHeaders m) → replies = []))
      (fun f' => ∃ round, Fails options key passes fuel f round f') f := by
  unfold handleResponse
  cases on : options.replyOptions with
  | none => exact ⟨none, [], .off on, .nothing rfl rfl, .refl _, fun _ _ _ => rfl⟩
  | some replyOptions =>
      rw [Exec.wp_bind]
      refine wp_reads (fun response r read => ?_) fun outcome r read failed => ?_
      · refine wp_writes (Exec.wp_mono (Sender.wp_handle correct ready) ?_ ?_)
        · intro _ t h
          obtain ⟨replies, answers, said, caches, noBlocks⟩ := h
          refine ⟨some response.message, replies, .heard on read answers, said, caches, ?_⟩
          exact fun empty m heard => noBlocks empty m (Option.some.inj heard)
        · intro t h
          obtain ⟨replies, answering, broken, noBlocks⟩ := h
          refine ⟨⟨some response.message, replies, []⟩, .replying on read answering, ?_, ?_⟩
          · rwa [Round.written, List.append_nil]
          · exact fun empty m heard => noBlocks empty m (Option.some.inj heard)
      · have some' : options.replyOptions ≠ none := by simp [on]
        exact ⟨⟨none, [], []⟩, .reading some' read failed, .between rfl, fun _ _ _ => rfl⟩

/-- What is pushed behind the replies. -/
theorem wp_pushes (correct : CryptoBox.Correct Key) {heard : Option PeerMessage}
    {replies : List PeerMessage} {f₁ : Fuzzer} (ready : Sender.Ready options.chunkOptions f₁.sender)
    (hears : Hears options key passes fuel f.receiver heard replies f₁.receiver)
    (replied : Sender.Says Sender.Encoded options.chunkOptions key f.sender (replies.map ([·]))
      f₁.sender) (caches : Sender.Caches f.sender f₁.sender)
    (noBlocks : f.sender.generator.blocks = [] → ∀ m, heard = some (.getBlockHeaders m) →
      replies = []) :
    Exec.wp (writes (Sender.fuzzPeerMessages options key))
      (fun _ f' => ∃ round, Plays options key passes fuel f round f')
      (fun f' => ∃ round, Fails options key passes fuel f round f') f₁ := by
  have start : Sender.Pushing options [] := ⟨by simp, by simp⟩
  refine wp_writes (Exec.wp_mono (Sender.speaks_fuzzPeerMessages correct start f₁.sender ready) ?_ ?_)
  · intro _ t h
    obtain ⟨batches, pushes, -, said, caches'⟩ := h
    exact ⟨⟨heard, replies, batches⟩, hears, pushes, replied.append said, noBlocks,
      caches.trans caches'⟩
  · intro t h
    obtain ⟨batches, pushing, broken⟩ := h
    exact ⟨⟨heard, replies, batches⟩, .pushing hears pushing, replied.breaks broken, noBlocks⟩

theorem wp_fuzzLoop (correct : CryptoBox.Correct Key) (n : Nat)
    (ready : Sender.Ready options.chunkOptions f.sender) :
    Exec.wp (fuzzLoop options key passes fuel n)
      (fun _ f' => ∃ rounds, rounds.length = n ∧ Rounds options key passes fuel f rounds f')
      (fun f' => ∃ rounds f₁ round, rounds.length < n ∧ Rounds options key passes fuel f rounds f₁ ∧
        Fails options key passes fuel f₁ round f') f := by
  induction n generalizing f with
  | zero => exact ⟨[], rfl, .nil⟩
  | succ n ih =>
      rw [fuzzLoop, Exec.wp_bind]
      refine Exec.wp_mono (wp_handleResponse correct ready) ?_ ?_
      · intro _ f₁ h
        obtain ⟨heard, replies, hears, replied, caches, noBlocks⟩ := h
        rw [Exec.wp_bind]
        refine Exec.wp_mono (wp_pushes correct (ready.caches caches) hears replied caches noBlocks)
          ?_ ?_
        · intro _ f₂ h
          obtain ⟨round, plays⟩ := h
          refine Exec.wp_mono (ih (ready.caches plays.caches)) ?_ ?_
          · intro _ f' h
            obtain ⟨rounds, hlen, rest⟩ := h
            exact ⟨round :: rounds, by rw [List.length_cons, hlen], .cons plays rest⟩
          · intro f' h
            obtain ⟨rounds, f₃, last, few, rest, fails⟩ := h
            exact ⟨round :: rounds, f₃, last, Nat.succ_lt_succ few, .cons plays rest, fails⟩
        · intro f' h
          obtain ⟨round, fails⟩ := h
          exact ⟨[], f, round, Nat.succ_pos n, .nil, fails⟩
      · intro f' h
        obtain ⟨round, fails⟩ := h
        exact ⟨[], f, round, Nat.succ_pos n, .nil, fails⟩

theorem caches_handleResponse : Exec.Steps Caches (handleResponse options key passes fuel) := by
  unfold handleResponse
  split
  next => exact Exec.steps_pure ()
  next replyOptions _ =>
    exact (caches_reads _).bind fun response =>
      caches_writes (Sender.caches_handle _ replyOptions key response.message)

theorem caches_fuzzLoop (n : Nat) : Exec.Steps Caches (fuzzLoop options key passes fuel n) := by
  induction n with
  | zero => exact Exec.steps_pure ()
  | succ n ih =>
      exact caches_handleResponse.bind fun _ =>
        (caches_writes (Sender.caches_fuzzPeerMessages options key)).bind fun _ => ih

/-- No round replies to a request of blocks when there are none and there is no room for any, and
after the rounds it is still so. -/
theorem Rounds.noBlocks {rounds : List Round} (h : Rounds options key passes fuel f rounds f')
    (limit : f.sender.generator.blocksLimit = 0) (empty : f.sender.generator.blocks = []) :
    (∀ round ∈ rounds, ∀ m, round.heard = some (.getBlockHeaders m) → round.replies = []) ∧
      f'.sender.generator.blocks = [] := by
  induction h with
  | nil => exact ⟨by simp, empty⟩
  | cons plays _ ih =>
      have limit' := plays.caches.blocksLimit.trans limit
      have empty' := (plays.caches.unlimited limit).trans empty
      obtain ⟨rest, after⟩ := ih limit' empty'
      refine ⟨fun round mem => ?_, after⟩
      obtain rfl | later := List.mem_cons.mp mem
      · exact plays.noBlocks empty
      · exact rest round later

end Fuzzer

namespace Fuzzer

/-! ## A round that is played -/

/-- No message of the rounds below is hashed. -/
local instance roundDigest : Blake2b := RandomState.unusedDigest

/-- Requests of points are always replied to, and one message is pushed. -/
def bootstrapping : PeerMessageOptions where
  chunkOptions := ⟨.always, .below 0, .always, .below 0, .below 0⟩
  messagesPerChunk := 1
  pushMessages := ["Disconnect", "Bootstrap"]
  maxPushThroughput := 1
  replyOptions := some ⟨.always, .below 0, .below 0, .below 0, .below 0⟩

/-- A sender that draws zeros. -/
def quietSender : Sender := ⟨RandomState.new ⟨fun _ => 0⟩ 0 100, ⟨0⟩, ⟨[], fun _ => none⟩⟩

theorem quietSender_ready : Sender.Ready bootstrapping.chunkOptions quietSender :=
  ⟨by simp [RandomState.Authentic, quietSender, RandomState.new], .inl rfl⟩

/-- `Bootstrap` in one chunk. -/
def bootstrapChunk : BinaryChunk := Receiver.plainChunk [0, 0, 0, 2, 0, 2] (by decide)

/-- The peer sends `Bootstrap`, and then the connection is reset. -/
def bootstrapped : Receiver :=
  ⟨⟨.default, ⟨bootstrapChunk.raw, fun _ => 23, fun _ => some (.os 104)⟩⟩, ⟨0⟩⟩

def beforeBootstrap : Fuzzer := ⟨quietSender, bootstrapped⟩

theorem beforeBootstrap_ready :
    Sender.Ready bootstrapping.chunkOptions beforeBootstrap.sender := quietSender_ready

/-- The loop up to some pass. -/
def bootstrapRun (n : Nat) : Outcome FuzzError Unit × Fuzzer :=
  fuzzLoop bootstrapping PlainKey.plain 2 1 n beforeBootstrap

/-- The first pass returns and the second fails. -/
theorem bootstrapRun_ends : (bootstrapRun 1).1.isOk ∧ (bootstrapRun 2).1.isOk = false := by
  decide +kernel

end Fuzzer

end NodeFuzzer
