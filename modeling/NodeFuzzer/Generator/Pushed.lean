import NodeFuzzer.Generator.Valid

/-!
# Messages that are pushed

Every message of a kind is made and can be sent, whatever is drawn, as long as the kind is
one that can be pushed (`RandomState.Pushable`).  Made up messages always can be: the
budgets of the generators stay below the limits of the encoder.  Mutated ones can be unless
the received message is at one of the ends the mutators run over.
-/

namespace NodeFuzzer

namespace RandomState

variable {T U : Type} {s t : RandomState}

/-! ## Generators that count

A mutated block header counts the fitness on, once.  No generator reads the count after
that, so nothing is said about it.
-/

/-- The generator returns a value with `P`, and keeps the messages that were received. -/
@[irreducible] def Counts (gen : Gen T) (P : T → Prop) (s : RandomState) : Prop :=
  Exec.wp gen (fun a t => P a ∧ t.received = s.received) (fun _ => False) s

theorem Counts.returns {gen : Gen T} {P : T → Prop} (h : Counts gen P s) :
    ∃ a t, gen s = (.ok a, t) ∧ P a ∧ t.received = s.received := by
  rw [Counts] at h
  exact Exec.wp_returns h

theorem Gives.counts {gen : Gen T} {P : T → Prop} (h : Gives gen P s) : Counts gen P s := by
  rw [Gives] at h
  rw [Counts]
  exact Exec.wp_mono h (fun a t holds => ⟨holds.1, holds.2.received⟩) fun _ h => h

theorem Counts.bind {gen : Gen T} {next : T → Gen U} {P : T → Prop} {Q : U → Prop}
    (h : Counts gen P s) (rest : ∀ a t, P a → t.received = s.received → Counts (next a) Q t) :
    Counts (gen >>= next) Q s := by
  rw [Counts, Exec.wp_bind]
  rw [Counts] at h
  refine Exec.wp_mono h (fun a t ⟨ha, ht⟩ => ?_) fun _ h => h
  have hrest := rest a t ha ht
  rw [Counts] at hrest
  exact Exec.wp_mono hrest (fun b u ⟨hb, hu⟩ => ⟨hb, hu.trans ht⟩) fun _ h => h

/-- The count is still known behind a generator that does not count. -/
theorem Gives.bindCounts {gen : Gen T} {next : T → Gen U} {P : T → Prop} {Q : U → Prop}
    (h : Gives gen P s) (rest : ∀ a t, P a → Keeps s t → Counts (next a) Q t) :
    Counts (gen >>= next) Q s := by
  rw [Counts, Exec.wp_bind]
  rw [Gives] at h
  refine Exec.wp_mono h ?_ fun _ h => h
  intro a t holds
  obtain ⟨ha, ht⟩ := holds
  have hrest := rest a t ha ht
  rw [Counts] at hrest
  exact Exec.wp_mono hrest (fun b u holds => ⟨holds.1, holds.2.trans ht.received⟩) fun _ h => h

theorem Counts.map {gen : Gen T} {f : T → U} {P : T → Prop} {Q : U → Prop} (h : Counts gen P s)
    (imp : ∀ a, P a → Q (f a)) : Counts (f <$> gen) Q s :=
  h.bind fun a _ ha _ => (gives_pure (imp a ha)).counts

theorem gives_modify {f : RandomState → RandomState} (h : ∀ s, Keeps s (f s)) :
    Gives (Exec.modify f) (fun _ => True) s := by
  rw [Gives, Exec.wp_modify]
  exact ⟨trivial, h s⟩

theorem counts_genFitness (h : s.fitnessCount + 1 < 2 ^ 64) : Counts genFitness (fun _ => True) s := by
  rw [Counts, genFitness, Exec.wp_bind, Exec.wp_gets, if_pos h]
  exact ⟨trivial, rfl⟩

/-! ## The messages that were received -/

/-- The messages that were received can be written. -/
structure Stored (s : RandomState) : Prop where
  currentBranch : ∀ m, s.currentBranch = some m → CurrentBranchMessage.schema.Writable m.toVal
  currentHead : ∀ m, s.currentHead = some m → CurrentHeadMessage.schema.Writable m.toVal
  blockHeader : ∀ m, s.blockHeader = some m → BlockHeaderMessage.schema.Writable m.toVal
  operation : ∀ m, s.operation = some m → OperationMessage.schema.Writable m.toVal
  operationsForBlocks : ∀ m, s.operationsForBlocks = some m →
    m.Fits ∧ HashSized m.operationHashesPath

theorem received_currentHead (h : t.received = s.received) : t.currentHead = s.currentHead :=
  congrArg (fun r => r.2.1) h

theorem Stored.of_received (stored : Stored s) (h : t.received = s.received) : Stored t := by
  simp only [received, Prod.mk.injEq] at h
  obtain ⟨hbranch, hhead, hheader, hoperation, _, hoperations⟩ := h
  exact ⟨hbranch ▸ stored.currentBranch, hhead ▸ stored.currentHead,
    hheader ▸ stored.blockHeader, hoperation ▸ stored.operation,
    hoperations ▸ stored.operationsForBlocks⟩

theorem Stored.headHeader (stored : Stored s) {m : CurrentHeadMessage} (h : s.currentHead = some m) :
    m.currentBlockHeader.Fits :=
  BlockHeader.writable_iff.mp (stored.currentHead m h).2.1.1

theorem Stored.header (stored : Stored s) {m : BlockHeaderMessage} (h : s.blockHeader = some m) :
    m.blockHeader.Fits :=
  BlockHeader.writable_iff.mp (stored.blockHeader m h).1

/-! ## Mutating block headers -/

/-- The largest component the mutator can make of one. -/
def maxComponentSize (c : Component) : Nat :=
  9 + max 1023 (utf8 c.name).length +
    max (4 + 102399) (c.interface.elim 0 fun interface => 4 + (utf8 interface).length) +
    max 102399 (utf8 c.implementation).length

/-- A block header that can be mutated, whatever is drawn, when the fitness was counted up to
`count`: the numbers are not at their ends, there is a first element of the fitness, and the
protocol data leaves room for the fitness that is put in front of it. -/
structure Mutable (count : Nat) (h : BlockHeader) : Prop where
  level : h.level.toInt + 1 < 2 ^ 31
  timestamp : h.timestamp.toInt + 3599 < 2 ^ 63
  validationPass : h.validationPass.toNat + 1 < 2 ^ 8
  fitnessCount : count + 1 < 2 ^ 64
  fitness : ∃ first, h.fitness.head? = some first ∧ first.length + 8 ≤ headerRoom ∧
    114 + (16 + first.length) + h.protocolData.length ≤ BLOCK_HEADER_MAX_SIZE
  protocolData : 114 + 28 + h.protocolData.length ≤ BLOCK_HEADER_MAX_SIZE

section

variable [Blake2b]

theorem gives_mutatePredecessor (stored : Stored s) :
    Gives mutatePredecessor (fun b => b.length = HashType.blockHash.size) s := by
  refine (gives_gets currentHead).bind fun head t hhead ht => ?_
  subst hhead
  split
  next head h =>
    exact (gives_blockHash (stored.headHeader h)).bind fun hash _ _ _ => gives_pure hash.property
  next =>
    refine gives_genBlockHeader.bind fun block _ hblock _ => ?_
    refine (gives_gets lastBlock).bind fun predecessor _ _ _ => ?_
    exact (gives_blockHash (fits_of_predecessor hblock predecessor)).bind fun hash _ _ _ =>
      gives_pure hash.property

omit [Blake2b] in
theorem gives_mutateTimestamp {timestamp : Int64} (h : timestamp.toInt + 3599 < 2 ^ 63) :
    Gives (mutateTimestamp timestamp) (fun _ => True) s := by
  refine gives_coin (fun _ _ => ?_) fun _ _ => gives_genT
  refine (gives_genRange (by decide)).bind fun seconds _ hseconds _ => ?_
  exact gives_orAbort ⟨_, if_pos (by omega), trivial⟩

omit [Blake2b] in
/-- The fitness is the first element and the count, or one that is made up; its elements come
out of the size of the header, but for the sizes in front of them. -/
theorem counts_mutateFitness {fitness : List Bytes} {first : Bytes} {remaining : Nat}
    (hcount : s.fitnessCount + 1 < 2 ^ 64) (hfirst : fitness.head? = some first)
    (hroom : first.length + 8 ≤ remaining) (hremaining : 28 ≤ remaining) :
    Counts (mutateFitness fitness remaining) (fun r =>
      (fitnessSize r.1 ≤ max (16 + first.length) 28) ∧ fitnessSize r.1 + r.2 ≤ remaining + 8) s := by
  refine gives_genBool.bindCounts fun b t _ ht => ?_
  cases b with
  | true =>
      have hsub : subUsize remaining first.length = some (remaining - first.length) :=
        if_pos (by omega)
      have hsub' : ∀ count, subUsize (remaining - first.length) (toBe 8 count).length =
          some (remaining - first.length - 8) := by
        intro count
        rw [toBe_length]
        exact if_pos (by omega)
      refine (gives_orAbort (P := (· = first)) ⟨_, hfirst, rfl⟩).bindCounts fun a u ha hu => ?_
      subst ha
      refine (gives_orAbort (P := (· = remaining - a.length)) ⟨_, hsub, rfl⟩).bindCounts
        fun left v hleft hv => ?_
      subst hleft
      have hcount' : v.fitnessCount + 1 < 2 ^ 64 := by
        rw [hv.fitnessCount, hu.fitnessCount, ht.fitnessCount]
        exact hcount
      refine (counts_genFitness hcount').bind fun count w _ _ => Gives.counts ?_
      refine (gives_orAbort (P := (· = remaining - a.length - 8)) ⟨_, hsub' count, rfl⟩).bind
        fun left _ hleft _ => gives_pure ?_
      have hsize : fitnessSize [a, toBe 8 count] = 16 + a.length := by
        simp [fitnessSize]
        omega
      rw [hsize, hleft]
      dsimp only
      omega
  | false =>
      have hloop : Gives (genFitnessLoop 29 28 remaining []) _ t :=
        gives_genFitnessLoop (by decide) hremaining
      refine (hloop.mono fun r h => ?_).counts
      have hnil : fitnessSize [] = 0 := rfl
      omega

theorem counts_mutateBlockHeader {h : BlockHeader} (stored : Stored s) (hm : Mutable s.fitnessCount h) :
    Counts (mutateBlockHeader h) BlockHeader.Fits s := by
  obtain ⟨first, hfirst, hroom, hsize⟩ := hm.fitness
  have hdata := hm.protocolData
  have hlimit : 122 + headerRoom ≤ BLOCK_HEADER_MAX_SIZE := by decide
  have hlevel : ∀ t, Gives (coin (Exec.orAbort (succI32 h.level)) (genT Int32)) (fun _ => True) t :=
    fun t => gives_coin (fun _ _ => gives_orAbort ⟨_, if_pos hm.level, trivial⟩) fun _ _ => gives_genT
  have hpass : ∀ t, Gives (coin (Exec.orAbort (succU8 h.validationPass)) (genT UInt8)) (fun _ => True) t :=
    fun t => gives_coin (fun _ _ => gives_orAbort ⟨_, if_pos hm.validationPass, trivial⟩)
      fun _ _ => gives_genT
  have hproto : ∀ t, Gives (coin (pure h.proto) (genT UInt8)) (fun _ => True) t :=
    fun t => gives_coin (fun _ _ => gives_pure trivial) fun _ _ => gives_genT
  refine (hlevel s).bindCounts fun level t₁ _ k₁ => ?_
  refine (hproto t₁).bindCounts fun proto t₂ _ k₂ => ?_
  have k := k₁.trans k₂
  refine (gives_mutatePredecessor (stored.of_received k.received)).bindCounts
    fun predecessor t₃ hpredecessor k₃ => ?_
  refine (gives_mutateTimestamp hm.timestamp).bindCounts fun timestamp t₄ _ k₄ => ?_
  refine (hpass t₄).bindCounts fun validationPass t₅ _ k₅ => ?_
  refine (gives_genHash _).bindCounts fun operationsHash t₆ _ k₆ => ?_
  have hcount : t₆.fitnessCount + 1 < 2 ^ 64 := by
    rw [(((k.trans k₃).trans k₄).trans (k₅.trans k₆)).fitnessCount]
    exact hm.fitnessCount
  refine (counts_mutateFitness hcount hfirst hroom (by decide)).bind fun r _ hr _ => ?_
  obtain ⟨fitness, remaining⟩ := r
  dsimp only at hr ⊢
  refine ((gives_genHash _).bind fun context _ _ _ => ?_).counts
  refine gives_mutateProtocolData.bind fun protocolData _ hlen _ => gives_pure ?_
  refine ⟨hpredecessor, operationsHash.property, context.property, ?_⟩
  simp only [BlockHeader.size]
  omega

/-! ## Branches and heads -/

omit [Blake2b] in
theorem arbitraryKey_isSome {blocks : List (TypedHash .blockHash × BlockHeader)} (h : blocks ≠ [])
    (place : Nat) : ∃ key, arbitraryKey blocks place = some key := by
  have inside : place % blocks.length < blocks.length :=
    Nat.mod_lt _ (List.length_pos_of_ne_nil h)
  exact ⟨_, by rw [arbitraryKey, List.getElem?_eq_getElem inside]; rfl⟩

omit [Blake2b] in
theorem mem_of_arbitraryKey {blocks : List (TypedHash .blockHash × BlockHeader)} {place : Nat}
    {key : TypedHash .blockHash} (h : arbitraryKey blocks place = some key) :
    ∃ block, (key, block) ∈ blocks := by
  obtain ⟨entry, found, rfl⟩ := Option.map_eq_some_iff.mp h
  exact ⟨entry.2, List.mem_of_getElem? found⟩

omit [Blake2b] in
/-- A map that is full at a limit other than zero has a key. -/
theorem gives_makeRoom {state : RandomState} (limited : state.blocksLimit ≠ 0) :
    Gives (makeRoom state) (fun _ => True) s := by
  unfold makeRoom
  split
  next full =>
    have some : state.blocks ≠ [] := by
      intro none
      rw [none] at full
      exact limited full.symm
    have drawn : Gives (draws Rng.draw) (fun _ => True) s := by
      rw [Gives]
      exact wp_draws (Rng.wp_draw fun _ _ => ⟨trivial, rfl, rfl⟩)
    refine drawn.bind fun place t _ _ => ?_
    obtain ⟨key, found⟩ := arbitraryKey_isSome some place
    have chosen : Gives (Exec.orAbort (arbitraryKey state.blocks place)) (fun _ => True) t :=
      gives_orAbort ⟨key, found, trivial⟩
    exact chosen.bind fun _ _ _ _ => gives_modify fun _ => ⟨rfl, rfl⟩
  next => exact gives_pure trivial

omit [Blake2b] in
theorem gives_insertBlock (hash : TypedHash .blockHash) (block : BlockHeader) :
    Gives (insertBlock hash block) (fun _ => True) s := by
  refine (gives_gets id).bind fun state _ _ _ => ?_
  split
  next => exact gives_pure trivial
  next limited =>
    exact (gives_makeRoom limited).bind fun _ _ _ _ => gives_modify fun _ => ⟨rfl, rfl⟩

omit [Blake2b] in
theorem keeps_lastBlock (hash : TypedHash .blockHash) (s : RandomState) :
    Keeps s { s with lastBlock := hash } := ⟨rfl, rfl⟩

omit [Blake2b] in
/-- A branch with a head and a history within their limits. -/
theorem currentBranch_writable {chainId : Bytes} {head : BlockHeader} {history : List Bytes}
    (hchain : chainId.length = HashType.chainId.size) (hhead : head.Fits)
    (hlen : history.length ≤ CURRENT_BRANCH_HISTORY_MAX_LENGTH)
    (hhistory : ∀ hash ∈ history, hash.length = HashType.blockHash.size) :
    CurrentBranchMessage.schema.Writable (CurrentBranchMessage.mk chainId ⟨head, history⟩).toVal := by
  refine ⟨hchain, ⟨hhead.dynamic_writable, ⟨?_, hhistory⟩, trivial⟩, trivial⟩
  intro max hmax
  rw [← Option.some.inj hmax]
  exact hlen

theorem gives_genCurrentBranch : Gives genCurrentBranch (fun b => b.currentHead.Fits ∧
    b.history.length ≤ CURRENT_BRANCH_HISTORY_MAX_LENGTH ∧
    ∀ hash ∈ b.history, hash.length = HashType.blockHash.size) s := by
  refine (gives_genRange (by decide)).bind fun historyLen _ hlen _ => ?_
  refine (gives_genHashes .blockHash (historyLen - 1)).bind fun history _ hhistory _ => ?_
  refine gives_genBlockHeader.bind fun block _ hblock _ => ?_
  refine (gives_gets lastBlock).bind fun predecessor _ _ _ => ?_
  have hnew := fits_of_predecessor hblock predecessor
  refine (gives_blockHash hnew).bind fun hash _ _ _ => ?_
  refine (gives_insertBlock hash _).bind fun _ _ _ _ => ?_
  refine (gives_modify (keeps_lastBlock hash)).bind fun _ _ _ _ => gives_pure ⟨hnew, ?_, hhistory.2⟩
  have := hhistory.1
  dsimp only
  omega

theorem counts_mutateCurrentBranch {data : CurrentBranch} (stored : Stored s)
    (hm : Mutable s.fitnessCount data.currentHead)
    (hlen : data.history.length ≤ CURRENT_BRANCH_HISTORY_MAX_LENGTH)
    (hhistory : ∀ hash ∈ data.history, hash.length = HashType.blockHash.size) :
    Counts (mutateCurrentBranch data) (fun b => b.currentHead.Fits ∧
      b.history.length ≤ CURRENT_BRANCH_HISTORY_MAX_LENGTH ∧
      ∀ hash ∈ b.history, hash.length = HashType.blockHash.size) s := by
  refine (counts_mutateBlockHeader stored hm).bind fun head t hhead _ => Gives.counts ?_
  have hmutated : Gives (coin (pure data.history) (do
      let historyLen ← genRange 1 CURRENT_BRANCH_HISTORY_MAX_LENGTH
      genHashes .blockHash historyLen)) (fun history =>
        history.length ≤ CURRENT_BRANCH_HISTORY_MAX_LENGTH ∧
        ∀ hash ∈ history, hash.length = HashType.blockHash.size) t := by
    refine gives_coin (fun _ _ => gives_pure ⟨hlen, hhistory⟩) fun _ _ => ?_
    refine (gives_genRange (by decide)).bind fun historyLen _ hle _ => ?_
    exact (gives_genHashes _ _).mono fun history h => ⟨h.1.trans_le (Nat.le_of_lt hle.2), h.2⟩
  refine hmutated.bind fun history _ h _ => ?_
  refine (gives_blockHash hhead).bind fun hash _ _ _ => ?_
  exact (gives_modify (keeps_lastBlock hash)).bind fun _ _ _ _ => gives_pure ⟨hhead, h⟩

theorem counts_genCurrentBranchMessage (stored : Stored s)
    (hm : ∀ m, s.currentBranch = some m → Mutable s.fitnessCount m.currentBranch.currentHead) :
    Counts genCurrentBranchMessage (fun m => CurrentBranchMessage.schema.Writable m.toVal) s := by
  refine (gives_gets currentBranch).bindCounts fun branch t hbranch ht => ?_
  subst hbranch
  split
  next data hdata =>
    obtain ⟨hchain, ⟨_, ⟨hlen, hhistory⟩, _⟩, _⟩ := stored.currentBranch data hdata
    have hm' := hm data hdata
    rw [← ht.fitnessCount] at hm'
    refine (counts_mutateCurrentBranch (stored.of_received ht.received) hm' (hlen _ rfl) hhistory).bind
      fun branch _ h _ => (gives_pure ?_).counts
    exact currentBranch_writable hchain h.1 h.2.1 h.2.2
  next =>
    refine (gives_genChainId.bind fun chainId _ hchain _ => ?_).counts
    refine gives_genCurrentBranch.bind fun branch _ h _ => gives_pure ?_
    exact currentBranch_writable hchain h.1 h.2.1 h.2.2

omit [Blake2b] in
theorem gives_genMempool (h : s.currentHead = none) : Gives genMempool Mempool.Fits s := by
  refine (gives_gets currentHead).bind fun head _ hhead _ => ?_
  rw [h] at hhead
  subst hhead
  have hcount : MEMPOOL_MAX_OPERATIONS = 4000 := rfl
  dsimp only
  refine (gives_genRange (by decide)).bind fun pendingNum _ hpendingNum _ => ?_
  refine (gives_genRange (by omega)).bind fun knownValidNum _ hknownValidNum _ => ?_
  refine (gives_genHashes _ _).bind fun pending _ hpending _ => ?_
  refine (gives_genHashes _ _).bind fun knownValid _ hknownValid _ => gives_pure ?_
  refine ⟨hknownValid.2, hpending.2, ?_⟩
  rw [hknownValid.1, hpending.1]
  omega

/-- A head that is made up.  One that is mutated can have a mempool over its limit. -/
theorem gives_genCurrentHeadMessage (h : s.currentHead = none) :
    Gives genCurrentHeadMessage (fun m => CurrentHeadMessage.schema.Writable m.toVal) s := by
  refine (gives_gets currentHead).bind fun head t hhead ht => ?_
  rw [h] at hhead
  subst hhead
  dsimp only
  refine gives_genChainId.bind fun chainId u hchain hu => ?_
  refine gives_genBlockHeader.bind fun header v hheader hv => ?_
  have hnone : v.currentHead = none := (received_currentHead ((ht.trans hu).trans hv).received).trans h
  refine (gives_genMempool hnone).bind fun mempool _ hmempool _ => gives_pure ?_
  exact ⟨hchain, hheader.dynamic_writable, Mempool.writable_iff.mpr hmempool, trivial⟩

theorem counts_genBlockHeaderMessage (stored : Stored s)
    (hm : ∀ m, s.blockHeader = some m → Mutable s.fitnessCount m.blockHeader) :
    Counts genBlockHeaderMessage (fun m => BlockHeaderMessage.schema.Writable m.toVal) s := by
  refine (gives_gets blockHeader).bindCounts fun header t hheader ht => ?_
  subst hheader
  split
  next data hdata =>
    have hm' := hm data hdata
    rw [← ht.fitnessCount] at hm'
    refine (counts_mutateBlockHeader (stored.of_received ht.received) hm').bind fun header _ h _ =>
      (gives_pure ?_).counts
    exact ⟨BlockHeader.writable_iff.mpr h, trivial⟩
  next =>
    refine (gives_genBlockHeader.bind fun header _ h _ => gives_pure ?_).counts
    exact ⟨BlockHeader.writable_iff.mpr h, trivial⟩

/-! ## Operations -/

theorem gives_genOperationBranch (stored : Stored s) :
    Gives genOperationBranch (fun b => b.length = HashType.blockHash.size) s := by
  refine (gives_gets currentHead).bind fun head t hhead ht => ?_
  subst hhead
  split
  next head h =>
    exact (gives_blockHash (stored.headHeader h)).bind fun hash _ _ _ => gives_pure hash.property
  next =>
    refine gives_coin (fun u _ => (gives_gets _).mono fun _ hb => hb ▸ u.lastBlock.property) fun _ _ => ?_
    exact (gives_genHash _).bind fun hash _ _ _ => gives_pure hash.property

theorem gives_genOperation (stored : Stored s) : Gives genOperation
    (fun o => o.branch.length = HashType.blockHash.size ∧ o.data.length = 131008) s := by
  refine (gives_genOperationBranch stored).bind fun branch _ hbranch _ => ?_
  exact gives_genVec.bind fun data _ hdata _ => gives_pure ⟨hbranch, hdata⟩

omit [Blake2b] in
theorem gives_mutateOperationData {data : Bytes} :
    Gives (mutateOperationData data) (fun b => b.length ≤ data.length) s := by
  refine gives_coin (fun _ _ => ?_) fun _ _ => ?_
  · split
    next h => exact (gives_mutateBytes h).mono fun _ hlen => Nat.le_of_eq hlen
    next => exact gives_flipBits.mono fun _ hlen => Nat.le_of_eq hlen
  · refine (gives_genDataLen _).bind fun dataLen _ hle _ => ?_
    exact gives_genVec.mono fun _ hlen => hlen.trans_le hle

theorem gives_genOperationMessage (stored : Stored s) :
    Gives genOperationMessage (fun m => OperationMessage.schema.Writable m.toVal) s := by
  refine (gives_gets operation).bind fun operation t hoperation ht => ?_
  subst hoperation
  have stored' := stored.of_received ht.received
  split
  next data hdata =>
    have hfits := Operation.writable_iff.mp (stored.operation data hdata).1
    have hmutated : Gives (mutateOperation data.operation) Operation.Fits t := by
      refine (gives_coin (P := fun b => b.length = HashType.blockHash.size)
        (fun _ _ => gives_pure hfits.branch)
        fun _ hu => gives_genOperationBranch (stored'.of_received hu.received)).bind
        fun branch _ hbranch _ => ?_
      exact gives_mutateOperationData.bind fun bytes _ hlen _ =>
        gives_pure ⟨hbranch, hlen.trans hfits.data⟩
    exact hmutated.bind fun operation _ h _ => gives_pure ⟨Operation.writable_iff.mpr h, trivial⟩
  next =>
    refine (gives_genOperation stored').bind fun operation _ h _ => gives_pure ?_
    exact ⟨Operation.writable_iff.mpr ⟨h.1, h.2.trans_le (by decide)⟩, trivial⟩

/-- The operations come out of the size of the list, without the sizes in front of them: the
eight that are made leave enough for those. -/
theorem gives_genOperations {fuel remaining : Nat} {operations : List Operation} (stored : Stored s)
    (hfuel : remaining < fuel)
    (hdone : ∀ o ∈ operations, o.branch.length = HashType.blockHash.size ∧ o.data.length = 131008) :
    Gives (genOperations fuel remaining operations) (fun l =>
      (∀ o ∈ l, o.branch.length = HashType.blockHash.size ∧ o.data.length = 131008) ∧
        l.length * 131040 ≤ operations.length * 131040 + remaining) s := by
  induction fuel generalizing remaining operations s with
  | zero => omega
  | succ fuel ih =>
      rw [genOperations]
      refine (gives_genOperation stored).bind fun operation t hoperation ht => ?_
      obtain ⟨hbranch, hdata⟩ := hoperation
      have hfits : operation.Fits := ⟨hbranch, hdata.trans_le (by decide)⟩
      have hsize : Operation.schema.size operation.toVal = 131040 := by
        rw [Operation.schema_size hbranch, hdata]
      obtain ⟨b, hb, hlen⟩ := encodes_of_writable Operation.schema
        (Schema.wf_of_check _ (by decide +kernel)) (Operation.writable_iff.mpr hfits) (by omega)
      rw [hsize] at hlen
      refine (gives_unwrap (P := fun b => b.length = 131040) ⟨b, asBytes_iff.mpr hb, hlen⟩).bind
        fun bytes u hbytes hu => ?_
      split
      next => exact gives_pure ⟨hdone, Nat.le_add_right _ _⟩
      next hle =>
        have hall : ∀ o ∈ operations ++ [operation],
            o.branch.length = HashType.blockHash.size ∧ o.data.length = 131008 := by
          intro o ho
          simp only [List.mem_append, List.mem_singleton] at ho
          obtain ho | rfl := ho
          · exact hdone o ho
          · exact ⟨hbranch, hdata⟩
        have stored' := stored.of_received (ht.trans hu).received
        refine (ih stored' (by omega) hall).mono fun l hl => ⟨hl.1, hl.2.trans ?_⟩
        rw [List.length_append, List.length_singleton, Nat.add_mul, hbytes]
        omega

theorem gives_genOperationList (stored : Stored s) : Gives genOperationList (fun l =>
    (∀ o ∈ l, o.Fits) ∧ (l.map fun o => 36 + o.data.length).sum ≤ OPERATION_LIST_MAX_SIZE) s := by
  have hlimit : OPERATION_LIST_MAX_SIZE = 1048576 := rfl
  refine (gives_genOperations stored (Nat.lt_succ_self _) (fun _ ho => absurd ho List.not_mem_nil)).mono
    fun l hl => ?_
  obtain ⟨hall, hlen⟩ := hl
  refine ⟨fun o ho => ⟨(hall o ho).1, (hall o ho).2.trans_le (by decide)⟩, ?_⟩
  have hsum : (l.map fun o => 36 + o.data.length).sum ≤ l.length * 131044 :=
    sum_le_mul fun o ho => by rw [(hall o ho).2]
  rw [List.length_nil, Nat.zero_mul, Nat.zero_add] at hlen
  omega

theorem gives_genKnownBlock (stored : Stored s) :
    Gives genKnownBlock (fun b => b.length = HashType.blockHash.size) s := by
  refine (gives_gets id).bind fun r t hr ht => ?_
  subst hr
  have made : Gives (do
      let hash ← genHash .blockHash
      pure hash.val) (fun b => b.length = HashType.blockHash.size) t :=
    (gives_genHash _).bind fun hash _ _ _ => gives_pure hash.property
  split
  next _ _ _ branch hbranch =>
    obtain ⟨_, ⟨_, ⟨_, hhistory⟩, _⟩, _⟩ := stored.currentBranch branch hbranch
    split
    next hpos =>
      refine (gives_genRange hpos).bind fun index _ hindex _ => ?_
      exact gives_orAbort ⟨_, List.getElem?_eq_getElem hindex.2, hhistory _ (List.getElem_mem _)⟩
    next => exact made
  next header _ hheader =>
    exact (gives_blockHash (stored.header hheader)).bind fun hash _ _ _ => gives_pure hash.property
  next head _ _ hhead =>
    exact (gives_blockHash (stored.headHeader hhead)).bind fun hash _ _ _ => gives_pure hash.property
  next => exact made

theorem gives_genOperationsForBlock (stored : Stored s) : Gives genOperationsForBlock
    (fun o => o.hash.length = HashType.blockHash.size) s :=
  (gives_genKnownBlock stored).bind fun _ _ hhash _ => gives_genT.bind fun _ _ _ _ =>
    gives_pure hhash

theorem gives_genGetOperationsForBlocksMessage (stored : Stored s) :
    Gives genGetOperationsForBlocksMessage
      (fun m => GetOperationsForBlocksMessage.schema.Writable m.toVal) s := by
  refine (gives_genRange (by decide)).bind fun count t hcount ht => ?_
  refine (gives_collect fun u hu => gives_genOperationsForBlock
    (stored.of_received (ht.trans hu).received)).bind fun operations _ h _ => gives_pure ?_
  obtain ⟨hlen, hall⟩ := h
  have hlist : (Schema.list (some GET_OPERATIONS_FOR_BLOCKS_MAX_LENGTH) OperationsForBlock.schema).Writable
      (operations.map OperationsForBlock.toVal) := by
    refine ⟨?_, ?_⟩
    · intro max hmax
      rw [← Option.some.inj hmax, List.length_map, hlen]
      exact Nat.le_of_lt hcount.2
    · intro v hv
      obtain ⟨o, ho, rfl⟩ := List.mem_map.mp hv
      exact ⟨hall o ho, trivial, trivial⟩
  exact ⟨⟨hlist, (size_le_maxSize _ hlist rfl).trans_lt (by decide), unbounded⟩, trivial⟩

omit [Blake2b] in
theorem gives_genPath : Gives genPath (fun l => l.length ≤ 3 ∧ HashSized l) s := by
  have hitem : ∀ t, Gives genPathItem (fun item => item.hash.length = 32) t := by
    intro t
    refine gives_genVec.bind fun hash _ hlen _ => ?_
    exact gives_coin (fun _ _ => gives_pure hlen) fun _ _ => gives_pure hlen
  refine (gives_orAbort (P := (· = 3)) ⟨3, rfl, rfl⟩).bind fun max _ hmax _ => ?_
  subst hmax
  refine (gives_genRange (by decide)).bind fun count _ hcount _ => ?_
  exact (gives_collect fun t _ => hitem t).mono fun l hl => ⟨hl.1.trans_le (Nat.le_of_lt hcount.2), hl.2⟩

theorem gives_genOperationsForBlocksMessage (stored : Stored s) : Gives genOperationsForBlocksMessage
    (fun m => m.Fits ∧ HashSized m.operationHashesPath) s := by
  have hdepth : ∀ {path : List PathItem}, path.length ≤ 3 →
      ∀ max, MAX_PASS_MERKLE_DEPTH = some max → path.length ≤ max :=
    fun h max hmax => Option.some.inj hmax ▸ h
  refine (gives_gets operationsForBlocks).bind fun r t hr ht => ?_
  subst hr
  have stored' := stored.of_received ht.received
  split
  next data hdata =>
    obtain ⟨hfits, hhashes⟩ := stored.operationsForBlocks data hdata
    refine (gives_coin (P := fun o => o.hash.length = HashType.blockHash.size)
      (fun _ _ => gives_pure hfits.block)
      fun _ hu => gives_genOperationsForBlock (stored'.of_received hu.received)).bind
      fun block u hblock hu => ?_
    refine (gives_coin (P := fun l => l.length ≤ 3 ∧ HashSized l)
      (fun _ _ => gives_pure ⟨hfits.depth 3 rfl, hhashes⟩) fun _ _ => gives_genPath).bind
      fun path v hpath hv => ?_
    have stored'' := stored'.of_received (hu.trans hv).received
    refine (gives_coin (P := fun l => (∀ o ∈ l, Operation.Fits o) ∧
        (l.map fun o => 36 + o.data.length).sum ≤ OPERATION_LIST_MAX_SIZE)
      (fun _ _ => gives_pure ⟨hfits.operations, hfits.size⟩)
      fun _ hw => gives_genOperationList (stored''.of_received hw.received)).bind
      fun operations _ hoperations _ => gives_pure ?_
    exact ⟨⟨hblock, hdepth hpath.1, hoperations.1, hoperations.2⟩, hpath.2⟩
  next =>
    refine (gives_genOperationsForBlock stored').bind fun block u hblock hu => ?_
    refine gives_genPath.bind fun path v hpath hv => ?_
    refine (gives_genOperationList (stored'.of_received (hu.trans hv).received)).bind
      fun operations _ hoperations _ => gives_pure ?_
    exact ⟨⟨hblock, hdepth hpath.1, hoperations.1, hoperations.2⟩, hpath.2⟩

end

/-! ## Protocols -/

theorem gives_genComponent : Gives genComponent (fun c => c.size < 2 ^ 64) s := by
  refine (gives_genText (by decide)).bind fun name _ hname _ => ?_
  refine (gives_coin (P := fun interface : Option String =>
      (interface.elim 0 fun interface => 4 + (utf8 interface).length) ≤ 4 + 102399)
    (fun _ _ => (gives_genText (by decide)).bind fun iface _ h _ => gives_pure ?_)
    fun _ _ => gives_pure (Nat.zero_le _)).bind fun interface _ hinterface _ => ?_
  · exact Nat.add_le_add_left h 4
  refine (gives_genText (by decide)).bind fun implementation _ himplementation _ => gives_pure ?_
  simp only [Component.size]
  omega

theorem gives_mutateComponent (data : Component) :
    Gives (mutateComponent data) (fun c => c.size ≤ maxComponentSize data) s := by
  refine (gives_coin (P := fun name => (utf8 name).length ≤ max 1023 (utf8 data.name).length)
    (fun _ _ => (gives_genText (by decide)).mono fun _ h => h.trans (Nat.le_max_left _ _))
    fun _ _ => gives_pure (Nat.le_max_right _ _)).bind fun name t hname _ => ?_
  have hinterface : Gives (mutateInterface data.interface) (fun interface : Option String =>
      (interface.elim 0 fun interface => 4 + (utf8 interface).length) ≤
        max (4 + 102399) (data.interface.elim 0 fun interface => 4 + (utf8 interface).length)) t := by
    refine (gives_genRange (by decide)).bind fun choice _ _ _ => ?_
    split
    next =>
      refine (gives_genText (by decide)).bind fun iface _ h _ => gives_pure ?_
      exact (Nat.add_le_add_left h 4).trans (Nat.le_max_left _ _)
    next => exact gives_pure (Nat.zero_le _)
    next => exact gives_pure (Nat.le_max_right _ _)
  refine hinterface.bind fun interface _ hinterface _ => ?_
  refine (gives_coin (P := fun text => (utf8 text).length ≤ max 102399 (utf8 data.implementation).length)
    (fun _ _ => (gives_genText (by decide)).mono fun _ h => h.trans (Nat.le_max_left _ _))
    fun _ _ => gives_pure (Nat.le_max_right _ _)).bind fun implementation _ himplementation _ =>
      gives_pure ?_
  exact Nat.add_le_add (Nat.add_le_add (Nat.add_le_add_left hname 9) hinterface) himplementation

theorem gives_mapEach {f : T → Gen U} {R : T → U → Prop} {l : List T}
    (h : ∀ a ∈ l, ∀ t, Keeps s t → Gives (f a) (R a) t) :
    Gives (Exec.mapEach f l) (List.Forall₂ R l) s := by
  induction l generalizing s with
  | nil => exact gives_pure .nil
  | cons a rest ih =>
      refine (h a List.mem_cons_self s (.refl s)).bind fun b t hb ht => ?_
      have hrest : ∀ a ∈ rest, ∀ u, Keeps t u → Gives (f a) (R a) u :=
        fun a ha u hu => h a (List.mem_cons_of_mem _ ha) u (ht.trans hu)
      exact (ih hrest).bind fun bs _ hbs _ => gives_pure (.cons hb hbs)

theorem sum_le_sum_of_forall₂ {f : U → Nat} {g : T → Nat} {l : List T} {l' : List U}
    (h : List.Forall₂ (fun a b => f b ≤ g a) l l') : (l'.map f).sum ≤ (l.map g).sum := by
  induction h with
  | nil => exact Nat.le_refl 0
  | cons hle _ ih => exact Nat.add_le_add hle ih

/-- The components come out of the size of the protocol. -/
theorem gives_genComponents {fuel remaining : Nat} {components : List Component}
    (hfuel : remaining < fuel) : Gives (genComponents fuel remaining components) (fun l =>
      (l.map Component.size).sum ≤ (components.map Component.size).sum + remaining) s := by
  induction fuel generalizing remaining components s with
  | zero => omega
  | succ fuel ih =>
      rw [genComponents]
      refine gives_genComponent.bind fun component _ hsize _ => ?_
      obtain ⟨b, hb, hlen⟩ := encodes_of_writable Component.schema
        (Schema.wf_of_check _ (by decide +kernel)) component.writable
        (component.schema_size.trans_lt hsize)
      rw [component.schema_size] at hlen
      refine (gives_unwrap (P := fun b => b.length = component.size) ⟨b, asBytes_iff.mpr hb, hlen⟩).bind
        fun bytes _ hbytes _ => ?_
      split
      next => exact gives_pure (Nat.le_add_right _ _)
      next hle =>
        have hpos : 9 ≤ component.size := by
          rw [Component.size]
          omega
        refine (ih (by omega)).mono fun l hl => ?_
        rw [List.map_append, List.sum_append, List.map_singleton, List.sum_singleton] at hl
        omega

theorem gives_genProtocolMessage (h : ∀ m, s.protocol = some m →
      (m.protocol.components.map maxComponentSize).sum ≤ PROTOCOL_COMPONENT_MAX_SIZE) :
    Gives genProtocolMessage (fun m => ProtocolMessage.schema.Writable m.toVal) s := by
  refine (gives_gets protocol).bind fun r _ hr _ => ?_
  subst hr
  split
  next data hdata =>
    refine (gives_coin (P := fun _ => True) (fun _ _ => gives_pure trivial)
      fun _ _ => gives_genT).bind fun version _ _ _ => ?_
    refine (gives_mapEach fun c _ _ _ => gives_mutateComponent c).bind fun components _ hall _ =>
      gives_pure ?_
    have hsum := sum_le_sum_of_forall₂ hall
    exact ⟨Protocol.writable_iff.mpr (hsum.trans (h data hdata)), trivial⟩
  next =>
    refine gives_genT.bind fun version _ _ _ => ?_
    refine (gives_genComponents (Nat.lt_succ_self _)).bind fun components _ hsum _ => gives_pure ?_
    rw [List.map_nil, List.sum_nil, Nat.zero_add] at hsum
    exact ⟨Protocol.writable_iff.mpr hsum, trivial⟩

/-! ## All kinds -/

/-- A message of the kind can be pushed, whatever is drawn.  A branch or a block header that
was received has to be one that can be mutated, and every component of a protocol that was
received is taken at the largest size it can be mutated to.  A head that was received never
can be pushed: its mutated mempool can hold `MEMPOOL_MAX_OPERATIONS` operations. -/
def Pushable (s : RandomState) : MessageKind → Prop
  | .currentBranch => ∀ m, s.currentBranch = some m → Mutable s.fitnessCount m.currentBranch.currentHead
  | .currentHead => s.currentHead = none
  | .blockHeader => ∀ m, s.blockHeader = some m → Mutable s.fitnessCount m.blockHeader
  | .protocol => ∀ m, s.protocol = some m →
      (m.protocol.components.map maxComponentSize).sum ≤ PROTOCOL_COMPONENT_MAX_SIZE
  | _ => True

theorem counts_gen [Blake2b] (stored : Stored s) (kind : MessageKind) (h : s.Pushable kind) :
    Counts kind.gen PeerMessage.Sendable s := by
  cases kind with
  | disconnect => exact (gives_pure ⟨⟨.inr rfl, trivial⟩, trivial⟩).counts
  | bootstrap => exact (gives_pure ⟨⟨.inr rfl, trivial⟩, trivial⟩).counts
  | advertise =>
      exact (gives_genAdvertiseMessage.map fun m hm => ⟨⟨.inr rfl, hm⟩, trivial⟩).counts
  | swapRequest => exact (gives_genSwapMessage.map fun m hm => ⟨⟨.inr rfl, hm⟩, trivial⟩).counts
  | swapAck => exact (gives_genSwapMessage.map fun m hm => ⟨⟨.inr rfl, hm⟩, trivial⟩).counts
  | getCurrentBranch =>
      exact (gives_genChainIdMessage.map fun m hm => ⟨⟨.inr rfl, hm⟩, trivial⟩).counts
  | currentBranch =>
      exact (counts_genCurrentBranchMessage stored h).map fun m hm => ⟨⟨.inr rfl, hm⟩, trivial⟩
  | deactivate => exact (gives_genChainIdMessage.map fun m hm => ⟨⟨.inr rfl, hm⟩, trivial⟩).counts
  | getCurrentHead =>
      exact (gives_genChainIdMessage.map fun m hm => ⟨⟨.inr rfl, hm⟩, trivial⟩).counts
  | currentHead =>
      exact ((gives_genCurrentHeadMessage h).map fun m hm => ⟨⟨.inr rfl, hm⟩, trivial⟩).counts
  | getBlockHeaders =>
      exact ((gives_genHashesMessage _ (by decide) (by decide)).map
        fun m hm => ⟨⟨.inr rfl, hm⟩, trivial⟩).counts
  | blockHeader =>
      exact (counts_genBlockHeaderMessage stored h).map fun m hm => ⟨⟨.inr rfl, hm⟩, trivial⟩
  | getOperations =>
      exact ((gives_genHashesMessage _ (by decide) (by decide)).map
        fun m hm => ⟨⟨.inr rfl, hm⟩, trivial⟩).counts
  | operation =>
      exact ((gives_genOperationMessage stored).map fun m hm => ⟨⟨.inr rfl, hm⟩, trivial⟩).counts
  | getProtocols =>
      exact ((gives_genHashesMessage _ (by decide) (by decide)).map
        fun m hm => ⟨⟨.inr rfl, hm⟩, trivial⟩).counts
  | protocol =>
      exact ((gives_genProtocolMessage h).map fun m hm => ⟨⟨.inr rfl, hm⟩, trivial⟩).counts
  | getOperationsForBlocks =>
      exact ((gives_genGetOperationsForBlocksMessage stored).map
        fun m hm => ⟨⟨.inr rfl, hm⟩, trivial⟩).counts
  | operationsForBlocks =>
      exact ((gives_genOperationsForBlocksMessage stored).map fun m hm =>
        ⟨⟨.inr rfl, OperationsForBlocksMessage.writable_iff.mpr hm.1⟩, hm.2⟩).counts

/-- A message that can be pushed is made, and can be sent. -/
theorem gen_of_pushable [Blake2b] (stored : Stored s) {kind : MessageKind} (h : s.Pushable kind) :
    ∃ m t, kind.gen s = (.ok m, t) ∧ (∃ b, (PeerMessageResponse.mk m).asBytes = .ok b) ∧
      t.received = s.received := by
  obtain ⟨m, t, hgen, hm, ht⟩ := (counts_gen stored kind h).returns
  exact ⟨m, t, hgen, hm.asBytes, ht⟩

/-! ## Made up messages -/

/-- No message was received. -/
def Fresh (s : RandomState) : Prop := s.received = (none, none, none, none, none, none)

theorem Fresh.stored (h : s.Fresh) : s.Stored := by
  simp only [Fresh, received, Prod.mk.injEq] at h
  obtain ⟨hbranch, hhead, hheader, hoperation, _, hoperations⟩ := h
  constructor <;> simp [hbranch, hhead, hheader, hoperation, hoperations]

theorem Fresh.pushable (h : s.Fresh) (kind : MessageKind) : s.Pushable kind := by
  simp only [Fresh, received, Prod.mk.injEq] at h
  obtain ⟨hbranch, hhead, hheader, _, hprotocol, _⟩ := h
  cases kind <;> simp [Pushable, hbranch, hhead, hheader, hprotocol]

/-- Every kind of message is made up, whatever is drawn, and can be sent. -/
theorem gen_fresh [Blake2b] {s : RandomState} (h : s.Fresh) (kind : MessageKind) :
    ∃ m t, kind.gen s = (.ok m, t) ∧ ∃ b, (PeerMessageResponse.mk m).asBytes = .ok b := by
  obtain ⟨m, t, hgen, hbytes, _⟩ := gen_of_pushable h.stored (h.pushable kind)
  exact ⟨m, t, hgen, hbytes⟩

/-- A hash function for a run that hashes nothing. -/
@[reducible] def unusedDigest : Blake2b := ⟨fun _ => List.replicate 32 0, fun _ => rfl⟩

/-- Addresses are made up in a new state. -/
theorem gen_fresh_new : (new ⟨fun n => 7 * n⟩ 10 100).Fresh ∧
    ∃ m t, @MessageKind.gen unusedDigest .advertise (new ⟨fun n => 7 * n⟩ 10 100) = (.ok m, t) ∧
      ∃ b, (PeerMessageResponse.mk m).asBytes = .ok b :=
  have hfresh : (new ⟨fun n => 7 * n⟩ 10 100).Fresh := rfl
  ⟨hfresh, @gen_fresh unusedDigest _ hfresh .advertise⟩

end RandomState

end NodeFuzzer
