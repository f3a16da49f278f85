import NodeFuzzer.Generator.Pushed

/-!
# The cache of blocks under sharing

Clones of a `RandomState` share it behind a lock, which a call of `gen` takes anew for
every draw and for every use of the map of blocks: `Clone.step` is what is done under one
lock.  A clone compares the size of the map in a copy of the state, and takes the lock again
to remove a block, and again to insert one.  A clone that nobody disturbs does what the
generator of a whole branch does (`runs_genCurrentBranch`), and no clone ever panics
(`Clones.Runs.fine`).  The map stays within its limit as long as a clone only takes its copy when
there is room for all that are inserted meanwhile (`blocks_bounded`).
-/

namespace NodeFuzzer

/-! ## Draws under locks of their own -/

namespace Draw

/-- `Generator<HashKind<T>>`. -/
def genHash (t : HashType) : Draw (TypedHash t) := do
  let bytes ← genVec UInt8 t.size
  orAbort (TypedHash.tryFromBytes t bytes)

/-- A number of hashes. -/
def genHashes (t : HashType) (count : Nat) : Draw (List Bytes) :=
  collect count do
    let hash ← genHash t
    pure hash.val

/-- The loop that makes up a fitness. -/
def genFitnessLoop : Nat → Nat → Nat → List Bytes → Draw (List Bytes × Nat)
  | 0, _, _, _ => abort
  | fuel + 1, remainingFitnessSize, remaining, fitness => do
      let elementSize ← genRange 1 28
      let element ← genVec UInt8 elementSize
      if elementSize + 4 > remainingFitnessSize then pure (fitness, remaining)
      else do
        let remaining ← orAbort (subUsize remaining (elementSize + 4))
        genFitnessLoop fuel (remainingFitnessSize - (elementSize + 4)) remaining (fitness ++ [element])

/-- The size of protocol data that is made up. -/
def genDataLen (remaining : Nat) : Draw Nat :=
  if remaining > 1 then genRange 1 remaining else pure remaining

/-- `Generator<block_header::BlockHeaderBuilder>`. -/
def genBlockHeader : Draw BlockHeader := do
  let (fitness, remaining) ← genFitnessLoop 29 28 (BLOCK_HEADER_MAX_SIZE - 0x1000) []
  let dataLen ← genDataLen remaining
  let predecessor ← genHash .blockHash
  let operationsHash ← genHash .operationListListHash
  let context ← genHash .contextHash
  let level ← genT Int32
  let proto ← genT UInt8
  let timestamp ← genT Int64
  let validationPass ← genT UInt8
  let protocolData ← genVec UInt8 dataLen
  pure ⟨level, proto, predecessor.val, timestamp, validationPass, operationsHash.val, fitness,
    context.val, protocolData⟩

/-- What is drawn for a branch: its history and a block. -/
def genHistoryAndBlock : Draw (List Bytes × BlockHeader) := do
  let historyLen ← genRange 0 CURRENT_BRANCH_HISTORY_MAX_LENGTH
  let history ← genHashes .blockHash (historyLen - 1)
  let block ← genBlockHeader
  pure (history, block)

end Draw

namespace RandomState

variable {T U : Type}

@[simp] theorem ofDraw_genHash (t : HashType) : ofDraw (Draw.genHash t) = genHash t := by
  simp only [Draw.genHash, genHash, ofDraw_bind, ofDraw_genVec, ofDraw_orAbort]

@[simp] theorem ofDraw_genHashes (t : HashType) (count : Nat) :
    ofDraw (Draw.genHashes t count) = genHashes t count := by
  rw [Draw.genHashes, ofDraw_collect, genHashes, ofDraw_bind, ofDraw_genHash]
  rfl

@[simp] theorem ofDraw_genFitnessLoop (fuel budget remaining : Nat) (fitness : List Bytes) :
    ofDraw (Draw.genFitnessLoop fuel budget remaining fitness) =
      genFitnessLoop fuel budget remaining fitness := by
  induction fuel generalizing budget remaining fitness with
  | zero => rfl
  | succ fuel ih =>
      simp only [Draw.genFitnessLoop, genFitnessLoop, ofDraw_bind, ofDraw_genRange, ofDraw_genVec]
      refine congrArg _ (funext fun elementSize => congrArg _ (funext fun element => ?_))
      split
      next => rfl
      next =>
        rw [ofDraw_bind, ofDraw_orAbort]
        exact congrArg _ (funext fun _ => ih _ _ _)

@[simp] theorem ofDraw_genDataLen (remaining : Nat) :
    ofDraw (Draw.genDataLen remaining) = genDataLen remaining := by
  unfold Draw.genDataLen genDataLen
  split
  next => exact ofDraw_genRange 1 remaining
  next => rfl

@[simp] theorem ofDraw_genBlockHeader : ofDraw Draw.genBlockHeader = genBlockHeader := by
  simp only [Draw.genBlockHeader, genBlockHeader, ofDraw_bind, ofDraw_genFitnessLoop,
    ofDraw_genDataLen, ofDraw_genHash, ofDraw_genT, ofDraw_genVec, ofDraw_pure]

theorem ofDraw_genHistoryAndBlock : ofDraw Draw.genHistoryAndBlock = (do
    let historyLen ← genRange 0 CURRENT_BRANCH_HISTORY_MAX_LENGTH
    let history ← genHashes .blockHash (historyLen - 1)
    let block ← genBlockHeader
    pure (history, block) : Gen (List Bytes × BlockHeader)) := by
  simp only [Draw.genHistoryAndBlock, ofDraw_bind, ofDraw_genRange, ofDraw_genHashes,
    ofDraw_genBlockHeader, ofDraw_pure]

/-- Blocks that are made up can be written, whatever is drawn. -/
theorem all_genHistoryAndBlock :
    Draw.genHistoryAndBlock.All fun p => p.2.Fits := by
  refine Draw.all_of_run (ε := Empty) fun r => ?_
  have spec : Gives (ofDraw Draw.genHistoryAndBlock) (fun p => p.2.Fits)
      (RandomState.new r 0 0) := by
    rw [ofDraw_genHistoryAndBlock]
    refine (gives_genRange (by decide)).bind fun historyLen _ _ _ => ?_
    refine (gives_genHashes .blockHash _).bind fun history _ _ _ => ?_
    exact gives_genBlockHeader.bind fun block _ hblock _ => gives_pure hblock
  rw [Gives, ofDraw, draws] at spec
  have drawn := (Exec.wp_onPart _ _).mp spec
  exact Exec.wp_mono drawn (fun _ _ h => h.1) fun _ h => h

end RandomState

/-! ## Clones -/

/-- Where a clone is: what it does under the lock it takes next. -/
inductive Clone where
  /-- Between two calls of `gen`; the last one returned a branch. -/
  | idle (last : Option CurrentBranch)
  | draws (rest : Nat → Draw (List Bytes × BlockHeader))
  | readsLastBlock (history : List Bytes) (block : BlockHeader)
  | copiesState (history : List Bytes) (newBlock : BlockHeader) (hash : TypedHash .blockHash)
  | removes (key : TypedHash .blockHash) (history : List Bytes) (newBlock : BlockHeader)
      (hash : TypedHash .blockHash)
  | inserts (history : List Bytes) (newBlock : BlockHeader) (hash : TypedHash .blockHash)
  | setsLastBlock (history : List Bytes) (newBlock : BlockHeader) (hash : TypedHash .blockHash)
  | panicked

namespace Clone

/-- Go on to the next draw, or to what comes behind the last one. -/
def ofDraw : Draw (List Bytes × BlockHeader) → Clone
  | .ret (history, block) => .readsLastBlock history block
  | .abort => .panicked
  | .draw rest => .draws rest

section

variable [Blake2b]

/-- `block_hash`, which needs no lock. -/
def blockHash (bh : BlockHeader) : Option (TypedHash .blockHash) :=
  match asBytes BlockHeader.schema bh.toVal with
  | .ok bytes => TypedHash.tryFromBytes .blockHash (Blake2b.digest256 bytes)
  | .error _ => none

/-- What a clone does under one lock in `Generator<current_branch::CurrentBranch>`, and up to the
next one. -/
def step : Clone → RandomState → Clone × RandomState
  | idle _, s => (ofDraw Draw.genHistoryAndBlock, s)
  | draws rest, s =>
      (ofDraw (rest (s.rng.draws 0)), { s with rng := ⟨fun n => s.rng.draws (n + 1)⟩ })
  | readsLastBlock history block, s =>
      let newBlock : BlockHeader := { block with predecessor := s.lastBlock.val }
      match blockHash newBlock with
      | some hash => (copiesState history newBlock hash, s)
      | none => (panicked, s)
  | copiesState history newBlock hash, s =>
      if s.blocksLimit = 0 then (setsLastBlock history newBlock hash, s)
      else if s.blocks.length = s.blocksLimit then
        -- `arbitrary_key[0]` of a map without keys is a panic.
        match RandomState.arbitraryKey s.blocks (s.rng.draws 0) with
        | some key =>
            (removes key history newBlock hash, { s with rng := ⟨fun n => s.rng.draws (n + 1)⟩ })
        | none => (panicked, s)
      else (inserts history newBlock hash, s)
  | removes key history newBlock hash, s =>
      (inserts history newBlock hash,
        { s with blocks := s.blocks.filter fun entry => entry.1.val ≠ key.val })
  | inserts history newBlock hash, s =>
      (setsLastBlock history newBlock hash,
        { s with blocks := (hash, newBlock) ::
            s.blocks.filter fun entry => entry.1.val ≠ hash.val })
  | setsLastBlock history newBlock hash, s =>
      (idle (some ⟨newBlock, history⟩), { s with lastBlock := hash })
  | panicked, s => (panicked, s)

end

/-- The clone compared the size of the map, and has not inserted its block yet. -/
def pending : Clone → Bool
  | removes .. | inserts .. => true
  | _ => false

end Clone

/-- A state that is shared, and its clones. -/
structure Clones where
  shared : RandomState
  clones : List Clone

/-- A clone goes on up to its next lock, or there is one more. -/
inductive CloneMove where
  | step (clone : Nat)
  | clone
deriving DecidableEq

namespace Clones

/-- A state that has just been made, with no clone that does anything. -/
def start (rng : Rng) (blocksLimit maxChunkSize : Nat) : Clones :=
  ⟨.new rng blocksLimit maxChunkSize, []⟩

/-- The clones that compared the size of the map and have not inserted their blocks yet. -/
def pending (c : Clones) : Nat := c.clones.countP Clone.pending

/-- A clone only compares the size of the map when no other one is about to insert a block, or
when there is room for all their blocks and its own. -/
def Exclusive (c : Clones) : CloneMove → Prop
  | .step i =>
      match c.clones[i]? with
      | some (.copiesState ..) =>
          c.pending = 0 ∨ c.shared.blocks.length + c.pending < c.shared.blocksLimit
      | _ => True
  | .clone => True

variable [Blake2b]

/-- The next state. -/
def act (c : Clones) : CloneMove → Clones
  | .step i =>
      match c.clones[i]? with
      | some clone => ⟨(clone.step c.shared).2, c.clones.set i (clone.step c.shared).1⟩
      | none => c
  | .clone => ⟨c.shared, c.clones ++ [.idle none]⟩

/-- A run in which each move meets `P` where it is made. -/
def Runs (P : Clones → CloneMove → Prop) : Clones → Clones → Prop :=
  Relation.ReflTransGen fun c c' => ∃ move, P c move ∧ c.act move = c'

/-- The state after some moves. -/
def after (c : Clones) (moves : List CloneMove) : Clones := moves.foldl act c

end Clones

/-! ## No clone panics -/

section Panics

variable [Blake2b]

theorem Clone.blockHash_eq (bh : BlockHeader) :
    RandomState.blockHash bh = Exec.orAbort (blockHash bh) := by
  unfold RandomState.blockHash blockHash
  cases asBytes BlockHeader.schema bh.toVal <;> rfl

theorem Clone.blockHash_isSome {h : BlockHeader} (fits : h.Fits) :
    ∃ hash, blockHash h = some hash := by
  have gives := @RandomState.gives_blockHash (.new ⟨id⟩ 0 0) _ h fits
  obtain ⟨hash, _, run, _⟩ := gives.returns
  rw [blockHash_eq] at run
  exact ⟨hash, (Exec.of_orAbort_ok run).1⟩

/-- What a clone that does not panic holds. -/
def Clone.Fine : Clone → Prop
  | draws rest => ∀ n, (rest n).All fun p => p.2.Fits
  | readsLastBlock _ block => block.Fits
  | panicked => False
  | _ => True

omit [Blake2b] in
theorem Clone.fine_ofDraw {x : Draw (List Bytes × BlockHeader)} (h : x.All fun p => p.2.Fits) :
    (ofDraw x).Fine := by
  cases x with
  | ret p => exact h
  | abort => exact h
  | draw rest => exact h

/-- Whatever the others did to the state. -/
theorem Clone.Fine.step {c : Clone} (fine : c.Fine) (s : RandomState) : (c.step s).1.Fine := by
  cases c with
  | idle last => exact fine_ofDraw RandomState.all_genHistoryAndBlock
  | draws rest => exact fine_ofDraw (fine _)
  | readsLastBlock history block =>
      obtain ⟨hash, h⟩ := blockHash_isSome (RandomState.fits_of_predecessor fine s.lastBlock)
      simp only [Clone.step, h]
      trivial
  | copiesState history newBlock hash =>
      simp only [Clone.step]
      split
      next => trivial
      next limited =>
        split
        next full =>
          have some : s.blocks ≠ [] := by
            intro none
            rw [none] at full
            exact limited full.symm
          obtain ⟨key, found⟩ := RandomState.arbitraryKey_isSome some (s.rng.draws 0)
          rw [found]
          trivial
        next => trivial
  | removes => trivial
  | inserts => trivial
  | setsLastBlock => trivial
  | panicked => exact fine.elim

namespace Clones

theorem fine_act {c : Clones} (fine : ∀ clone ∈ c.clones, clone.Fine) (move : CloneMove) :
    ∀ clone ∈ (c.act move).clones, clone.Fine := by
  cases move with
  | step i =>
      cases hi : c.clones[i]? with
      | none =>
          simp only [act, hi]
          exact fine
      | some clone =>
          simp only [act, hi]
          intro clone' mem
          rcases List.mem_or_eq_of_mem_set mem with old | rfl
          · exact fine _ old
          · exact (fine _ (List.mem_of_getElem? hi)).step c.shared
  | clone =>
      intro clone' mem
      rcases List.mem_append.mp mem with old | new
      · exact fine _ old
      · cases List.mem_singleton.mp new
        trivial

theorem runs_after (c : Clones) (moves : List CloneMove) :
    Runs (fun _ _ => True) c (c.after moves) := by
  induction moves generalizing c with
  | nil => exact .refl
  | cons move moves ih => exact .head ⟨move, trivial, rfl⟩ (ih (c.act move))

/-- However the clones take the lock, none panics. -/
theorem Runs.fine {P : Clones → CloneMove → Prop} {c c' : Clones} (runs : Runs P c c')
    (fine : ∀ clone ∈ c.clones, clone.Fine) : ∀ clone ∈ c'.clones, clone.Fine := by
  induction runs with
  | refl => exact fine
  | tail _ move ih =>
      obtain ⟨move, _, rfl⟩ := move
      exact fine_act ih move

theorem Runs.no_panic {P : Clones → CloneMove → Prop} {rng : Rng} {blocksLimit maxChunkSize : Nat}
    {c : Clones} (runs : Runs P (start rng blocksLimit maxChunkSize) c) :
    Clone.panicked ∉ c.clones := by
  have fine := runs.fine fun clone mem => by cases mem
  exact fun mem => fine _ mem

end Clones

end Panics

/-! ## A clone that nobody disturbs -/

namespace Clones

theorem pending_set {c : Clones} {i : Nat} {clone : Clone} (hi : c.clones[i]? = some clone)
    (clone' : Clone) :
    (c.clones.set i clone').countP Clone.pending + (if clone.pending then 1 else 0) =
      c.pending + if clone'.pending then 1 else 0 := by
  obtain ⟨lt, rfl⟩ := List.getElem?_eq_some_iff.mp hi
  have positive : c.clones[i].pending = true → 0 < c.clones.countP Clone.pending :=
    fun h => List.countP_pos_iff.mpr ⟨_, List.getElem_mem lt, h⟩
  rw [pending, List.countP_set lt]
  cases h : c.clones[i].pending with
  | true =>
      have := positive h
      simp only [if_true]
      omega
  | false => simp

end Clones

section Undisturbed

variable [Blake2b]

theorem Clone.step_readsLastBlock (history : List Bytes) {block : BlockHeader} {s : RandomState}
    {hash : TypedHash .blockHash}
    (h : blockHash { block with predecessor := s.lastBlock.val } = some hash) :
    (readsLastBlock history block).step s =
      (.copiesState history { block with predecessor := s.lastBlock.val } hash, s) := by
  simp only [step, h]

namespace Clones

variable {l : List Clone} {i : Nat}

/-- One of some clones is somewhere in a call. -/
def doing (l : List Clone) (i : Nat) (clone : Clone) (s : RandomState) : Clones := ⟨s, l.set i clone⟩

/-- No other clone is about to insert a block. -/
structure Undisturbed (l : List Clone) (i : Nat) : Prop where
  inside : i < l.length
  quiet : (l.set i (.idle none)).countP Clone.pending = 0

/-- A clone that nobody disturbs may go on at any time. -/
theorem runs_doing (alone : Undisturbed l i) (clone : Clone) (s : RandomState) :
    Runs Exclusive (doing l i clone s) (doing l i (clone.step s).1 (clone.step s).2) := by
  have here : ∀ clone, (l.set i clone)[i]? = some clone :=
    fun clone => List.getElem?_set_self alone.inside
  refine .single ⟨.step i, ?_, ?_⟩
  · rw [Exclusive, doing, here]
    cases clone with
    | copiesState history newBlock hash =>
        have count := pending_set (c := doing l i (.idle none) s) (here _)
          (.copiesState history newBlock hash)
        simp only [doing, List.set_set, pending, alone.quiet] at count
        exact Or.inl (by simpa [pending, Clone.pending] using count)
    | _ => trivial
  · simp only [act, doing, here, List.set_set]

theorem runs_ofDraw (alone : Undisturbed l i) {x : Draw (List Bytes × BlockHeader)}
    {s s' : RandomState} {history : List Bytes} {block : BlockHeader}
    (h : RandomState.ofDraw x s = (.ok (history, block), s')) :
    Runs Exclusive (doing l i (Clone.ofDraw x) s) (doing l i (.readsLastBlock history block) s') := by
  induction x generalizing s with
  | ret p =>
      cases h
      exact .refl
  | abort => cases h
  | draw rest ih => exact (runs_doing alone (.draws rest) s).trans (ih _ h)

/-- What `genCurrentBranch` does once all is drawn. -/
theorem genCurrentBranch_of_draws : RandomState.genCurrentBranch =
    RandomState.ofDraw Draw.genHistoryAndBlock >>= fun p => (do
      let predecessor ← Exec.gets RandomState.lastBlock
      let newBlock : BlockHeader := { p.2 with predecessor := predecessor.val }
      let hash ← RandomState.blockHash newBlock
      RandomState.insertBlock hash newBlock
      Exec.modify fun s => { s with lastBlock := hash }
      pure ⟨newBlock, p.1⟩ : Gen CurrentBranch) := by
  rw [RandomState.ofDraw_genHistoryAndBlock]
  simp only [Exec.bind_assoc]
  rfl

/-- The three locks of the map, one after the other. -/
theorem runs_insertBlock (alone : Undisturbed l i) {s s' : RandomState} {history : List Bytes}
    {newBlock : BlockHeader} {hash : TypedHash .blockHash}
    (h : RandomState.insertBlock hash newBlock s = (.ok (), s')) :
    Runs Exclusive (doing l i (.copiesState history newBlock hash) s)
      (doing l i (.setsLastBlock history newBlock hash) s') := by
  have copied := runs_doing alone (.copiesState history newBlock hash) s
  simp only [Clone.step] at copied
  obtain ⟨state, t, got, h⟩ := Exec.of_bind_ok h
  cases got
  split at copied
  next unlimited =>
    rw [id, if_pos unlimited] at h
    cases h
    exact copied
  next limited =>
    rw [id, if_neg limited] at h
    obtain ⟨_, t, roomed, inserted⟩ := Exec.of_bind_ok h
    cases inserted
    refine Relation.ReflTransGen.trans ?_ (runs_doing alone (.inserts history newBlock hash) t)
    rw [RandomState.makeRoom] at roomed
    split at copied
    next full =>
      rw [if_pos full] at roomed
      obtain ⟨place, t, drawn, roomed⟩ := Exec.of_bind_ok roomed
      cases drawn
      obtain ⟨key, t, found, removed⟩ := Exec.of_bind_ok roomed
      obtain ⟨chosen, here⟩ := Exec.of_orAbort_ok found
      rw [here] at removed
      cases removed
      rw [chosen] at copied
      exact copied.trans (runs_doing alone (.removes key history newBlock hash) _)
    next room =>
      rw [if_neg room] at roomed
      cases roomed
      exact copied

/-- A clone that nobody disturbs does what the generator of a whole branch does. -/
theorem runs_genCurrentBranch (alone : Undisturbed l i) {s s' : RandomState} {branch : CurrentBranch}
    (h : RandomState.genCurrentBranch s = (.ok branch, s')) (last : Option CurrentBranch) :
    Runs Exclusive (doing l i (.idle last) s) (doing l i (.idle (some branch)) s') := by
  rw [genCurrentBranch_of_draws] at h
  obtain ⟨⟨history, block⟩, s₁, drawn, h⟩ := Exec.of_bind_ok h
  have drew := (runs_doing alone (.idle last) s).trans (runs_ofDraw alone drawn)
  have got : (Exec.gets RandomState.lastBlock : Gen _) s₁ = (.ok s₁.lastBlock, s₁) := rfl
  rw [Exec.bind_ok got] at h
  obtain ⟨hash, s₂, hashed, h⟩ := Exec.of_bind_ok h
  rw [Clone.blockHash_eq] at hashed
  obtain ⟨hashed, here⟩ := Exec.of_orAbort_ok hashed
  rw [here] at h
  obtain ⟨_, s₃, inserted, h⟩ := Exec.of_bind_ok h
  cases h
  have read := runs_doing alone (.readsLastBlock history block) s₁
  rw [Clone.step_readsLastBlock history hashed] at read
  exact (drew.trans read).trans ((runs_insertBlock alone inserted).trans (runs_doing alone _ _))

end Clones

end Undisturbed

/-! ## The size of the map -/

section Bound

variable [Blake2b]

/-- What one step of a clone means to the map and to the clones that are about to insert. -/
inductive Clone.Moved (c : Clone) (s : RandomState) : Clone → RandomState → Prop
  | quiet {c' : Clone} {s' : RandomState} (was : c.pending = false) (now : c'.pending = false)
      (blocks : s'.blocks = s.blocks) : Clone.Moved c s c' s'
  | willRemove {key hash : TypedHash .blockHash} {history : List Bytes} {newBlock : BlockHeader}
      {s' : RandomState} (from_ : c = .copiesState history newBlock hash)
      (full : s.blocks.length = s.blocksLimit) (mem : ∃ block, (key, block) ∈ s.blocks)
      (blocks : s'.blocks = s.blocks) : Clone.Moved c s (.removes key history newBlock hash) s'
  | willInsert {hash : TypedHash .blockHash} {history : List Bytes} {newBlock : BlockHeader}
      (from_ : c = .copiesState history newBlock hash) (room : s.blocks.length ≠ s.blocksLimit) :
      Clone.Moved c s (.inserts history newBlock hash) s
  | removed {key hash : TypedHash .blockHash} {history : List Bytes} {newBlock : BlockHeader}
      {s' : RandomState} (from_ : c = .removes key history newBlock hash)
      (blocks : s'.blocks = s.blocks.filter fun entry => entry.1.val ≠ key.val) :
      Clone.Moved c s (.inserts history newBlock hash) s'
  | inserted {hash : TypedHash .blockHash} {history : List Bytes} {newBlock : BlockHeader}
      {c' : Clone} {s' : RandomState} (from_ : c = .inserts history newBlock hash)
      (now : c'.pending = false) (blocks : s'.blocks.length ≤ s.blocks.length + 1) :
      Clone.Moved c s c' s'

omit [Blake2b] in
@[simp] theorem Clone.pending_removes (key : TypedHash .blockHash) (history : List Bytes)
    (newBlock : BlockHeader) (hash : TypedHash .blockHash) :
    (removes key history newBlock hash).pending = true := rfl

omit [Blake2b] in
@[simp] theorem Clone.pending_inserts (history : List Bytes) (newBlock : BlockHeader)
    (hash : TypedHash .blockHash) : (inserts history newBlock hash).pending = true := rfl

omit [Blake2b] in
@[simp] theorem Clone.pending_copiesState (history : List Bytes) (newBlock : BlockHeader)
    (hash : TypedHash .blockHash) : (copiesState history newBlock hash).pending = false := rfl

omit [Blake2b] in
theorem Clone.pending_ofDraw (x : Draw (List Bytes × BlockHeader)) : (ofDraw x).pending = false := by
  cases x <;> rfl

theorem Clone.step_blocksLimit (c : Clone) (s : RandomState) :
    (c.step s).2.blocksLimit = s.blocksLimit := by
  cases c with
  | readsLastBlock history block =>
      simp only [Clone.step]
      split <;> rfl
  | copiesState history newBlock hash =>
      simp only [Clone.step]
      split
      next => rfl
      next =>
        split
        next => split <;> rfl
        next => rfl
  | _ => rfl

theorem Clone.step_moved (c : Clone) {s : RandomState} (limited : s.blocksLimit ≠ 0) :
    Clone.Moved c s (c.step s).1 (c.step s).2 := by
  cases c with
  | idle last => exact .quiet rfl (pending_ofDraw Draw.genHistoryAndBlock) rfl
  | draws rest => exact .quiet rfl (pending_ofDraw (rest (s.rng.draws 0))) rfl
  | readsLastBlock history block =>
      simp only [Clone.step]
      split <;> exact .quiet rfl rfl rfl
  | copiesState history newBlock hash =>
      simp only [Clone.step, if_neg limited]
      split
      next full =>
        cases found : RandomState.arbitraryKey s.blocks (s.rng.draws 0) with
        | none => exact .quiet rfl rfl rfl
        | some key => exact .willRemove rfl full (RandomState.mem_of_arbitraryKey found) rfl
      next room => exact .willInsert rfl room
  | removes key history newBlock hash => exact .removed rfl rfl
  | inserts history newBlock hash =>
      refine .inserted rfl rfl ?_
      exact Nat.succ_le_succ (List.length_filter_le _ _)
  | setsLastBlock history newBlock hash => exact .quiet rfl rfl rfl
  | panicked => exact .quiet rfl rfl rfl

namespace Clones

/-- The map and all blocks that are about to be inserted fit into the limit, or the map is full and
the only clone that is about to insert a block removes one of the map before. -/
inductive Room (n : Nat) (c : Clones) : Prop
  | free (fits : c.shared.blocks.length + c.pending ≤ n)
      (noneRemoves : ∀ (i : Nat) key history newBlock hash,
        c.clones[i]? ≠ some (.removes key history newBlock hash)) : Room n c
  | full {i : Nat} {key hash : TypedHash .blockHash} {history : List Bytes} {newBlock : BlockHeader}
      (full : c.shared.blocks.length = n) (alone : c.pending = 1)
      (here : c.clones[i]? = some (.removes key history newBlock hash))
      (mem : ∃ block, (key, block) ∈ c.shared.blocks) : Room n c

omit [Blake2b] in
theorem Room.bound {n : Nat} {c : Clones} (room : Room n c) : c.shared.blocks.length ≤ n := by
  cases room with
  | free fits _ => omega
  | full full => exact full.le

omit [Blake2b] in
/-- When one clone is about to insert a block, no other one is. -/
theorem pending_unique {c : Clones} (alone : c.pending = 1) {i j : Nat} {clone clone' : Clone}
    (hi : c.clones[i]? = some clone) (hj : c.clones[j]? = some clone')
    (pending : clone.pending = true) (pending' : clone'.pending = true) : j = i := by
  by_contra ne
  have count := pending_set hi (.idle none)
  rw [alone, pending] at count
  have rest : (c.clones.set i (.idle none)).countP Clone.pending = 0 := by
    simpa [Clone.pending] using count
  have mem : clone' ∈ c.clones.set i (.idle none) := by
    refine List.mem_of_getElem? (i := j) ?_
    rw [List.getElem?_set_ne (Ne.symm ne)]
    exact hj
  exact List.countP_eq_zero.mp rest _ mem pending'

section Step

variable {n i : Nat} {c : Clones} {clone clone' : Clone} {s' : RandomState}

omit [Blake2b] in
/-- A step changes one clone only. -/
theorem set_cases (hi : c.clones[i]? = some clone) {j : Nat} {clone₀ : Clone}
    (hj : (c.clones.set i clone')[j]? = some clone₀) :
    clone₀ = clone' ∨ j ≠ i ∧ c.clones[j]? = some clone₀ := by
  by_cases same : i = j
  · rw [← same, List.getElem?_set_self (List.getElem?_eq_some_iff.mp hi).1] at hj
    exact Or.inl (Option.some.inj hj).symm
  · rw [List.getElem?_set_ne same] at hj
    exact Or.inr ⟨Ne.symm same, hj⟩

omit [Blake2b] in
theorem Room.quiet (room : Room n c) (hi : c.clones[i]? = some clone)
    (was : clone.pending = false) (now : clone'.pending = false)
    (blocks : s'.blocks = c.shared.blocks) : Room n ⟨s', c.clones.set i clone'⟩ := by
  have same : (c.clones.set i clone').countP Clone.pending = c.pending := by
    simpa [was, now] using pending_set hi clone'
  cases room with
  | free fits noneRemoves =>
      refine .free ?_ ?_
      · show s'.blocks.length + List.countP _ _ ≤ n
        rw [same, blocks]
        exact fits
      · intro j key history newBlock hash hj
        rcases set_cases hi hj with rfl | ⟨_, old⟩
        · cases now
        · exact noneRemoves _ _ _ _ _ old
  | @full j key hash history newBlock full alone here mem =>
      have ne : i ≠ j := by
        rintro rfl
        rw [hi] at here
        cases here
        cases was
      have here' : (c.clones.set i clone')[j]? = some (.removes key history newBlock hash) :=
        (List.getElem?_set_ne ne).trans here
      exact .full ((congrArg List.length blocks).trans full) (same.trans alone) here'
        (by simpa only [blocks] using mem)

omit [Blake2b] in
/-- A clone that found the map full is the only one that is about to insert. -/
theorem Room.willRemove {key hash : TypedHash .blockHash} {history : List Bytes}
    {newBlock : BlockHeader} (hi : c.clones[i]? = some (.copiesState history newBlock hash))
    (none : c.pending = 0) (full : c.shared.blocks.length = n)
    (mem : ∃ block, (key, block) ∈ c.shared.blocks) (blocks : s'.blocks = c.shared.blocks) :
    Room n ⟨s', c.clones.set i (.removes key history newBlock hash)⟩ := by
  have one : (c.clones.set i (.removes key history newBlock hash)).countP Clone.pending = 1 := by
    simpa [none] using pending_set hi (.removes key history newBlock hash)
  exact .full ((congrArg List.length blocks).trans full) one
    (List.getElem?_set_self (List.getElem?_eq_some_iff.mp hi).1) (by simpa only [blocks] using mem)

omit [Blake2b] in
theorem Room.willInsert {hash : TypedHash .blockHash} {history : List Bytes}
    {newBlock : BlockHeader} (room : Room n c)
    (hi : c.clones[i]? = some (.copiesState history newBlock hash))
    (notFull : c.shared.blocks.length ≠ n)
    (fits : c.pending = 0 ∨ c.shared.blocks.length + c.pending < n) :
    Room n ⟨c.shared, c.clones.set i (.inserts history newBlock hash)⟩ := by
  have more : (c.clones.set i (.inserts history newBlock hash)).countP Clone.pending =
      c.pending + 1 := by
    simpa using pending_set hi (.inserts history newBlock hash)
  have bound := room.bound
  refine .free ?_ ?_
  · show c.shared.blocks.length + List.countP _ _ ≤ n
    rw [more]
    rcases fits with none | some <;> omega
  · intro j key history newBlock hash hj
    rcases set_cases hi hj with eq | ⟨_, old⟩
    · cases eq
    · cases room with
      | free _ noneRemoves => exact noneRemoves _ _ _ _ _ old
      | full full => exact notFull full

omit [Blake2b] in
/-- The clone that removes a block was the only one that was about to insert. -/
theorem Room.removed {key hash : TypedHash .blockHash} {history : List Bytes}
    {newBlock : BlockHeader} (room : Room n c)
    (hi : c.clones[i]? = some (.removes key history newBlock hash))
    (blocks : s'.blocks = c.shared.blocks.filter fun entry => entry.1.val ≠ key.val) :
    Room n ⟨s', c.clones.set i (.inserts history newBlock hash)⟩ := by
  cases room with
  | free _ noneRemoves => exact absurd hi (noneRemoves _ _ _ _ _)
  | full full alone here mem =>
      rw [pending_unique alone hi here rfl rfl, hi] at here
      cases here
      have one : (c.clones.set i (.inserts history newBlock hash)).countP Clone.pending = 1 := by
        simpa [alone] using pending_set hi (.inserts history newBlock hash)
      obtain ⟨block, mem⟩ := mem
      have fewer : s'.blocks.length < n := by
        rw [blocks, ← full]
        exact List.length_filter_lt_length_iff_exists.mpr ⟨_, mem, by simp⟩
      refine .free ?_ ?_
      · show s'.blocks.length + List.countP _ _ ≤ n
        rw [one]
        exact fewer
      · intro j key history newBlock hash hj
        rcases set_cases hi hj with eq | ⟨ne, old⟩
        · cases eq
        · exact ne (pending_unique alone hi old rfl rfl)

omit [Blake2b] in
theorem Room.inserted {hash : TypedHash .blockHash} {history : List Bytes}
    {newBlock : BlockHeader} (room : Room n c)
    (hi : c.clones[i]? = some (.inserts history newBlock hash)) (now : clone'.pending = false)
    (blocks : s'.blocks.length ≤ c.shared.blocks.length + 1) :
    Room n ⟨s', c.clones.set i clone'⟩ := by
  cases room with
  | free fits noneRemoves =>
      have count := pending_set hi clone'
      rw [now, Clone.pending_inserts] at count
      refine .free ?_ ?_
      · show s'.blocks.length + (c.clones.set i clone').countP Clone.pending ≤ n
        simp only [if_true, Bool.false_eq_true, if_false] at count
        omega
      · intro j key history newBlock hash hj
        rcases set_cases hi hj with rfl | ⟨_, old⟩
        · cases now
        · exact noneRemoves _ _ _ _ _ old
  | full full alone here mem =>
      rw [pending_unique alone hi here rfl rfl, hi] at here
      cases here

theorem Room.step (hn : 0 < n) (room : Room n c) (limit : c.shared.blocksLimit = n)
    (hi : c.clones[i]? = some clone) (exclusive : c.Exclusive (.step i)) :
    Room n ⟨(clone.step c.shared).2, c.clones.set i (clone.step c.shared).1⟩ := by
  have moved := clone.step_moved (s := c.shared) (by omega)
  rw [Exclusive, hi] at exclusive
  generalize (clone.step c.shared).1 = clone' at moved ⊢
  generalize (clone.step c.shared).2 = s' at moved ⊢
  cases moved with
  | quiet was now blocks => exact room.quiet hi was now blocks
  | @willRemove key hash history newBlock _ source full mem blocks =>
      subst source
      have none : c.pending = 0 := by
        rcases exclusive with none | some
        · exact none
        · omega
      exact Room.willRemove hi none (full.trans limit) mem blocks
  | @willInsert hash history newBlock source notFull =>
      subst source
      exact room.willInsert hi (limit ▸ notFull) (limit ▸ exclusive)
  | @removed key hash history newBlock _ source blocks =>
      subst source
      exact room.removed hi blocks
  | @inserted hash history newBlock _ _ source now blocks =>
      subst source
      exact room.inserted hi now blocks

end Step

omit [Blake2b] in
theorem Room.clone {n : Nat} {c : Clones} (room : Room n c) :
    Room n ⟨c.shared, c.clones ++ [.idle none]⟩ := by
  have same : (c.clones ++ [Clone.idle none]).countP Clone.pending = c.pending := by
    simp [pending, Clone.pending]
  cases room with
  | free fits noneRemoves =>
      refine .free ?_ ?_
      · show c.shared.blocks.length + List.countP _ _ ≤ n
        rw [same]
        exact fits
      · intro j key history newBlock hash hj
        rw [List.getElem?_append] at hj
        split at hj
        next => exact noneRemoves _ _ _ _ _ hj
        next =>
          have mem := List.mem_of_getElem? hj
          simp at mem
  | @full i key hash history newBlock full alone here mem =>
      have lt := (List.getElem?_eq_some_iff.mp here).1
      exact .full full (same.trans alone) ((List.getElem?_append_left lt).trans here) mem

theorem Room.act {n : Nat} {c : Clones} (hn : 0 < n) (room : Room n c)
    (limit : c.shared.blocksLimit = n) {move : CloneMove} (exclusive : c.Exclusive move) :
    Room n (c.act move) := by
  cases move with
  | step i =>
      cases hi : c.clones[i]? with
      | none =>
          simp only [Clones.act, hi]
          exact room
      | some clone =>
          simp only [Clones.act, hi]
          exact room.step hn limit hi exclusive
  | clone => exact room.clone

theorem act_blocksLimit (c : Clones) (move : CloneMove) :
    (c.act move).shared.blocksLimit = c.shared.blocksLimit := by
  cases move with
  | step i =>
      cases hi : c.clones[i]? with
      | none => simp only [act, hi]
      | some clone =>
          simp only [act, hi]
          exact clone.step_blocksLimit c.shared
  | clone => rfl

/-- What holds of the map in a run whose clones compare its size one at a time, or with room. -/
theorem Runs.room {n : Nat} {c c' : Clones} (hn : 0 < n) (runs : Runs Exclusive c c')
    (limit : c.shared.blocksLimit = n) (room : Room n c) :
    c'.shared.blocksLimit = n ∧ Room n c' := by
  induction runs with
  | refl => exact ⟨limit, room⟩
  | tail _ move ih =>
      obtain ⟨move, exclusive, rfl⟩ := move
      exact ⟨(act_blocksLimit _ move).trans ih.1, ih.2.act hn ih.1 exclusive⟩

end Clones

/-- A state that was made with a limit keeps its map within the limit, and no call panics, in every
run of any number of clones in which a clone compares the size of the map only when there is room
for all the blocks that are inserted meanwhile. -/
theorem blocks_bounded {rng : Rng} {n maxChunkSize : Nat} (hn : 0 < n) {c : Clones}
    (runs : Clones.Runs Clones.Exclusive (.start rng n maxChunkSize) c) :
    c.shared.blocks.length ≤ n ∧ Clone.panicked ∉ c.clones := by
  have room : Clones.Room n (.start rng n maxChunkSize) := by
    refine .free (Nat.zero_le n) ?_
    intro i key history newBlock hash hi
    cases hi
  exact ⟨(runs.room hn rfl room).2.bound, runs.no_panic⟩

end Bound

section Sample

/-- A digest that tells headers with other levels apart. -/
local instance cacheDigest : Blake2b := ⟨fun b => (b ++ List.replicate 32 0).take 32, by simp⟩

/-- Two clones that make a branch one after the other, so that the second one removes the block of
the first. -/
theorem blocks_bounded_two : ∃ (c : Clones) (first second : CurrentBranch),
    c.clones = [.idle (some first), .idle (some second)] ∧ c.shared.blocks.length ≤ 1 ∧
      Clone.panicked ∉ c.clones := by
  obtain ⟨first, s, run, _⟩ :=
    (RandomState.gives_genCurrentBranch (s := .new ⟨id⟩ 1 100)).returns
  obtain ⟨second, t, run', _⟩ := (RandomState.gives_genCurrentBranch (s := s)).returns
  have called := Clones.runs_genCurrentBranch (l := [.idle none, .idle none]) (i := 0)
    ⟨by simp, rfl⟩ run none
  have called' := Clones.runs_genCurrentBranch (l := [.idle (some first), .idle none]) (i := 1)
    ⟨by simp, rfl⟩ run' none
  exact ⟨.doing [.idle (some first), .idle none] 1 (.idle (some second)) t, first, second, rfl,
    blocks_bounded Nat.one_pos
      (.head ⟨.clone, trivial, rfl⟩ (.head ⟨.clone, trivial, rfl⟩ (called.trans called')))⟩

/-- Two clones that both see an empty map insert two blocks into a map of one. -/
theorem blocks_unbounded : ∃ c, Clones.Runs (fun _ _ => True)
    (.start ⟨fun n => if n < 115 then 0 else 1⟩ 1 100) c ∧ 1 < c.shared.blocks.length := by
  -- The first clone draws 115 numbers and the second one 119 before they look at the map.
  refine ⟨_, Clones.runs_after _ ([.clone, .clone] ++ List.replicate 118 (.step 0) ++
    List.replicate 122 (.step 1) ++ [.step 0, .step 1]), ?_⟩
  decide +kernel

end Sample

end NodeFuzzer
