import NodeFuzzer.Context.Committing
import NodeFuzzer.Context.InMemory

/-!
# A process between two cycles

The store in memory while no cycle ends.  Ids in use stay in use, so that every node of
a process keeps its hash, whatever the process does and however its thread runs.
-/

namespace NodeFuzzer

open KeyValueStoreBackend StoreView

/-! ## Writing -/

namespace InMemory

theorem writeBatch_sender (batch : List (HashId × Serialized)) (s : InMemory) :
    (writeBatch batch s).sender = s.sender := by
  induction batch generalizing s with
  | nil => rfl
  | cons p rest ih => exact ih (write s p)

theorem writeBatch_contextHashes (batch : List (HashId × Serialized)) (s : InMemory) :
    (writeBatch batch s).contextHashes = s.contextHashes := by
  induction batch generalizing s with
  | nil => rfl
  | cons p rest ih => exact ih (write s p)

theorem writeBatch_contextHashesCycles (batch : List (HashId × Serialized)) (s : InMemory) :
    (writeBatch batch s).contextHashesCycles = s.contextHashesCycles := by
  induction batch generalizing s with
  | nil => rfl
  | cons p rest ih => exact ih (write s p)

theorem writeBatch_hashes (batch : List (HashId × Serialized)) (s : InMemory) :
    (writeBatch batch s).hashes.hashes = s.hashes.hashes ∧
      (writeBatch batch s).hashes.freeIds = s.hashes.freeIds ∧
      (writeBatch batch s).hashes.newIds = s.hashes.newIds := by
  induction batch generalizing s with
  | nil => exact ⟨rfl, rfl, rfl⟩
  | cons p rest ih => exact ih (write s p)

/-- A value comes from the batch, or was there. -/
theorem writeBatch_getValue (batch : List (HashId × Serialized)) (s : InMemory) (id : HashId) :
    (writeBatch batch s).hashes.getValue id = s.hashes.getValue id ∨
      ∃ value, (id, value) ∈ batch ∧ (writeBatch batch s).hashes.getValue id = some value := by
  induction batch generalizing s with
  | nil => exact Or.inl rfl
  | cons p rest ih =>
      rcases ih (write s p) with hsame | ⟨value, mem, hvalue⟩
      · have hwrite : (write s p).hashes.getValue id =
            if id = p.1 then some p.2 else s.hashes.getValue id :=
          HashValueStore.getValue_insertValueAt p.1 id p.2 s.hashes
        by_cases hid : id = p.1
        · refine Or.inr ⟨p.2, ?_, ?_⟩
          · rw [hid]
            exact List.mem_cons_self
          · rw [if_pos hid] at hwrite
            exact hsame.trans hwrite
        · rw [if_neg hid] at hwrite
          exact Or.inl (hsame.trans hwrite)
      · exact Or.inr ⟨value, List.mem_cons_of_mem _ mem, hvalue⟩

/-- A batch stands in the running cycle. -/
theorem writeBatch_currentCycle (batch : List (HashId × Serialized)) (m : InMemory) (id : HashId) :
    (m.writeBatch batch).currentCycle.get id = m.currentCycle.get id ∧
        (m.writeBatch batch).hashes.getValue id = m.hashes.getValue id ∨
      ∃ value, (id, value) ∈ batch ∧
        (m.writeBatch batch).currentCycle.get id = some (some value) ∧
        (m.writeBatch batch).hashes.getValue id = some value := by
  induction batch generalizing m with
  | nil => exact Or.inl ⟨rfl, rfl⟩
  | cons p rest ih =>
      have cycle : (m.write p).currentCycle.get id = _ :=
        OrdMap.get_insert m.currentCycle p.1 id (some p.2)
      have value : (m.write p).hashes.getValue id = _ :=
        HashValueStore.getValue_insertValueAt p.1 id p.2 m.hashes
      rcases ih (m.write p) with ⟨cycle', value'⟩ | ⟨v, mem, cycle', value'⟩
      · by_cases heq : id = p.1
        · rw [if_pos heq.symm] at cycle
          rw [if_pos heq] at value
          refine Or.inr ⟨p.2, ?_, cycle'.trans cycle, value'.trans value⟩
          rw [heq]
          exact List.mem_cons_self
        · rw [if_neg (Ne.symm heq)] at cycle
          rw [if_neg heq] at value
          exact Or.inl ⟨cycle'.trans cycle, value'.trans value⟩
      · exact Or.inr ⟨v, List.mem_cons_of_mem _ mem, cycle', value'⟩

/-- An id of the batch has a value of the batch. -/
theorem writeBatch_written {batch : List (HashId × Serialized)} {id : HashId} {value : Serialized}
    (mem : (id, value) ∈ batch) (s : InMemory) :
    ∃ value', (id, value') ∈ batch ∧ (writeBatch batch s).hashes.getValue id = some value' := by
  induction batch generalizing s with
  | nil => exact absurd mem List.not_mem_nil
  | cons p rest ih =>
      rcases List.mem_cons.mp mem with rfl | mem
      · rcases writeBatch_getValue rest (write s (id, value)) id with same | ⟨value', mem', hvalue⟩
        · refine ⟨value, List.mem_cons_self, same.trans ?_⟩
          have here := HashValueStore.getValue_insertValueAt id id value s.hashes
          rw [if_pos rfl] at here
          exact here
        · exact ⟨value', List.mem_cons_of_mem _ mem', hvalue⟩
      · obtain ⟨value', mem', hvalue⟩ := ih mem (write s p)
        exact ⟨value', List.mem_cons_of_mem _ mem', hvalue⟩

theorem writeBatch_bounded {batch : List (HashId × Serialized)} {s : InMemory}
    (bounded : s.hashes.Bounded) (range : ∀ p ∈ batch, p.1.index < s.hashes.hashes.length) :
    (writeBatch batch s).hashes.Bounded := by
  induction batch generalizing s with
  | nil => exact bounded
  | cons p rest ih =>
      refine ih (s := write s p) ⟨?_, bounded.2⟩ fun q hq => range q (List.mem_cons_of_mem _ hq)
      show ((s.hashes.values.rightpad (p.1.index + 1) none).set p.1.index (some p.2)).length ≤ _
      rw [List.length_set, List.length_rightpad]
      exact max_le (range p List.mem_cons_self) bounded.1

theorem values_write (p : HashId × Serialized) (s : InMemory) :
    (s.write p).hashes.values.length = max (p.1.index + 1) s.hashes.values.length := by
  show ((s.hashes.values.rightpad (p.1.index + 1) none).set p.1.index (some p.2)).length = _
  rw [List.length_set, List.length_rightpad]

/-- After a batch the values reach the ids in it, and all they reached before. -/
theorem values_writeBatch (batch : List (HashId × Serialized)) (s : InMemory) :
    s.hashes.values.length ≤ (s.writeBatch batch).hashes.values.length ∧
      ∀ p ∈ batch, p.1.index < (s.writeBatch batch).hashes.values.length := by
  induction batch generalizing s with
  | nil => exact ⟨le_refl _, fun _ mem => absurd mem List.not_mem_nil⟩
  | cons p rest ih =>
      obtain ⟨longer, reaches⟩ := ih (s.write p)
      rw [values_write] at longer
      refine ⟨(Nat.le_max_right ..).trans longer, fun q mem => ?_⟩
      rcases List.mem_cons.mp mem with rfl | mem
      · exact (Nat.lt_of_lt_of_le (Nat.lt_succ_self _) (Nat.le_max_left ..)).trans_le longer
      · exact reaches q mem

end InMemory

namespace System

variable {s : System}

/-- The system with another store. -/
def withStore (s : System) (m : InMemory) : System := { s with store := m }

@[simp] theorem withStore_store (s : System) (m : InMemory) : (s.withStore m).store = m := rfl

theorem channel_withStore (s : System) (m : InMemory) :
    (s.withStore m).channel = m.sender.getD [] := rfl

/-- A command was sent: it is obeyed last. -/
theorem drained_send {s : System} {m : InMemory} {channel : List Command} {command : Command}
    (freeIds : m.hashes.freeIds = s.store.hashes.freeIds) (before : s.store.sender = some channel)
    (sender : m.sender = some (channel ++ [command])) :
    (s.withStore m).drained = s.drained.obey command ∧
      (s.withStore m).leaving = s.leaving ++ s.drained.frees command := by
  have here : s.channel = channel := by rw [System.channel, before]; rfl
  have there : (s.withStore m).channel = channel ++ [command] := by
    rw [channel_withStore, sender]
    rfl
  have free : (s.withStore m).free = s.free := by
    show m.hashes.freeIds.getD [] ++ _ = _
    rw [freeIds]
    rfl
  rw [System.drained, System.leaving, System.drained, System.leaving, there, here, free]
  refine ⟨Cycles.obeyAll_concat _ _ _, ?_⟩
  show _ ++ Cycles.freesAll _ _ = _
  rw [Cycles.freesAll_concat, List.append_assoc]
  rfl

/-- The slots and the ids that leave depend on the queue and on the channel only. -/
theorem drained_withStore {m : InMemory}
    (freeIds : m.hashes.freeIds = s.store.hashes.freeIds) (sender : m.sender = s.store.sender) :
    (s.withStore m).drained = s.drained ∧ (s.withStore m).leaving = s.leaving := by
  have channel : (s.withStore m).channel = s.channel := by
    rw [channel_withStore, sender]
    rfl
  have free : (s.withStore m).free = s.free := by
    show m.hashes.freeIds.getD [] ++ _ = _
    rw [freeIds]
    rfl
  rw [System.drained, System.leaving, channel, free]
  exact ⟨rfl, rfl⟩

theorem drained_write (s : System) (batch : List (HashId × Serialized)) :
    (s.withStore (s.store.writeBatch batch)).drained = s.drained ∧
      (s.withStore (s.store.writeBatch batch)).leaving = s.leaving :=
  drained_withStore (InMemory.writeBatch_hashes batch s.store).2.1
    (InMemory.writeBatch_sender batch s.store)

/-- Entries that are used again free no id, and only move to another slot. -/
theorem blockApplied_marks (s : System) (reused : List HashId) :
    (s.withStore (s.store.blockApplied reused)).leaving = s.leaving ∧
      ∀ id, (s.withStore (s.store.blockApplied reused)).drained.places id ≤ s.drained.places id := by
  have sent : (s.store.blockApplied reused).sender =
      s.store.sender.map fun channel => channel ++ [.markReused reused] := rfl
  cases hsender : s.store.sender with
  | none =>
      have sender : (s.store.blockApplied reused).sender = s.store.sender := by
        rw [sent, hsender]
        rfl
      obtain ⟨drained, leaving⟩ := drained_withStore (m := s.store.blockApplied reused) rfl sender
      exact ⟨leaving, fun id => drained ▸ le_refl _⟩
  | some channel =>
      rw [hsender] at sent
      obtain ⟨drained, leaving⟩ := drained_send (m := s.store.blockApplied reused) rfl hsender sent
      refine ⟨leaving.trans (List.append_nil _), fun id => ?_⟩
      rw [drained]
      exact (Nat.le_add_left _ _).trans (s.drained.places_obey (.markReused reused) id)

variable [Digest]

/-- A change of the store that hands out and frees no id. -/
theorem tame {m : InMemory} (inv : Inv s)
    (bounded : m.hashes.Bounded) (hashes : m.hashes.hashes = s.store.hashes.hashes)
    (newIds : m.hashes.newIds = s.store.hashes.newIds)
    (longer : s.store.hashes.values.length ≤ m.hashes.values.length)
    (leaving : (s.withStore m).leaving = s.leaving)
    (slots : ∀ id, (s.withStore m).drained.places id ≤ s.drained.places id)
    (cycle : ∀ id, m.currentCycle.holds m.hashes.newIds id = true →
      s.Stands id ∨ id.index < m.hashes.hashes.length)
    (values : ∀ id value r, Live s id → m.hashes.getValue id = some value →
      r ∈ value.references → Live s r)
    (contexts : ∀ h id, m.getContextHash h = some id → Live s id) :
    Inv (s.withStore m) ∧ Closed (s.withStore m) ∧ Remembers s (s.withStore m) := by
  have live : ∀ id, Live (s.withStore m) id ↔ Live s id := by
    intro id
    rw [Live, Live, leaving]
    show id.index < m.hashes.hashes.length ∧ _ ↔ _
    rw [hashes]
  refine ⟨⟨bounded, ?_, ?_, ?_⟩, ⟨?_, ?_⟩, ?_⟩
  · rw [leaving]
    exact inv.nodup
  · refine inv.stands (congrArg List.length hashes).ge ?_ slots cycle
    intro id hid
    exact Or.inl (leaving ▸ hid)
  · intro id hid past
    replace hid : id ∈ m.hashes.newIds := hid
    rw [newIds] at hid
    rw [leaving]
    exact inv.fresh id hid (longer.trans past)
  · intro id value r hid hvalue hr
    exact ⟨(live r).mpr (values id value r ((live id).mp hid) (Except.ok.inj hvalue) hr), trivial⟩
  · intro h id hid
    exact ⟨(live id).mpr (contexts h id (Except.ok.inj hid)), trivial⟩
  · intro id hid
    refine ⟨(live id).mpr hid, ?_⟩
    show Except.ok (m.hashes.getHash id) = Except.ok (s.store.hashes.getHash id)
    rw [HashValueStore.getHash, HashValueStore.getHash, hashes]

theorem getValue_live (closed : Closed s) {id : HashId} {value : Serialized} {r : HashId}
    (live : Live s id) (hvalue : s.store.hashes.getValue id = some value)
    (hr : r ∈ value.references) : Live s r :=
  (closed.references live (congrArg Except.ok hvalue) hr).1

theorem getContextHash_live (closed : Closed s) {h : ContextHash} {id : HashId}
    (hid : s.store.getContextHash h = some id) : Live s id :=
  (closed.contexts (congrArg Except.ok hid)).1

instance : CommitStore System where
  Writable := fun s batch => ∀ p ∈ batch, Live s p.1 ∧ ∀ r ∈ p.2.references, Live s r
  write := by
    intro batch s inv closed writable
    obtain ⟨hashes, _, newIds⟩ := InMemory.writeBatch_hashes batch s.store
    obtain ⟨drained, leaving⟩ := drained_write s batch
    refine tame inv (InMemory.writeBatch_bounded inv.bounded fun p hp => (writable p hp).1.1)
      hashes newIds (InMemory.values_writeBatch batch s.store).1
      leaving (fun id => drained ▸ le_refl _) ?_ ?_ ?_
    · intro id holds
      rw [newIds, CycleMap.holds_iff] at holds
      rcases InMemory.writeBatch_currentCycle batch s.store id with ⟨same, _⟩ | ⟨_, mem, _⟩
      · rw [same] at holds
        exact Or.inl (Or.inr (Or.inr (CycleMap.holds_iff.mpr holds)))
      · exact Or.inr (hashes ▸ (writable _ mem).1.1)
    · intro id value r live hvalue hr
      rcases InMemory.writeBatch_getValue batch s.store id with hsame | ⟨value', mem, hvalue'⟩
      · exact getValue_live closed live (hsame.symm.trans hvalue) hr
      · rw [hvalue] at hvalue'
        cases hvalue'
        exact (writable _ mem).2 r hr
    · intro h id hid
      rw [InMemory.getContextHash, InMemory.writeBatch_contextHashes] at hid
      exact getContextHash_live closed hid
  put := by
    intro id h s inv closed live hash
    have put : InMemory.putContextHash id s.store = (.ok (), { s.store with
        contextHashes := Function.update s.store.contextHashes (Digest.defaultHasher h.bytes)
          (some id)
        contextHashesCycles := s.store.contextHashesCycles.dropLast ++
          (s.store.contextHashesCycles.getLast?.map fun v =>
            v ++ [Digest.defaultHasher h.bytes]).toList }) := by
      unfold InMemory.putContextHash
      rw [Except.ok.inj hash]
    show Exec.wp (Exec.onPart store _ (InMemory.putContextHash id)) _ _ s
    rw [Exec.wp_onPart]
    unfold Exec.wp
    rw [put]
    refine tame inv inv.bounded rfl rfl (le_refl _) (drained_withStore rfl rfl).2
      (fun _ => (drained_withStore rfl rfl).1 ▸ le_refl _)
      (fun _ holds => Or.inl (Or.inr (Or.inr holds)))
      (fun _ _ _ live hvalue hr => getValue_live closed live hvalue hr) ?_
    intro k j hj
    replace hj : Function.update s.store.contextHashes (Digest.defaultHasher h.bytes) (some id)
      (Digest.defaultHasher k.bytes) = some j := hj
    by_cases hk : Digest.defaultHasher k.bytes = Digest.defaultHasher h.bytes
    · rw [hk, Function.update_self] at hj
      cases hj
      exact live
    · rw [Function.update_of_ne hk] at hj
      exact getContextHash_live closed hj
  applied := by
    intro reused s inv closed
    obtain ⟨leaving, places⟩ := blockApplied_marks s reused
    exact tame inv inv.bounded rfl rfl (le_refl _) leaving places
      (fun _ holds => Or.inl (Or.inr (Or.inr holds)))
      (fun _ _ _ live hvalue hr => getValue_live closed live hvalue hr)
      (fun _ _ hid => getContextHash_live closed hid)
  clear := fun s inv closed => ⟨inv, closed, fun _ _ live => ⟨live, rfl⟩⟩

end System

/-! ## Whole runs -/

section Runs

variable [Digest]

/-- Every id of the store in memory stays. -/
theorem region_all (w : World System) : Region (fun _ => True) w :=
  ⟨fun _ _ _ _ => trivial, fun _ _ unknown => absurd trivial unknown⟩

/-- A later state of a process. -/
structure SessionLater (s s' : Session System) : Prop where
  sound : SoundSession s'
  later : Later s.world s'.world
  contexts : ∃ new, s'.contexts = s.contexts ++ new

namespace SessionLater

variable {s s' s'' : Session System}

theorem refl (sound : SoundSession s) : SessionLater s s :=
  ⟨sound, Later.refl sound.sound, [], (List.append_nil _).symm⟩

theorem trans (h : SessionLater s s') (h' : SessionLater s' s'') : SessionLater s s'' := by
  obtain ⟨new, hnew⟩ := h.contexts
  obtain ⟨new', hnew'⟩ := h'.contexts
  exact ⟨h'.sound, h.later.trans h'.later, new ++ new', by rw [hnew', hnew, List.append_assoc]⟩

theorem ofEdited (sound : SoundSession s) (edited : Edited s s') : SessionLater s s' := by
  obtain ⟨new, hnew, _⟩ := edited.contexts
  exact ⟨edited.soundSession sound, Later.ofGrows sound.sound edited.grows, new, hnew⟩

theorem ofWorld {w : World System} (sound : SoundSession s) (later : Later s.world w) :
    SessionLater s { s with world := w } where
  sound := later.soundSession sound
  later := later
  contexts := ⟨[], (List.append_nil _).symm⟩

theorem context (h : SessionLater s s') {i : Nat} {c : TezedgeContext}
    (hc : s.contexts[i]? = some c) : s'.contexts[i]? = some c := by
  obtain ⟨new, hnew⟩ := h.contexts
  obtain ⟨hi, _⟩ := List.getElem?_eq_some_iff.mp hc
  rw [hnew, List.getElem?_append_left hi, hc]

end SessionLater

/-- A call for the hash of a context or for its commit. -/
inductive AsksHash (i : Nat) (author message : String) (date : Int64) : Op → Prop
  | hash : AsksHash i author message date (.hash i author message date)
  | commit : AsksHash i author message date (.commit i author message date)

/-- What may be written in a commit. -/
theorem writable_prepared {w w' : World System} {root : Tree} {commit : Commit} {id : HashId}
    {data : SerializingData}
    (prepared : Prepared (fun _ => True) true w w' root commit id data) :
    CommitStore.Writable w'.repo data.batch := prepared.live fun _ => trivial

/-- What a commit collected, where each id is written once. -/
structure Collection (w w₁ : World System) (root : Tree) (commit : Commit) (id : HashId)
    (batch : List (HashId × Serialized)) : Prop where
  marks : Marks w w₁
  newRoot : ∃ r, NewId w commit.rootHash r
  newCommit : ∃ h, NewId w id h
  distinct : commit.rootHash ≠ id
  commitMem : (id, .commit commit) ∈ batch
  rootMem : ∃ value, (commit.rootHash, value) ∈ batch ∧ Serializes w.heap (.tree root) value
  rootMarked : ∀ b ∈ (Entry.tree root).children, (w₁.heap.node b).commited = true
  nodes : ∀ a, (w.heap.node a).commited = false → (w₁.heap.node a).commited = true →
    a < w.heap.next ∧ ∃ j entry value, (w.heap.node a).entryHash = some j ∧
      (w.heap.node a).entry = some entry ∧ Serializes w.heap entry value ∧ (j, value) ∈ batch ∧
      ∀ b ∈ entry.children, (w₁.heap.node b).commited = true
  items : ∀ x ∈ batch, x = (id, .commit commit) ∨
    (x.1 = commit.rootHash ∧ Serializes w.heap (.tree root) x.2) ∨
    ∃ a entry, a < w.heap.next ∧ (w.heap.node a).commited = false ∧
      (w₁.heap.node a).commited = true ∧ (w.heap.node a).entryHash = some x.1 ∧
      (w.heap.node a).entry = some entry ∧ Serializes w.heap entry x.2

theorem Prepared.collection {w w₁ : World System} {root : Tree} {commit : Commit} {id : HashId} {data : SerializingData}
    (prepared : Prepared (fun _ => True) true w w₁ root commit id data) :
    ∃ w₀, Step (fun _ => True) w w₀ ∧ Collection w₀ w₁ root commit id data.batch ∧
      ∃ r, TreeHashOf w₀ root r ∧ getHash commit.rootHash w₀.repo = .ok (some r) := by
  obtain ⟨w₀, r, p, below, step, _, treeHash, _, newRoot, new, distinct, entered, rfl⟩ :=
    prepared.parts
  obtain ⟨value, walked, serializes, walk, visited, rfl⟩ := entered.parts
  have rest : ∀ {x}, x ∈ walked.batch →
      x ∈ [(id, Serialized.commit commit)] ++ ([(commit.rootHash, value)] ++ walked.batch) :=
    fun hx => List.mem_append_right _ (List.mem_append_right _ hx)
  refine ⟨w₀, step, ⟨walk.marks, ⟨r, newRoot⟩, ⟨_, new⟩, distinct, ?_, ⟨value, ?_, serializes⟩,
    visited.marked, ?_, ?_⟩, r, (step.treeHashOf root r).mpr treeHash, newRoot.hash⟩
  · exact List.mem_append_left _ (List.mem_singleton_self _)
  · exact List.mem_append_right _ (List.mem_append_left _ (List.mem_singleton_self _))
  · intro a hnot hmarked
    obtain ⟨lt, j, entry, v, hid, hentry, serializes', mem, visited'⟩ :=
      walk.collected a hnot hmarked
    exact ⟨lt, j, entry, v, hid, hentry, serializes', rest (mem rfl), visited'.marked⟩
  · intro x hx
    rcases List.mem_append.mp hx with hx | hx
    · exact Or.inl (List.mem_singleton.mp hx)
    · rcases List.mem_append.mp hx with hx | hx
      · have here := List.mem_singleton.mp hx
        rw [here]
        exact Or.inr (Or.inl ⟨rfl, serializes⟩)
      · obtain ⟨a, entry, hnot, hmarked, hid, hentry, serializes'⟩ := walk.batch x hx
        exact Or.inr (Or.inr ⟨a, entry, (walk.collected a hnot hmarked).lt, hnot, hmarked, hid,
          hentry, serializes'⟩)

/-- What a commit does to the store after its entries were collected: it writes them and
remembers the id of the commit. -/
structure Wrote (s s' : System) (batch : List (HashId × Serialized)) (h : ContextHash)
    (id : HashId) : Prop where
  values : ∀ j, s'.store.hashes.getValue j =
    (InMemory.writeBatch batch s.store).hashes.getValue j
  live : ∀ j, s'.Live j ↔ s.Live j
  contextHashes : s'.store.contextHashes =
    Function.update s.store.contextHashes (Digest.defaultHasher h.bytes) (some id)

/-- A value after a commit was written. -/
theorem Wrote.value {w w' : World System} {batch : List (HashId × Serialized)} {h : ContextHash} {id j : HashId}
    {v : Serialized} (wrote : Wrote w.repo w'.repo batch h id)
    (hv : getValue j w'.repo = .ok (some v)) :
    getValue j w.repo = .ok (some v) ∨ (j, v) ∈ batch := by
  have hv' := (wrote.values j).symm.trans (Except.ok.inj hv)
  rcases InMemory.writeBatch_getValue batch w.repo.store j with same | ⟨v', mem, hv''⟩
  · exact Or.inl (congrArg Except.ok (same.symm.trans hv'))
  · rw [hv'] at hv''
    cases hv''
    exact Or.inr mem

/-- A commit collects the entries of its tree and writes them. -/
theorem commit_wrote {w : World System} {c : TezedgeContext} {author message : String}
    {date : Int64} (sound : Sound w) (ok : ContextOk w c) :
    Exec.wp (c.commit author message date)
      (fun h w' => ∃ w₁ commit id data,
        Prepared (fun _ => True) true w w₁ c.tree.root commit id data ∧ w'.heap = w₁.heap ∧
          Wrote w₁.repo w'.repo data.batch h id ∧
          ∀ j, getHash j w'.repo = getHash j w₁.repo)
      (fun w' => Step (fun _ => True) w w') w := by
  rw [TezedgeContext.commit, Exec.wp_bind]
  refine Exec.wp_orFail _ _ ?_ fun _ => Step.refl sound.good (region_all w)
  intro time _
  rw [Exec.wp_bind, Exec.wp_mapErr]
  refine Exec.wp_mono (prepareCommit_spec sound (region_all w) ok.within (fun _ _ => trivial)
    fun hid => (ok.parent hid).1) ?_ fun w' h => h.1
  rintro ⟨id, data⟩ w₁ ⟨rootHash, prepared⟩
  obtain ⟨_, r, p, _, _, _, hash⟩ := prepared.later sound
  generalize Digest.blake2b (commitString r p _) = h at hash
  obtain ⟨m, hm⟩ : ∃ m, m = InMemory.writeBatch data.batch w₁.repo.store := ⟨_, rfl⟩
  obtain ⟨hashes, freeIds, _⟩ := InMemory.writeBatch_hashes data.batch w₁.repo.store
  have sender := InMemory.writeBatch_sender data.batch w₁.repo.store
  have contextHashes := InMemory.writeBatch_contextHashes data.batch w₁.repo.store
  rw [← hm] at hashes freeIds sender contextHashes
  refine wp_onStore (P := fun _ s => s = w₁.repo.withStore m) ?_ ?_
  · rw [hm]
    exact rfl
  rintro _ _ rfl
  -- The commit has its hash, so that it can be remembered.
  have hash₁ : m.hashes.getHash id = some h := by
    rw [HashValueStore.getHash, hashes]
    exact Except.ok.inj hash
  have put : InMemory.putContextHash id m = (.ok (), { m with
      contextHashes := Function.update m.contextHashes (Digest.defaultHasher h.bytes) (some id)
      contextHashesCycles := m.contextHashesCycles.dropLast ++
        (m.contextHashesCycles.getLast?.map fun v =>
          v ++ [Digest.defaultHasher h.bytes]).toList }) := by
    unfold InMemory.putContextHash
    rw [hash₁]
  refine wp_onStore (P := fun _ s => s.gc = w₁.repo.gc ∧
    s.store = (InMemory.putContextHash id m).2) ?_ ?_
  · show Exec.wp (Exec.onPart System.store _ (InMemory.putContextHash id)) _ _ _
    rw [Exec.wp_onPart]
    unfold Exec.wp System.withStore
    rw [put]
    exact ⟨rfl, rfl⟩
  rintro _ s₂ ⟨gc₂, store₂⟩
  rw [put] at store₂
  refine wp_onStore (P := fun _ s => s = s₂.withStore (InMemory.blockApplied
    data.referencedOlderEntries s₂.store)) rfl ?_
  rintro _ _ rfl
  refine wp_getCommitHash (h := h) ?_ ?_
  · show Except.ok (s₂.store.hashes.getHash id) = _
    rw [store₂]
    exact congrArg Except.ok hash₁
  · refine wp_onStore (P := fun _ s => s = s₂.withStore (InMemory.blockApplied
      data.referencedOlderEntries s₂.store)) rfl ?_
    rintro _ _ rfl
    refine ⟨w₁, _, id, data, prepared, rfl, ⟨?_, ?_, ?_⟩, ?_⟩
    · intro j
      show s₂.store.hashes.getValue j = _
      rw [store₂, hm]
    · intro j
      have leaving : s₂.leaving = w₁.repo.leaving := by
        rw [System.leaving, System.free, System.queue, System.channel, gc₂, store₂]
        show (m.hashes.freeIds.getD [] ++ _) ++ Cycles.freesAll _ (m.sender.getD []) = _
        rw [freeIds, sender]
        rfl
      rw [System.Live, System.Live, (System.blockApplied_marks s₂ _).1, leaving]
      show j.index < s₂.store.hashes.hashes.length ∧ _ ↔ _
      rw [store₂]
      show j.index < m.hashes.hashes.length ∧ _ ↔ _
      rw [hashes]
    · show s₂.store.contextHashes = _
      rw [store₂]
      exact congrArg (fun f => Function.update f _ _) contextHashes
    · intro j
      show Except.ok (s₂.store.hashes.getHash j) = _
      rw [store₂]
      show Except.ok (m.hashes.getHash j) = _
      rw [HashValueStore.getHash, hashes]
      rfl

/-- Hashing a context marks its nodes, and writes nothing. -/
theorem hash_marked {w : World System} {c : TezedgeContext} {author message : String}
    {date : Int64} (sound : Sound w) (ok : ContextOk w c) :
    Exec.wp (c.hash author message date)
      (fun _ w' => ∃ commit id data,
        Prepared (fun _ => True) false w w' c.tree.root commit id data)
      (fun w' => Step (fun _ => True) w w') w := by
  rw [TezedgeContext.hash, Exec.wp_bind]
  refine Exec.wp_orFail _ _ ?_ fun _ => Step.refl sound.good (region_all w)
  intro time _
  rw [Exec.wp_bind, Exec.wp_mapErr]
  refine Exec.wp_mono (prepareCommit_spec sound (region_all w) ok.within (fun _ _ => trivial)
    fun hid => (ok.parent hid).1) ?_ fun w' h => h.1
  rintro ⟨id, data⟩ w₁ ⟨rootHash, prepared⟩
  obtain ⟨_, r, p, _, _, _, hash⟩ := prepared.later sound
  refine wp_getCommitHash hash ?_
  refine wp_onStore (P := fun _ s => s = w₁.repo) rfl ?_
  rintro _ _ rfl
  exact ⟨_, id, data, prepared⟩

theorem asksHash_spec {s : Session System} {i : Nat} {author message : String} {date : Int64}
    {op : Op} (asks : AsksHash i author message date op) (sound : SoundSession s) :
    Exec.wp (Session.perform op)
      (fun reply s' => SessionLater s s' ∧ ∀ h, reply = .contextHash h →
        ∃ c, s.contexts[i]? = some c ∧ ContextHashOf s.world c author message date h)
      (fun s' => SessionLater s s') s := by
  have absent : s.contexts[i]? = none → SessionLater s s ∧ ∀ h, Reply.absent = .contextHash h →
      ∃ c, s.contexts[i]? = some c ∧ ContextHashOf s.world c author message date h :=
    fun _ => ⟨SessionLater.refl sound, fun _ h => nomatch h⟩
  have answer : ∀ {c : TezedgeContext} {x : Call System ContextError ContextHash},
      s.contexts[i]? = some c →
      Exec.wp x (fun h w' => Later s.world w' ∧ ContextHashOf s.world c author message date h)
        (fun w' => Step (fun _ => True) s.world w' ∧ (Exhausted w'.repo ∨
          ¬ ∃ h, ContextHashOf s.world c author message date h)) s.world →
      Exec.wp (do
          let hash ← Session.onWorld x
          pure (Reply.contextHash hash))
        (fun reply s' => SessionLater s s' ∧ ∀ h, reply = .contextHash h →
          ∃ c, s.contexts[i]? = some c ∧ ContextHashOf s.world c author message date h)
        (fun s' => SessionLater s s') s := by
    intro c x hc spec
    rw [Exec.wp_bind, wp_onWorld]
    refine Exec.wp_mono spec ?_ ?_
    · rintro h w' ⟨later, hash⟩
      refine ⟨SessionLater.ofWorld sound later, ?_⟩
      rintro h' ⟨⟩
      exact ⟨c, hc, hash⟩
    · exact fun w' h => SessionLater.ofWorld sound (Later.ofStep sound.sound h.1)
  have ok : ∀ {c : TezedgeContext}, s.contexts[i]? = some c → ContextOk s.world c :=
    fun hc => sound.contexts _ (List.mem_of_getElem? hc)
  cases asks with
  | hash =>
      refine wp_withContext absent fun c hc => answer hc ?_
      exact hash_spec sound.sound (region_all _) (ok hc) fun _ _ => trivial
  | commit =>
      refine wp_withContext absent fun c hc => answer hc ?_
      exact commit_spec sound.sound (region_all _) (ok hc) (fun _ _ => trivial) writable_prepared

/-- Whatever is asked for, the process is in a later state. -/
theorem perform_later {s : Session System} {op : Op} (sound : SoundSession s)
    (quiet : op ≠ .cycleStarted) : SessionLater s (Session.perform op s).2 := by
  have asked : ∀ {i author message date}, AsksHash i author message date op →
      SessionLater s (Session.perform op s).2 := fun asks =>
    Exec.wp_state (Exec.wp_mono (asksHash_spec asks sound) (fun _ _ h => h.1) fun _ h => h)
  have edited : op.Edits → SessionLater s (Session.perform op s).2 := fun edits =>
    SessionLater.ofEdited sound (Exec.wp_state (perform_edited sound edits))
  cases op with
  | cycleStarted => exact absurd rfl quiet
  | hash i author message date => exact asked .hash
  | commit i author message date => exact asked .commit
  | getMerkleRoot i =>
      refine Exec.wp_state (wp_withContext (fun _ => SessionLater.refl sound) fun c hc => ?_)
      have ok := sound.contexts _ (List.mem_of_getElem? hc)
      rw [Exec.wp_bind, wp_onWorld]
      refine Exec.wp_mono (getMerkleRoot_spec sound.sound.good (region_all _) ok.within
        fun _ _ => trivial) ?_ ?_
      · exact fun h w' hh => SessionLater.ofWorld sound (Later.ofStep sound.sound hh.1)
      · exact fun w' hh => SessionLater.ofWorld sound (Later.ofStep sound.sound hh.1)
  | _ => exact edited trivial

theorem Runs.later {s s' : Session System} (run : Runs (· ≠ .cycleStarted) s s')
    (sound : SoundSession s) : SessionLater s s' := by
  induction run with
  | refl => exact SessionLater.refl sound
  | tail _ step ih =>
      obtain ⟨op, quiet, rfl⟩ := step
      exact ih.trans (perform_later ih.sound quiet)

/-- A process that has done nothing yet. -/
def Session.start (garbageCollectorDisabled : Bool) (schedule : List Nat) : Session System :=
  ⟨⟨.empty, .new garbageCollectorDisabled schedule⟩, [], []⟩

/-- A run of the process in which each call meets `P` where it is made. -/
def RunsIf (P : Session System → Op → Prop) : Session System → Session System → Prop :=
  Relation.ReflTransGen fun s s' => ∃ op, P s op ∧ (Session.perform op s).2 = s'

theorem runsIf_cons {P : Session System → Op → Prop} {s s' : Session System} (op : Op)
    (allowed : P s op) (run : RunsIf P (Session.perform op s).2 s') : RunsIf P s s' :=
  .head ⟨op, allowed, rfl⟩ run

/-- A process that has just started, with contexts that were not checked out. -/
theorem soundSession_new (disabled : Bool) (schedule : List Nat) (n : Nat) :
    SoundSession ⟨⟨.empty, System.new disabled schedule⟩, List.replicate n .new, []⟩ := by
  refine ⟨⟨System.inv_new disabled schedule, ⟨?_, ?_⟩, ?_⟩, ?_,
    fun _ h => absurd h List.not_mem_nil⟩
  · intro id value r live
    exact absurd live.1 (Nat.not_lt_zero _)
  · intro h id hid
    cases hid
  · intro a
    refine ⟨?_, ?_, ?_, ?_, ?_, ?_, ?_, ?_⟩
    · intro id hid
      cases hid
    · intro tree p _ hentry
      cases hentry
    · intro commit _ hentry
      cases hentry
    · intro tree _ hentry
      cases hentry
    · intro tree hentry
      cases hentry
    · exact fun ha => absurd ha (Nat.not_lt_zero a)
    · intro tree p _ hentry
      cases hentry
    · intro commit _ hentry
      cases hentry
  · intro c hc
    rw [List.eq_of_mem_replicate hc]
    refine ⟨Within.empty _, ?_⟩
    intro id hid
    cases hid

/-- All calls of `hash` and `commit` on a context that return give the same hash, from a state
in which nodes and store are consistent and until the next cycle starts. -/
theorem SoundSession.sameHash {s s₁ s₂ s₃ : Session System} {i : Nat} {author message : String}
    {date : Int64} {op₁ op₂ : Op} {h₁ h₂ : ContextHash} (sound : SoundSession s)
    (asks₁ : AsksHash i author message date op₁) (asks₂ : AsksHash i author message date op₂)
    (call₁ : Session.perform op₁ s = (.ok (.contextHash h₁), s₁))
    (run : Runs (· ≠ .cycleStarted) s₁ s₂)
    (call₂ : Session.perform op₂ s₂ = (.ok (.contextHash h₂), s₃)) : h₁ = h₂ := by
  obtain ⟨later₁, answer₁⟩ := Exec.wp_ok (asksHash_spec asks₁ sound) call₁
  obtain ⟨c, hc, hash₁⟩ := answer₁ h₁ rfl
  have later := later₁.trans (run.later later₁.sound)
  obtain ⟨_, answer₂⟩ := Exec.wp_ok (asksHash_spec asks₂ later.sound) call₂
  obtain ⟨c', hc', hash₂⟩ := answer₂ h₂ rfl
  rw [later.context hc] at hc'
  cases hc'
  have ok := sound.contexts c (List.mem_of_getElem? hc)
  exact hash₁.unique ((later.later.contextHashOf ok).mp hash₂)

end Runs

/-- The hash in an answer. -/
def answeredHash : Outcome ContextError Reply → Option ContextHash
  | .ok (.contextHash h) => some h
  | _ => none

theorem answeredHash_eq {x : Outcome ContextError Reply × Session System} {h : ContextHash}
    (answer : answeredHash x.1 = some h) : x = (.ok (.contextHash h), x.2) := by
  rcases x with ⟨outcome, s⟩
  unfold answeredHash at answer
  split at answer
  next heq =>
    cases answer
    rw [← heq]
  next => cases answer

end NodeFuzzer
