import NodeFuzzer.Context.KvStore
import NodeFuzzer.Context.Slots

/-!
# The store in memory

`InMemory` of `kv_store/in_memory.rs`.  A `System` is the store together with its
garbage collection thread.  The thread can only be noticed when an id is taken from the
queue it fills, so that it suffices to let it run for a number of steps before each
allocation; `schedule` holds these numbers.
-/

namespace NodeFuzzer

/-- `InMemory`.  `sender` holds the commands on their way to the thread; there is none
when garbage collection is disabled. -/
structure InMemory where
  currentCycle : CycleMap
  hashes : HashValueStore
  sender : Option (List Command)
  contextHashes : UInt64 → Option HashId
  contextHashesCycles : List (List UInt64)

namespace InMemory

/-- `InMemory::new`. -/
def new (garbageCollectorDisabled : Bool) : InMemory where
  currentCycle := .empty
  hashes := .new (if garbageCollectorDisabled then none else some [])
  sender := if garbageCollectorDisabled then none else some []
  contextHashes := fun _ => none
  contextHashesCycles := List.replicate PRESERVE_CYCLE_COUNT []

/-- One round of the loop of `write_batch`. -/
def write (s : InMemory) (p : HashId × Serialized) : InMemory :=
  { s with
    hashes := s.hashes.insertValueAt p.1 p.2
    currentCycle := s.currentCycle.insert p.1 (some p.2) }

/-- `write_batch`. -/
def writeBatch (batch : List (HashId × Serialized)) (s : InMemory) : InMemory :=
  batch.foldl write s

/-- Send a command to the thread. -/
def send (command : Command) (s : InMemory) : InMemory :=
  { s with sender := s.sender.map fun channel => channel ++ [command] }

/-- `new_cycle_started`. -/
def newCycleStarted (s : InMemory) : InMemory :=
  match s.sender with
  | none => s
  | some channel =>
      let (newIds, hashes) := s.hashes.takeNewIds
      { currentCycle := .empty
        hashes := hashes
        sender := some (channel ++ [.startNewCycle s.currentCycle newIds])
        contextHashes := fun k =>
          if k ∈ s.contextHashesCycles.headD [] then none else s.contextHashes k
        contextHashesCycles := s.contextHashesCycles.tail ++ [[]] }

/-- `block_applied`. -/
def blockApplied (reused : List HashId) (s : InMemory) : InMemory := s.send (.markReused reused)

section ContextHashes

variable [Digest]

/-- `get_context_hash_impl`. -/
def getContextHash (contextHash : ContextHash) (s : InMemory) : Option HashId :=
  s.contextHashes (Digest.defaultHasher contextHash.bytes)

/-- `put_context_hash_impl`. -/
def putContextHash (commitHashId : HashId) : Exec InMemory DBError Unit := fun s =>
  match s.hashes.getHash commitHashId with
  | none => (.err (.missingEntry commitHashId), s)
  | some commitHash =>
      let hashed := Digest.defaultHasher commitHash.bytes
      (.ok (), { s with
        contextHashes := Function.update s.contextHashes hashed (some commitHashId)
        contextHashesCycles := s.contextHashesCycles.dropLast ++
          (s.contextHashesCycles.getLast?.map fun v => v ++ [hashed]).toList })

end ContextHashes

end InMemory

/-- The store and its thread. -/
structure System where
  store : InMemory
  gc : GCThread
  schedule : List Nat

namespace System

/-- The system as it starts. -/
def new (garbageCollectorDisabled : Bool) (schedule : List Nat) : System :=
  ⟨.new garbageCollectorDisabled, .new, schedule⟩

/-- One step of the thread, when there is one. -/
def gcStep (s : System) : System :=
  match s.store.sender, s.store.hashes.freeIds with
  | some channel, some queue =>
      let (gc, channel, queue) := s.gc.step channel queue
      { s with
        gc := gc
        store := { s.store with
          sender := some channel
          hashes := { s.store.hashes with freeIds := some queue } } }
  | _, _ => s

/-- Steps of the thread. -/
def gcSteps : Nat → System → System
  | 0, s => s
  | n + 1, s => gcSteps n s.gcStep

/-- Let the thread run as the schedule says. -/
def runScheduled (s : System) : System :=
  gcSteps (s.schedule.headD 0) { s with schedule := s.schedule.tail }

/-- A call on the hashes and values. -/
def onHashes {α : Type} (x : Exec HashValueStore DBError α) : Exec System DBError α :=
  Exec.onPart (fun s => s.store.hashes)
    (fun h s => { s with store := { s.store with hashes := h } }) x

/-- A change of the store. -/
def onStore (f : InMemory → InMemory) : Exec System DBError Unit :=
  Exec.modify fun s => { s with store := f s.store }

/-- `get_vacant_entry_hash`. -/
def getVacantEntryHash (hash : EntryHash) : Exec System DBError HashId := do
  Exec.modify runScheduled
  onHashes (HashValueStore.getVacantEntryHash hash)

instance [Digest] : KeyValueStoreBackend System where
  getHash := fun id s => .ok (s.store.hashes.getHash id)
  getValue := fun id s => .ok (s.store.hashes.getValue id)
  contains := fun id s => .ok (s.store.hashes.contains id)
  getContextHash := fun hash s => .ok (s.store.getContextHash hash)
  getVacantEntryHash := getVacantEntryHash
  writeBatch := fun batch => onStore (InMemory.writeBatch batch)
  putContextHash := fun id => Exec.onPart store (fun m s => { s with store := m })
    (InMemory.putContextHash id)
  clearEntries := pure ()
  blockApplied := fun reused => onStore (InMemory.blockApplied reused)
  newCycleStarted := onStore InMemory.newCycleStarted

/-! ## What the thread leaves alone -/

/-- The queue of free ids. -/
def queue (s : System) : List HashId := s.store.hashes.freeIds.getD []

/-- Commands that were not received yet. -/
def channel (s : System) : List Command := s.store.sender.getD []

/-- All free ids. -/
def free (s : System) : List HashId := s.queue ++ s.gc.held

/-- The slots when the thread has obeyed all commands that wait. -/
def drained (s : System) : Cycles := s.gc.cycles.obeyAll s.channel

/-- The ids that are free then, if none is handed out. -/
def leaving (s : System) : List HashId := s.free ++ s.gc.cycles.freesAll s.channel

theorem free_leaving {s : System} {id : HashId} (mem : id ∈ s.free) : id ∈ s.leaving :=
  List.mem_append_left _ mem

/-- Everything but the thread, its channel and its queue is as before. -/
structure Beside (s s' : System) : Prop where
  hashes : s'.store.hashes.hashes = s.store.hashes.hashes
  values : s'.store.hashes.values = s.store.hashes.values
  newIds : s'.store.hashes.newIds = s.store.hashes.newIds
  currentCycle : s'.store.currentCycle = s.store.currentCycle
  contextHashes : s'.store.contextHashes = s.store.contextHashes
  contextHashesCycles : s'.store.contextHashesCycles = s.store.contextHashesCycles

theorem Beside.refl (s : System) : Beside s s := ⟨rfl, rfl, rfl, rfl, rfl, rfl⟩

theorem Beside.trans {s s' s'' : System} (h : Beside s s') (h' : Beside s' s'') : Beside s s'' :=
  ⟨h'.hashes.trans h.hashes, h'.values.trans h.values, h'.newIds.trans h.newIds,
    h'.currentCycle.trans h.currentCycle, h'.contextHashes.trans h.contextHashes,
    h'.contextHashesCycles.trans h.contextHashesCycles⟩

/-- What a step of the thread does to the system. -/
inductive GcStep (s : System) : System → Prop
  | none : GcStep s s
  | step {gc : GCThread} {channel' : List Command} {queue' : List HashId}
      (moves : s.gc.Moves s.channel s.queue (gc, channel', queue')) :
      GcStep s { s with
        gc := gc
        store := { s.store with
          sender := some channel'
          hashes := { s.store.hashes with freeIds := some queue' } } }

theorem gcStep_spec (s : System) : GcStep s s.gcStep := by
  unfold gcStep
  cases hsender : s.store.sender with
  | none => exact .none
  | some channel =>
      cases hfree : s.store.hashes.freeIds with
      | none => exact .none
      | some queue =>
          have moves := s.gc.step_moves channel queue
          rcases hstep : s.gc.step channel queue with ⟨gc, channel', queue'⟩
          rw [hstep] at moves
          simp only [hstep]
          refine .step ?_
          rw [System.channel, System.queue, hsender, hfree]
          exact moves

theorem GcStep.beside {s s' : System} (h : GcStep s s') : Beside s s' := by
  cases h with
  | none => exact Beside.refl s
  | step moves => exact ⟨rfl, rfl, rfl, rfl, rfl, rfl⟩

theorem GcStep.drained {s s' : System} (step : GcStep s s') : s'.drained = s.drained := by
  cases step with
  | none => rfl
  | @step gc channel' queue' moves =>
      show gc.cycles.obeyAll channel' = s.gc.cycles.obeyAll s.channel
      cases moves with
      | roll receiving command => rw [command]; rfl
      | mark receiving command => rw [command]; rfl
      | send places => rfl

theorem GcStep.leaving {s s' : System} (step : GcStep s s') : s'.leaving.Perm s.leaving := by
  cases step with
  | none => exact .refl _
  | @step gc channel' queue' moves =>
      show ((queue' ++ gc.held) ++ gc.cycles.freesAll channel').Perm _
      rw [System.leaving, System.free]
      cases moves with
      | @roll values newIds rest receiving command =>
          have waiting : s.gc.held = s.gc.pending := by
            rw [GCThread.held, receiving]
            exact List.append_nil _
          rw [command, waiting]
          show ((s.queue ++ (s.gc.pending ++ _)) ++ _).Perm ((s.queue ++ s.gc.pending) ++ (_ ++ _))
          simp only [List.append_assoc]
          exact .refl _
      | @mark reused rest receiving command =>
          have waiting : s.gc.held = s.gc.pending := by
            rw [GCThread.held, receiving]
            exact List.append_nil _
          rw [command, waiting]
          show ((s.queue ++ (s.gc.pending ++ [])) ++ _).Perm _
          rw [List.append_nil]
          exact .refl _
      | send places => exact places.append_right _

/-! ## Ids that stay in use -/

/-- The id was handed out: it leaves, or it stands in a slot or in the running cycle. -/
def Stands (s : System) (id : HashId) : Prop :=
  id ∈ s.leaving ∨ 0 < s.drained.places id ∨
    s.store.currentCycle.holds s.store.hashes.newIds id = true

/-- No id is free twice, or will be, and all ids that the thread knows were handed out. -/
structure Inv (s : System) : Prop where
  bounded : s.store.hashes.Bounded
  nodup : s.leaving.Nodup
  range : ∀ id, s.Stands id → id.index < s.store.hashes.hashes.length
  /-- An id of this cycle that the values have not reached is not among them. -/
  fresh : ∀ id ∈ s.store.hashes.newIds, s.store.hashes.values.length ≤ id.index → id ∉ s.leaving

/-- An id that was handed out and stays in use when the thread obeys the commands that wait. -/
def Live (s : System) (id : HashId) : Prop :=
  id.index < s.store.hashes.hashes.length ∧ id ∉ s.leaving

/-- Handing out an id may have failed: there is no room for one more hash, or an id came out of
the queue that the values have not reached, and that is neither free nor new since then. -/
def Full (s : System) : Prop :=
  s.store.hashes.hashes.length = MAX_HASHES ∨
    ∃ i < s.store.hashes.hashes.length, s.store.hashes.values.length ≤ i ∧
      (∀ id ∈ s.free, id.index ≠ i) ∧ ∀ id ∈ s.store.hashes.newIds, id.index ≠ i

instance (s : System) : Decidable s.Full := inferInstanceAs (Decidable (_ ∨ _))

/-- The thread ran: free ids may have changed their place. -/
structure Ran (s s' : System) : Prop where
  beside : Beside s s'
  leaving : s'.leaving.Perm s.leaving
  inv : Inv s'

theorem Ran.trans {s s' s'' : System} (h : Ran s s') (h' : Ran s' s'') : Ran s s'' :=
  ⟨h.beside.trans h'.beside, h'.leaving.trans h.leaving, h'.inv⟩

/-- Ids that stand somewhere stood somewhere before, or are new. -/
theorem Inv.stands {s s' : System} (inv : Inv s)
    (length : s.store.hashes.hashes.length ≤ s'.store.hashes.hashes.length)
    (leaving : ∀ id ∈ s'.leaving, s.Stands id)
    (slots : ∀ id, s'.drained.places id ≤ s.drained.places id)
    (cycle : ∀ id, s'.store.currentCycle.holds s'.store.hashes.newIds id = true →
      s.Stands id ∨ id.index < s'.store.hashes.hashes.length)
    (id : HashId) (stands : s'.Stands id) : id.index < s'.store.hashes.hashes.length := by
  rcases stands with mem | pos | holds
  · exact (inv.range id (leaving id mem)).trans_le length
  · exact (inv.range id (Or.inr (Or.inl (pos.trans_le (slots id))))).trans_le length
  · rcases cycle id holds with stands | lt
    · exact (inv.range id stands).trans_le length
    · exact lt

theorem Inv.ran {s s' : System} (inv : Inv s) (beside : Beside s s')
    (leaving : s'.leaving.Perm s.leaving) (drained : s'.drained = s.drained) : Ran s s' := by
  refine ⟨beside, leaving, ⟨?_, leaving.nodup_iff.mpr inv.nodup, ?_, ?_⟩⟩
  · rw [HashValueStore.Bounded, beside.hashes, beside.values]
    exact inv.bounded
  · refine inv.stands (congrArg List.length beside.hashes).ge ?_ (fun id => drained ▸ le_refl _) ?_
    · exact fun id mem => Or.inl (leaving.mem_iff.mp mem)
    · intro id holds
      rw [beside.currentCycle, beside.newIds] at holds
      exact Or.inl (Or.inr (Or.inr holds))
  · intro id hid
    rw [beside.newIds] at hid
    rw [beside.values, leaving.mem_iff]
    exact inv.fresh id hid

theorem GcStep.ran {s s' : System} (h : GcStep s s') (inv : Inv s) : Ran s s' :=
  inv.ran h.beside h.leaving h.drained

theorem gcSteps_ran (n : Nat) {s : System} (inv : Inv s) : Ran s (gcSteps n s) := by
  induction n generalizing s with
  | zero => exact inv.ran (Beside.refl s) (List.Perm.refl _) rfl
  | succ n ih =>
      have first := (gcStep_spec s).ran inv
      exact first.trans (ih first.inv)

theorem runScheduled_ran {s : System} (inv : Inv s) : Ran s s.runScheduled := by
  have same : Ran s { s with schedule := s.schedule.tail } :=
    inv.ran ⟨rfl, rfl, rfl, rfl, rfl, rfl⟩ (List.Perm.refl _) rfl
  exact same.trans (gcSteps_ran _ same.inv)

theorem Ran.live {s s' : System} (h : Ran s s') (id : HashId) : Live s' id ↔ Live s id := by
  rw [Live, Live, h.beside.hashes, h.leaving.mem_iff]

instance : StoreView System where
  Inv := Inv
  Live := Live
  Known := fun _ => True
  Exhausted := Full

section Lawful

variable [Digest] {s s₁ : System} {h : HashValueStore}

/-- The system with other hashes. -/
def withHashes (s : System) (h : HashValueStore) : System :=
  { s with store := { s.store with hashes := h } }

/-- Handing out ids keeps what is in use. -/
theorem keeps_withHashes (ran : Ran s s₁)
    (live : ∀ id, Live s id → Live (withHashes s₁ h) id)
    (same : ∀ id, Live s id → h.getHash id = s₁.store.hashes.getHash id ∧
      h.getValue id = s₁.store.hashes.getValue id)
    (blank : ∀ id, Live (withHashes s₁ h) id → ¬ Live s id → h.getValue id = none) :
    Keeps s (withHashes s₁ h) where
  old := by
    intro id hid
    obtain ⟨hash, value⟩ := same id hid
    refine ⟨live id hid, ?_, ?_⟩
    · show Except.ok (h.getHash id) = Except.ok (s.store.hashes.getHash id)
      rw [hash, HashValueStore.getHash, HashValueStore.getHash, ran.beside.hashes]
    · show Except.ok (h.getValue id) = Except.ok (s.store.hashes.getValue id)
      rw [value, HashValueStore.getValue, HashValueStore.getValue, ran.beside.values]
  blank := fun id hid fresh => congrArg Except.ok (blank id hid fresh)
  contexts := by
    intro k
    show Except.ok (InMemory.getContextHash k _) = Except.ok (InMemory.getContextHash k _)
    rw [InMemory.getContextHash, InMemory.getContextHash]
    exact congrArg Except.ok (congrFun ran.beside.contextHashes _)

section Queue

variable {id : HashId} {rest : List HashId}

/-- The ids that are on their way once the queue holds `rest`. -/
def leavingWith (s : System) (rest : List HashId) : List HashId :=
  rest ++ (s.gc.held ++ s.gc.cycles.freesAll s.channel)

omit [Digest] in
theorem leaving_withHashes (s : System) (hrest : h.freeIds = some rest) :
    (withHashes s h).leaving = leavingWith s rest := by
  show (h.freeIds.getD [] ++ s.gc.held) ++ s.gc.cycles.freesAll s.channel = _
  rw [hrest, leavingWith, List.append_assoc]
  rfl

omit [Digest] in
theorem leaving_queue (hqueue : s.store.hashes.freeIds = some (id :: rest)) :
    s.leaving = id :: leavingWith s rest :=
  leaving_withHashes (h := s.store.hashes) s hqueue

omit [Digest] in
/-- What is in use is still in use, and only the id that came out of the queue came into use. -/
theorem live_popped (ran : Ran s s₁)
    (hqueue : s₁.store.hashes.freeIds = some (id :: rest)) (hrest : h.freeIds = some rest)
    (hlength : h.hashes.length = s₁.store.hashes.hashes.length) (j : HashId) :
    Live (withHashes s₁ h) j ↔ Live s j ∨ j = id := by
  have nodup := ran.inv.nodup
  have range : id.index < s₁.store.hashes.hashes.length :=
    ran.inv.range id (Or.inl (leaving_queue hqueue ▸ List.mem_cons_self))
  rw [leaving_queue hqueue, List.nodup_cons] at nodup
  rw [← ran.live j, Live, Live, leaving_withHashes s₁ hrest, leaving_queue hqueue, List.mem_cons]
  show j.index < h.hashes.length ∧ _ ↔ _
  rw [hlength]
  constructor
  · rintro ⟨hlt, hmem⟩
    by_cases hj : j = id
    · exact Or.inr hj
    · exact Or.inl ⟨hlt, fun hor => hor.elim hj hmem⟩
  · rintro (⟨hlt, hmem⟩ | rfl)
    · exact ⟨hlt, fun h => hmem (Or.inr h)⟩
    · exact ⟨range, nodup.1⟩

omit [Digest] in
theorem inv_popped (ran : Ran s s₁) (hqueue : s₁.store.hashes.freeIds = some (id :: rest))
    (hrest : h.freeIds = some rest) (hlength : h.hashes.length = s₁.store.hashes.hashes.length)
    (bounded : h.Bounded) (hnew : ∀ j ∈ h.newIds, j ∈ s₁.store.hashes.newIds ∨ j = id)
    (hvalues : h.values.length = s₁.store.hashes.values.length) : Inv (withHashes s₁ h) := by
  have hleaving := leaving_queue hqueue
  have nodup := ran.inv.nodup
  rw [hleaving, List.nodup_cons] at nodup
  refine ⟨bounded, ?_, ?_, ?_⟩
  · rw [leaving_withHashes s₁ hrest]
    exact nodup.2
  · refine ran.inv.stands hlength.ge ?_ (fun j => le_refl _) ?_
    · intro j hj
      rw [leaving_withHashes s₁ hrest] at hj
      exact Or.inl (hleaving ▸ List.mem_cons_of_mem _ hj)
    · intro j holds
      rcases CycleMap.holds_iff.mp holds with held | hj
      · exact Or.inl (Or.inr (Or.inr (CycleMap.holds_iff.mpr (Or.inl held))))
      · rcases hnew j hj with hj | rfl
        · exact Or.inl (Or.inr (Or.inr (CycleMap.holds_iff.mpr (Or.inr hj))))
        · exact Or.inr (hlength ▸ ran.inv.range j (Or.inl (hleaving ▸ List.mem_cons_self)))
  · intro j hj past
    rw [leaving_withHashes s₁ hrest]
    rcases hnew j hj with hj | rfl
    · refine fun hmem => ran.inv.fresh j hj ?_ (hleaving ▸ List.mem_cons_of_mem _ hmem)
      exact hvalues ▸ past
    · exact nodup.1

/-- An id that comes out of the queue. -/
theorem reused_spec (hash : EntryHash) (ran : Ran s s₁)
    (hqueue : s₁.store.hashes.freeIds = some (id :: rest)) :
    Exec.wp (HashValueStore.reusedEntry id hash)
      (fun j h => Inv (withHashes s₁ h) ∧ ¬ Live s j ∧ Live (withHashes s₁ h) j ∧
        h.getHash j = some hash ∧ h.getValue j = none ∧ Keeps s (withHashes s₁ h))
      (fun h => Inv (withHashes s₁ h) ∧ Full (withHashes s₁ h) ∧ Keeps s (withHashes s₁ h))
      { s₁.store.hashes with freeIds := some rest } := by
  have hleaving := leaving_queue hqueue
  have fresh : ¬ Live s id := fun h =>
    h.2 (ran.leaving.mem_iff.mp (hleaving ▸ List.mem_cons_self))
  refine Exec.wp_mono (HashValueStore.reusedEntry_spec id hash ran.inv.bounded) ?_ ?_
  · rintro j h ⟨rfl, vacated, hrest, _, hlength⟩
    have live := live_popped ran hqueue hrest hlength
    refine ⟨inv_popped ran hqueue hrest hlength vacated.bounded ?_ vacated.values, fresh,
      (live j).mpr (Or.inr rfl), vacated.hash, vacated.value,
      keeps_withHashes ran (fun i hi => (live i).mpr (Or.inl hi)) ?_ ?_⟩
    · intro i hi
      rw [vacated.newIds] at hi
      exact (List.mem_append.mp hi).imp_right List.mem_singleton.mp
    · intro i hi
      exact vacated.frame i fun heq => fresh (heq ▸ hi)
    · intro i hi hnot
      rw [((live i).mp hi).resolve_left hnot]
      exact vacated.value
  · rintro h ⟨rfl, hshort⟩
    have live := live_popped (h := { s₁.store.hashes with freeIds := some rest }) ran hqueue rfl rfl
    refine ⟨inv_popped ran hqueue rfl rfl ran.inv.bounded (fun _ hj => Or.inl hj) rfl, Or.inr ?_,
      keeps_withHashes ran (fun i hi => (live i).mpr (Or.inl hi)) (fun _ _ => ⟨rfl, rfl⟩) ?_⟩
    · -- The id is lost.
      have nodup := ran.inv.nodup
      have range := ran.inv.range id (Or.inl (hleaving ▸ List.mem_cons_self))
      rw [hleaving, List.nodup_cons] at nodup
      refine ⟨id.index, range, hshort, fun j hj heq => ?_, fun j hj heq => ?_⟩
      · have leaves := free_leaving hj
        rw [leaving_withHashes s₁ rfl, HashId.index_injective heq] at leaves
        exact nodup.1 leaves
      · rw [HashId.index_injective heq] at hj
        exact ran.inv.fresh id hj hshort (hleaving ▸ List.mem_cons_self)
    · intro i hi hnot
      rw [((live i).mp hi).resolve_left hnot]
      exact HashValueStore.getValue_none_of_length_le hshort

end Queue

/-- An id after all others. -/
theorem fresh_spec (hash : EntryHash) (ran : Ran s s₁) :
    Exec.wp (HashValueStore.freshEntry hash)
      (fun j h => Inv (withHashes s₁ h) ∧ ¬ Live s j ∧ Live (withHashes s₁ h) j ∧
        h.getHash j = some hash ∧ h.getValue j = none ∧ Keeps s (withHashes s₁ h))
      (fun h => Inv (withHashes s₁ h) ∧ Full (withHashes s₁ h) ∧ Keeps s (withHashes s₁ h))
      s₁.store.hashes := by
  refine Exec.wp_mono (HashValueStore.freshEntry_spec hash ran.inv.bounded) ?_ ?_
  · rintro j h ⟨vacated, hrest, _, hindex, hlength⟩
    have hleaving : (withHashes s₁ h).leaving = s₁.leaving := by
      show (h.freeIds.getD [] ++ _) ++ _ = _
      rw [hrest]
      rfl
    have hnew : j ∉ s₁.leaving := by
      intro hj
      have := ran.inv.range j (Or.inl hj)
      omega
    have live : ∀ i, Live (withHashes s₁ h) i ↔ Live s i ∨ i = j := by
      intro i
      rw [← ran.live i, Live, Live, hleaving]
      show i.index < h.hashes.length ∧ _ ↔ _
      rw [hlength]
      constructor
      · rintro ⟨hlt, hmem⟩
        rcases Nat.lt_succ_iff_lt_or_eq.mp hlt with hlt | heq
        · exact Or.inl ⟨hlt, hmem⟩
        · exact Or.inr (HashId.index_injective (heq.trans hindex.symm))
      · rintro (⟨hlt, hmem⟩ | rfl)
        · exact ⟨Nat.lt_succ_of_lt hlt, hmem⟩
        · exact ⟨hindex ▸ Nat.lt_succ_self _, hnew⟩
    have fresh : ¬ Live s j := by
      intro hj
      have hlt : j.index < s.store.hashes.hashes.length := hj.1
      rw [← ran.beside.hashes] at hlt
      omega
    refine ⟨⟨vacated.bounded, ?_, ?_, ?_⟩, fresh, (live j).mpr (Or.inr rfl),
      vacated.hash, vacated.value, keeps_withHashes ran (fun i hi => (live i).mpr (Or.inl hi)) ?_ ?_⟩
    · rw [hleaving]
      exact ran.inv.nodup
    · refine ran.inv.stands (hlength ▸ Nat.le_succ _) ?_ (fun i => le_refl _) ?_
      · intro i hi
        rw [hleaving] at hi
        exact Or.inl hi
      · intro i holds
        replace holds : s₁.store.currentCycle.holds h.newIds i = true := holds
        rw [vacated.newIds, CycleMap.holds_append, Bool.or_eq_true, decide_eq_true_eq] at holds
        rcases holds with holds | rfl
        · exact Or.inl (Or.inr (Or.inr holds))
        · refine Or.inr ?_
          show i.index < h.hashes.length
          omega
    · intro i hi past
      rw [hleaving]
      replace hi : i ∈ h.newIds := hi
      rw [vacated.newIds] at hi
      rcases List.mem_append.mp hi with hi | hi
      · exact ran.inv.fresh i hi (vacated.values ▸ past)
      · rw [List.mem_singleton.mp hi]
        exact hnew
    · intro i hi
      exact vacated.frame i fun heq => fresh (heq ▸ hi)
    · intro i hi hnot
      rw [((live i).mp hi).resolve_left hnot]
      exact vacated.value
  · rintro h ⟨rfl, full⟩
    have live : ∀ i, Live (withHashes s₁ s₁.store.hashes) i ↔ Live s i := ran.live
    refine ⟨ran.inv, Or.inl full, keeps_withHashes ran (fun i hi => (live i).mpr hi) (fun _ _ => ⟨rfl, rfl⟩) ?_⟩
    exact fun i hi hnot => absurd ((live i).mp hi) hnot

instance : LawfulStore System where
  vacant := by
    intro hash s inv
    show Exec.wp (getVacantEntryHash hash) _ _ s
    rw [getVacantEntryHash, Exec.wp_bind, Exec.wp_modify, onHashes, Exec.wp_onPart,
      HashValueStore.getVacantEntryHash, Exec.wp_bind]
    have ran := runScheduled_ran inv
    have error : ∀ h, Inv (withHashes s.runScheduled h) ∧ Full (withHashes s.runScheduled h) ∧
          Keeps s (withHashes s.runScheduled h) →
        StoreView.Inv (withHashes s.runScheduled h) ∧
          StoreView.Exhausted (withHashes s.runScheduled h) ∧
          Keeps s (withHashes s.runScheduled h) := fun _ hh => hh
    have ok : ∀ (j : HashId) (h : HashValueStore),
        Inv (withHashes s.runScheduled h) ∧ ¬ Live s j ∧ Live (withHashes s.runScheduled h) j ∧
          h.getHash j = some hash ∧ h.getValue j = none ∧ Keeps s (withHashes s.runScheduled h) →
        StoreView.Inv (withHashes s.runScheduled h) ∧ ¬ StoreView.Live s j ∧
          StoreView.Live (withHashes s.runScheduled h) j ∧
          KeyValueStoreBackend.getHash j (withHashes s.runScheduled h) = .ok (some hash) ∧
          KeyValueStoreBackend.getValue j (withHashes s.runScheduled h) = .ok none ∧
          Keeps s (withHashes s.runScheduled h) := by
      rintro j h ⟨inv', fresh, live, hhash, hvalue, keeps⟩
      exact ⟨inv', fresh, live, congrArg Except.ok hhash, congrArg Except.ok hvalue, keeps⟩
    refine HashValueStore.wp_getFreeId ?_ ?_
    · intro id rest hqueue
      exact Exec.wp_mono (reused_spec hash ran hqueue) ok error
    · exact fun _ => Exec.wp_mono (fresh_spec hash ran) ok error

end Lawful

/-- A store that has just been made. -/
theorem inv_new (disabled : Bool) (schedule : List Nat) : Inv (new disabled schedule) := by
  have leaving : (new disabled schedule).leaving = [] := by cases disabled <;> rfl
  refine ⟨⟨Nat.zero_le _, Nat.zero_le _⟩, ?_, ?_, ?_⟩
  · rw [leaving]
    exact List.nodup_nil
  · rintro id (mem | pos | holds)
    · rw [leaving] at mem
      exact absurd mem List.not_mem_nil
    · have nowhere : (new disabled schedule).drained.places id = 0 := by cases disabled <;> rfl
      omega
    · cases holds
  · exact fun _ h => absurd h List.not_mem_nil

end System

end NodeFuzzer
