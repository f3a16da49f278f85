import NodeFuzzer.Context.Quiet

/-!
# Who owns an id

An id that was handed out is in the list of new ids, then in the command that ends the
cycle, then in a slot of the thread, and at last free.  `places` counts where an id
stands.  Handing out ids and ending cycles move an id from one place to the next one.

`write_batch` puts an id into the running cycle wherever it stands.  An id that was handed
out in one cycle and is written in a later one stands in two places, and is freed twice.
As long as no batch writes such an id, no id stands in two places.
-/

namespace NodeFuzzer

/-! ## What is done to the store -/

/-- Calls of the store, and the steps of its thread. -/
inductive Act where
  | alloc (hash : EntryHash)
  | write (batch : List (HashId × Serialized))
  | put (commitHashId : HashId)
  | applied (reused : List HashId)
  | newCycle
  | gc
deriving DecidableEq

namespace System

section Acts

variable [Digest]

/-- The system after one call or step. -/
def act (s : System) : Act → System
  | .alloc hash => (onHashes (HashValueStore.getVacantEntryHash hash) s).2
  | .write batch => s.withStore (s.store.writeBatch batch)
  | .put commitHashId => s.withStore (InMemory.putContextHash commitHashId s.store).2
  | .applied reused => s.withStore (s.store.blockApplied reused)
  | .newCycle => s.withStore s.store.newCycleStarted
  | .gc => s.gcStep

/-- The system after some of them. -/
def afterActs (s : System) (acts : List Act) : System := acts.foldl act s

end Acts

/-- The id was handed out, is not free, and stands neither in a slot nor in a command. -/
structure Unowned (s : System) (id : HashId) : Prop where
  range : id.index < s.store.hashes.hashes.length
  notFree : id ∉ s.free
  slots : s.gc.cycles.places id = 0
  commands : ∀ command ∈ s.channel, command.holds id = false

end System

/-- A batch is written to ids of the running cycle only. -/
def Act.Timely (s : System) : Act → Prop
  | .write batch => ∀ p ∈ batch, s.Unowned p.1
  | _ => True

instance (s : System) (id : HashId) : Decidable (s.Unowned id) :=
  decidable_of_iff (id.index < s.store.hashes.hashes.length ∧ id ∉ s.free ∧
      s.gc.cycles.places id = 0 ∧ ∀ command ∈ s.channel, command.holds id = false)
    ⟨fun h => ⟨h.1, h.2.1, h.2.2.1, h.2.2.2⟩, fun h => ⟨h.1, h.2, h.3, h.4⟩⟩

instance (s : System) : (a : Act) → Decidable (a.Timely s)
  | .write batch => inferInstanceAs (Decidable (∀ p ∈ batch, s.Unowned p.1))
  | .alloc _ | .put _ | .applied _ | .newCycle | .gc => inferInstanceAs (Decidable True)

namespace System

section Runs

variable [Digest]

/-- Each step of a run meets a condition on the state it is made in. -/
def Along (P : System → Act → Prop) : System → List Act → Prop
  | _, [] => True
  | s, a :: acts => P s a ∧ Along P (s.act a) acts

instance decidableAlong {P : System → Act → Prop} [∀ s a, Decidable (P s a)] :
    (s : System) → (acts : List Act) → Decidable (Along P s acts)
  | _, [] => inferInstanceAs (Decidable True)
  | s, a :: acts =>
      have := decidableAlong (P := P) (s.act a) acts
      inferInstanceAs (Decidable (P s a ∧ Along P (s.act a) acts))

theorem along_append {P : System → Act → Prop} {s : System} {acts acts' : List Act} :
    Along P s (acts ++ acts') ↔ Along P s acts ∧ Along P (s.afterActs acts) acts' := by
  induction acts generalizing s with
  | nil => exact ⟨fun h => ⟨trivial, h⟩, fun h => h.2⟩
  | cons a acts ih =>
      rw [List.cons_append, Along, Along, ih, and_assoc]
      exact Iff.rfl

/-- What each step keeps holds after a run. -/
theorem Along.invariant {P : System → Act → Prop} {I : System → Prop} {s : System}
    {acts : List Act} (along : Along P s acts) (start : I s)
    (step : ∀ s a, I s → P s a → I (s.act a)) : I (s.afterActs acts) := by
  induction acts generalizing s with
  | nil => exact start
  | cons a acts ih => exact ih along.2 (step s a start along.1)

/-- Every batch of a run is written to ids of the running cycle. -/
def Timely : System → List Act → Prop := Along fun s a => a.Timely s

instance (s : System) (acts : List Act) : Decidable (s.Timely acts) :=
  inferInstanceAs (Decidable (Along _ s acts))

end Runs

/-- In how many places an id stands. -/
def places (s : System) (id : HashId) : Nat :=
  s.free.count id + s.gc.cycles.places id + s.channel.countP (Command.holds id) +
    if s.store.currentCycle.holds s.store.hashes.newIds id then 1 else 0

/-- An id stands in one place at most. -/
structure Placed (s : System) : Prop where
  once : ∀ id, s.places id ≤ 1
  range : ∀ id, 0 < s.places id → id.index < s.store.hashes.hashes.length
  bounded : s.store.hashes.Bounded

theorem count_free (s : System) (id : HashId) :
    s.free.count id = s.queue.count id + s.gc.held.count id := List.count_append

/-- Places depend on the queue, the thread, the channel and the running cycle. -/
theorem Placed.mono {s s' : System} (placed : Placed s) (bounded : s'.store.hashes.Bounded)
    (length : s'.store.hashes.hashes.length = s.store.hashes.hashes.length)
    (le : ∀ id, s'.places id ≤ s.places id) : Placed s' := by
  refine ⟨fun id => (le id).trans (placed.once id), fun id pos => ?_, bounded⟩
  rw [length]
  exact placed.range id (pos.trans_le (le id))

end System

/-! ## Handing out ids -/

namespace HashValueStore

/-- What `get_vacant_entry_hash` does, with the id it returns. -/
inductive Handed (s : HashValueStore) : Option HashId → HashValueStore → Prop
  /-- An id comes from the queue. -/
  | reused {id : HashId} {rest : List HashId} {hash : EntryHash} {s' : HashValueStore}
      (queue : s.freeIds = some (id :: rest)) (vacated : Vacated s s' id hash)
      (freeIds : s'.freeIds = some rest) (length : s'.hashes.length = s.hashes.length) :
      Handed s (some id) s'
  /-- The values end before the id that came from the queue. -/
  | lost {id : HashId} {rest : List HashId} (queue : s.freeIds = some (id :: rest))
      (short : s.values.length ≤ id.index) : Handed s none { s with freeIds := some rest }
  /-- The id is a new one. -/
  | fresh {id : HashId} {hash : EntryHash} {s' : HashValueStore}
      (empty : s.freeIds.getD [] = []) (vacated : Vacated s s' id hash)
      (freeIds : s'.freeIds = s.freeIds) (index : id.index = s.hashes.length)
      (length : s'.hashes.length = s.hashes.length + 1) : Handed s (some id) s'
  /-- There is no new id. -/
  | full (empty : s.freeIds.getD [] = []) (length : s.hashes.length = MAX_HASHES) :
      Handed s none s

theorem getVacantEntryHash_handed (hash : EntryHash) {s : HashValueStore} (bounded : s.Bounded) :
    Exec.wp (getVacantEntryHash hash) (fun id s' => Handed s (some id) s')
      (fun s' => Handed s none s') s := by
  rw [getVacantEntryHash, Exec.wp_bind]
  refine wp_getFreeId ?_ ?_
  · intro id rest queue
    refine Exec.wp_mono (reusedEntry_spec id hash (s := { s with freeIds := some rest }) bounded)
      ?_ ?_
    · rintro j s' ⟨rfl, vacated, freeIds, _, length⟩
      exact .reused queue ⟨vacated.bounded, vacated.hash, vacated.value, vacated.frame,
        vacated.newIds, vacated.values⟩ freeIds length
    · rintro s' ⟨rfl, short⟩
      exact .lost queue short
  · intro empty
    refine Exec.wp_mono (freshEntry_spec hash bounded) ?_ ?_
    · rintro id s' ⟨vacated, freeIds, _, index, length⟩
      exact .fresh empty vacated freeIds index length
    · rintro s' ⟨rfl, length⟩
      exact .full empty length

theorem Handed.bounded {s s' : HashValueStore} {o : Option HashId} (handed : Handed s o s')
    (bounded : s.Bounded) : s'.Bounded := by
  cases handed with
  | reused _ vacated _ _ => exact vacated.bounded
  | lost _ _ => exact bounded
  | fresh _ vacated _ _ _ => exact vacated.bounded
  | full _ _ => exact bounded

/-- The queue only gets shorter. -/
theorem Handed.mem_queue {s s' : HashValueStore} {o : Option HashId} (handed : Handed s o s')
    {id : HashId} (mem : id ∈ s'.freeIds.getD []) : id ∈ s.freeIds.getD [] := by
  cases handed with
  | reused queue _ freeIds _ =>
      rw [freeIds] at mem
      rw [queue]
      exact List.mem_cons_of_mem _ mem
  | lost queue _ =>
      rw [queue]
      exact List.mem_cons_of_mem _ mem
  | fresh _ _ freeIds _ _ =>
      rw [freeIds] at mem
      exact mem
  | full _ _ => exact mem

end HashValueStore

namespace System

section Steps

variable {s : System}

theorem Placed.handed (placed : Placed s) {o : Option HashId} {h : HashValueStore}
    (handed : HashValueStore.Handed s.store.hashes o h) : Placed (s.withHashes h) := by
  have places : ∀ j, (s.withHashes h).places j = (h.freeIds.getD []).count j + s.gc.held.count j +
      s.gc.cycles.places j + s.channel.countP (Command.holds j) +
      if s.store.currentCycle.holds h.newIds j then 1 else 0 := by
    intro j
    rw [System.places, count_free]
    rfl
  have before : ∀ j, s.places j = (s.store.hashes.freeIds.getD []).count j + s.gc.held.count j +
      s.gc.cycles.places j + s.channel.countP (Command.holds j) +
      if s.store.currentCycle.holds s.store.hashes.newIds j then 1 else 0 := by
    intro j
    rw [System.places, count_free]
    rfl
  cases handed with
  | @reused id rest hash _ queue vacated freeIds length =>
      refine placed.mono vacated.bounded length fun j => ?_
      have once := placed.once j
      rw [before, queue] at once
      rw [places, before, freeIds, queue, vacated.newIds, CycleMap.holds_append]
      simp only [Option.getD_some, List.count_cons] at once ⊢
      by_cases heq : j = id
      · simp only [heq, beq_self_eq_true, if_true, decide_true, Bool.or_true] at once ⊢
        omega
      · simp [heq, Ne.symm heq]
  | @lost id rest queue _ =>
      refine placed.mono placed.bounded rfl fun j => ?_
      rw [places, before, queue]
      simp only [Option.getD_some, List.count_cons]
      omega
  | @fresh id hash _ _ vacated freeIds index length =>
      have new : s.places id = 0 := by
        by_contra pos
        have lt := placed.range id (Nat.pos_of_ne_zero pos)
        omega
      have same : ∀ j, j ≠ id → (s.withHashes h).places j = s.places j := by
        intro j hne
        rw [places, before, freeIds, vacated.newIds, CycleMap.holds_append]
        simp [hne]
      have once : (s.withHashes h).places id = 1 := by
        rw [before] at new
        rw [places, freeIds, vacated.newIds, CycleMap.holds_append]
        simp only [decide_true, Bool.or_true, if_true]
        omega
      refine ⟨fun j => ?_, fun j pos => ?_, vacated.bounded⟩
      · by_cases heq : j = id
        · rw [heq, once]
        · rw [same j heq]
          exact placed.once j
      · show j.index < h.hashes.length
        by_cases heq : j = id
        · rw [heq]
          omega
        · rw [same j heq] at pos
          have := placed.range j pos
          omega
  | full _ _ => exact placed

theorem Placed.write (placed : Placed s) {batch : List (HashId × Serialized)}
    (unowned : ∀ p ∈ batch, s.Unowned p.1) :
    Placed (s.withStore (s.store.writeBatch batch)) := by
  obtain ⟨hashes, freeIds, newIds⟩ := InMemory.writeBatch_hashes batch s.store
  have sender := InMemory.writeBatch_sender batch s.store
  have bounded := InMemory.writeBatch_bounded placed.bounded fun p hp => (unowned p hp).range
  have places : ∀ j, (s.withStore (s.store.writeBatch batch)).places j = s.free.count j +
      s.gc.cycles.places j + s.channel.countP (Command.holds j) +
      if (s.store.writeBatch batch).currentCycle.holds s.store.hashes.newIds j then 1 else 0 := by
    intro j
    rw [System.places, System.free, System.queue, System.channel]
    show ((s.store.writeBatch batch).hashes.freeIds.getD [] ++ _).count j + _ +
      ((s.store.writeBatch batch).sender.getD []).countP _ +
      (if (s.store.writeBatch batch).currentCycle.holds (s.store.writeBatch batch).hashes.newIds j
        then 1 else 0) = _
    rw [freeIds, sender, newIds]
    rfl
  have written : ∀ j, (s.withStore (s.store.writeBatch batch)).places j ≤ s.places j ∨
      s.Unowned j ∧ (s.withStore (s.store.writeBatch batch)).places j ≤ 1 := by
    intro j
    rw [places]
    rcases InMemory.writeBatch_currentCycle batch s.store j with ⟨same, _⟩ | ⟨value, mem, _, _⟩
    · refine Or.inl ?_
      rw [System.places, CycleMap.holds, CycleMap.holds, same]
    · have free := unowned _ mem
      refine Or.inr ⟨free, ?_⟩
      have zero : s.free.count j = 0 := List.count_eq_zero.mpr free.notFree
      have commands : s.channel.countP (Command.holds j) = 0 := by
        refine List.countP_eq_zero.mpr fun command hc => ?_
        rw [free.commands command hc]
        exact Bool.false_ne_true
      rw [zero, free.slots, commands]
      split <;> omega
  refine ⟨fun j => ?_, fun j pos => ?_, bounded⟩
  · rcases written j with le | ⟨_, le⟩
    · exact le.trans (placed.once j)
    · exact le
  · show j.index < (s.store.writeBatch batch).hashes.hashes.length
    rw [hashes]
    rcases written j with le | ⟨free, _⟩
    · exact placed.range j (pos.trans_le le)
    · exact free.range

theorem Placed.put [Digest] (placed : Placed s) (commitHashId : HashId) :
    Placed (s.act (.put commitHashId)) := by
  rw [act, InMemory.putContextHash]
  cases s.store.hashes.getHash commitHashId with
  | none => exact placed
  | some commitHash => exact placed.mono placed.bounded rfl fun j => le_refl _

/-- A command goes to the end of the channel, if there is one. -/
theorem channel_send (s : System) (command : Command) :
    (s.withStore (s.store.send command)).channel = s.channel ∨
      (s.withStore (s.store.send command)).channel = s.channel ++ [command] := by
  rw [channel_withStore, InMemory.send, channel]
  cases s.store.sender with
  | none => exact Or.inl rfl
  | some channel => exact Or.inr rfl

theorem Placed.applied (placed : Placed s) (reused : List HashId) :
    Placed (s.withStore (s.store.blockApplied reused)) := by
  refine placed.mono placed.bounded rfl fun j => ?_
  have commands : (s.withStore (s.store.blockApplied reused)).channel.countP (Command.holds j) =
      s.channel.countP (Command.holds j) := by
    rcases channel_send s (.markReused reused) with same | more
    · rw [InMemory.blockApplied, same]
    · rw [InMemory.blockApplied, more, List.countP_append]
      rfl
  rw [places, commands]
  exact le_refl _

theorem Placed.newCycle (placed : Placed s) : Placed (s.withStore s.store.newCycleStarted) := by
  rw [InMemory.newCycleStarted]
  cases hsender : s.store.sender with
  | none => exact placed
  | some channel =>
      refine placed.mono placed.bounded rfl fun j => ?_
      have hchannel : s.channel = channel := by rw [System.channel, hsender]; rfl
      rw [places, places, hchannel, channel_withStore]
      show s.free.count j + s.gc.cycles.places j +
        (channel ++ [Command.startNewCycle s.store.currentCycle s.store.hashes.newIds]).countP
          (Command.holds j) + (if CycleMap.holds .empty [] j then 1 else 0) ≤ _
      rw [List.countP_append, List.countP_singleton, Command.holds]
      simp [CycleMap.holds]
      omega

/-- The thread takes ids out of a command into a slot, and out of a slot into the free ids. -/
theorem GcStep.places_le {s' : System} (step : GcStep s s') (j : HashId) :
    s'.free.count j + s'.gc.cycles.places j + s'.channel.countP (Command.holds j) ≤
      s.free.count j + s.gc.cycles.places j + s.channel.countP (Command.holds j) := by
  cases step with
  | none => exact le_refl _
  | @step gc channel' queue' moves =>
      show (queue' ++ gc.held).count j + gc.cycles.places j + channel'.countP _ ≤ _
      rw [free]
      cases moves with
      | @roll values newIds rest receiving command =>
          have rolled := Cycles.places_startNewCycle s.gc.cycles values newIds j
          have waiting : s.gc.held = s.gc.pending := by
            rw [GCThread.held, receiving]
            exact List.append_nil _
          rw [command, List.countP_cons, waiting, Command.holds]
          show (s.queue ++ (s.gc.pending ++ _)).count j + _ + _ ≤ _
          rw [List.count_append, List.count_append, List.count_append]
          show s.queue.count j + (s.gc.pending.count j +
            (GCThread.startNewCycle s.gc.cycles values newIds).1.count j) +
            (GCThread.startNewCycle s.gc.cycles values newIds).2.places j + _ ≤ _
          omega
      | @mark reused rest receiving command =>
          have marked : (GCThread.markReused s.gc.cycles reused).places j ≤ s.gc.cycles.places j :=
            Cycles.places_markReusedLoop ..
          have waiting : s.gc.held = s.gc.pending := by
            rw [GCThread.held, receiving]
            exact List.append_nil _
          have still : GCThread.held
              { s.gc with cycles := GCThread.markReused s.gc.cycles reused, state := .pending } =
              s.gc.pending := List.append_nil _
          rw [command, List.countP_cons, waiting, still, Command.holds]
          show _ + (GCThread.markReused s.gc.cycles reused).places j + _ ≤ _
          omega
      | send places =>
          have same := places.count_eq j
          show _ + s.gc.cycles.places j + _ ≤ _
          rw [GCThread.held, same]

theorem Placed.gcStep (placed : Placed s) {s' : System} (step : GcStep s s') : Placed s' := by
  have beside := step.beside
  have bounded : s'.store.hashes.Bounded := by
    rw [HashValueStore.Bounded, beside.hashes, beside.values]
    exact placed.bounded
  refine placed.mono bounded (by rw [beside.hashes]) fun j => ?_
  rw [places, places, beside.currentCycle, beside.newIds]
  exact Nat.add_le_add_right (step.places_le j) _

variable [Digest]

theorem Placed.act (placed : Placed s) {a : Act} (timely : a.Timely s) : Placed (s.act a) := by
  cases a with
  | alloc hash =>
      have handed := HashValueStore.getVacantEntryHash_handed hash placed.bounded
      exact Exec.wp_state (P := fun h => Placed (s.withHashes h)) (Exec.wp_mono handed
        (fun _ _ handed => placed.handed handed) fun _ handed => placed.handed handed)
  | write batch => exact placed.write timely
  | put commitHashId => exact placed.put commitHashId
  | applied reused => exact placed.applied reused
  | newCycle => exact placed.newCycle
  | gc => exact placed.gcStep (gcStep_spec s)

theorem Placed.acts (placed : Placed s) {acts : List Act} (timely : s.Timely acts) :
    Placed (s.afterActs acts) :=
  timely.invariant placed fun _ _ placed timely => placed.act timely

omit [Digest] in
theorem placed_new (disabled : Bool) (schedule : List Nat) : Placed (new disabled schedule) := by
  have places : ∀ id, (new disabled schedule).places id = 0 := by
    intro id
    cases disabled <;> rfl
  refine ⟨fun id => ?_, fun id pos => ?_, ⟨Nat.zero_le _, Nat.zero_le _⟩⟩
  · rw [places]
    exact Nat.zero_le _
  · rw [places] at pos
    exact absurd pos (Nat.lt_irrefl 0)

end Steps

/-! ## Free ids -/

/-- No id is free twice, and none that is free stands elsewhere. -/
structure OwnedOnce (s : System) : Prop where
  nodup : s.free.Nodup
  currentCycle : ∀ id ∈ s.free, s.store.currentCycle.get id = none
  newIds : ∀ id ∈ s.free, id ∉ s.store.hashes.newIds
  commands : ∀ id ∈ s.free, ∀ values newIds, .startNewCycle values newIds ∈ s.channel →
    values.get id = none ∧ id ∉ newIds
  slots : ∀ id ∈ s.free, ∀ slot ∈ s.gc.cycles.list, slot.get id = none

theorem CycleMap.not_holds {values : CycleMap} {newIds : List HashId} {id : HashId}
    (h : values.holds newIds id = false) : values.get id = none ∧ id ∉ newIds := by
  simpa [CycleMap.holds] using h

theorem Placed.ownedOnce {s : System} (placed : Placed s) : OwnedOnce s := by
  have alone : ∀ id ∈ s.free, s.gc.cycles.places id = 0 ∧
      s.channel.countP (Command.holds id) = 0 ∧
      s.store.currentCycle.holds s.store.hashes.newIds id = false := by
    intro id hid
    have once := placed.once id
    have here := List.count_pos_iff.mpr hid
    rw [places] at once
    refine ⟨by omega, by omega, ?_⟩
    by_contra held
    rw [Bool.not_eq_false] at held
    rw [held, if_pos rfl] at once
    omega
  refine ⟨?_, ?_, ?_, ?_, ?_⟩
  · refine List.nodup_iff_count_le_one.mpr fun id => ?_
    have once := placed.once id
    rw [places] at once
    omega
  · exact fun id hid => (CycleMap.not_holds (alone id hid).2.2).1
  · exact fun id hid => (CycleMap.not_holds (alone id hid).2.2).2
  · intro id hid values newIds mem
    have none := List.countP_eq_zero.mp (alone id hid).2.1 _ mem
    exact CycleMap.not_holds (Bool.eq_false_iff.mpr none)
  · exact fun id hid => Cycles.places_eq_zero.mp (alone id hid).1

/-- The ids that the next step of the thread takes out of the oldest slot. -/
def rolledOut (s : System) : List HashId :=
  match s.gc.state, s.channel with
  | .receiving, .startNewCycle values newIds :: _ =>
      (GCThread.startNewCycle s.gc.cycles values newIds).1
  | _, _ => []

/-- Nothing else makes an id free. -/
theorem GcStep.free {s s' : System} (step : GcStep s s') {id : HashId} (mem : id ∈ s'.free) :
    id ∈ s.free ∨ id ∈ s.rolledOut := by
  cases step with
  | none => exact Or.inl mem
  | @step gc channel' queue' moves =>
      change id ∈ queue' ++ gc.held at mem
      rw [System.free]
      cases moves with
      | @roll values newIds rest receiving command =>
          rw [GCThread.held, receiving]
          rcases List.mem_append.mp mem with mem | mem
          · exact Or.inl (List.mem_append_left _ mem)
          · rcases List.mem_append.mp mem with mem | mem
            · exact Or.inl (List.mem_append_right _ (List.mem_append_left _ mem))
            · refine Or.inr ?_
              rw [rolledOut, receiving, command]
              exact mem
      | mark receiving command =>
          rw [GCThread.held, receiving]
          exact Or.inl mem
      | send places => exact Or.inl (places.mem_iff.mp mem)

section Delivery

variable [Digest] {s : System} {id : HashId}

theorem free_act (s : System) (a : Act) (bounded : s.store.hashes.Bounded)
    (mem : id ∈ (s.act a).free) : id ∈ s.free ∨ a = .gc ∧ id ∈ s.rolledOut := by
  cases a with
  | alloc hash =>
      have handed := HashValueStore.getVacantEntryHash_handed hash bounded
      have shorter : ∀ o h, HashValueStore.Handed s.store.hashes o h →
          id ∈ h.freeIds.getD [] → id ∈ s.queue := fun _ _ handed => handed.mem_queue
      refine Or.inl ((List.mem_append.mp mem).elim (fun mem => ?_) fun mem =>
        List.mem_append_right _ mem)
      refine List.mem_append_left _ (Exec.wp_state
        (P := fun h => id ∈ h.freeIds.getD [] → id ∈ s.queue) (Exec.wp_mono handed ?_ ?_) mem)
      · exact fun j h handed => shorter _ h handed
      · exact fun h handed => shorter _ h handed
  | write batch =>
      refine Or.inl ?_
      change id ∈ (s.store.writeBatch batch).hashes.freeIds.getD [] ++ _ at mem
      rw [(InMemory.writeBatch_hashes batch s.store).2.1] at mem
      exact mem
  | put commitHashId =>
      refine Or.inl ?_
      rw [act, InMemory.putContextHash] at mem
      cases hhash : s.store.hashes.getHash commitHashId <;> rw [hhash] at mem <;> exact mem
  | applied reused => exact Or.inl mem
  | newCycle =>
      refine Or.inl ?_
      rw [act, InMemory.newCycleStarted] at mem
      cases hsender : s.store.sender <;> rw [hsender] at mem <;> exact mem
  | gc => exact (GcStep.free (gcStep_spec s) mem).imp_right fun rolls => ⟨rfl, rolls⟩

/-- An id that is taken from the queue is not free any more. -/
theorem Placed.delivered (placed : Placed s) {rest : List HashId} (hash : EntryHash)
    (queue : s.queue = id :: rest) : id ∉ (s.act (.alloc hash)).free := by
  have handed := HashValueStore.getVacantEntryHash_handed hash placed.bounded
  have nodup : (id :: (rest ++ s.gc.held)).Nodup := by
    have nodup := placed.ownedOnce.nodup
    rw [System.free, queue] at nodup
    exact nodup
  have gone : ∀ o h, HashValueStore.Handed s.store.hashes o h → h.freeIds.getD [] = rest := by
    intro o h handed
    rw [System.queue] at queue
    cases handed with
    | reused here _ freeIds _ =>
        rw [here] at queue
        cases queue
        rw [freeIds]
        rfl
    | lost here _ =>
        rw [here] at queue
        cases queue
        rfl
    | fresh empty _ _ _ _ =>
        rw [empty] at queue
        cases queue
    | full empty _ =>
        rw [empty] at queue
        cases queue
  intro mem
  have still : id ∈ rest ++ s.gc.held := by
    rcases List.mem_append.mp mem with mem | mem
    · refine List.mem_append_left _ (Exec.wp_state
        (P := fun h => id ∈ h.freeIds.getD [] → id ∈ rest) (Exec.wp_mono handed ?_ ?_) mem)
      · intro j h handed mem
        rw [gone _ h handed] at mem
        exact mem
      · intro h handed mem
        rw [gone _ h handed] at mem
        exact mem
    · exact List.mem_append_right _ mem
  exact (List.nodup_cons.mp nodup).1 still

/-- An id that is free again was rolled out in between. -/
theorem rolled_between {acts : List Act} (placed : Placed s) (timely : s.Timely acts)
    (notFree : id ∉ s.free) (mem : id ∈ (s.afterActs acts).free) :
    ∃ before after, acts = before ++ .gc :: after ∧ id ∈ (s.afterActs before).rolledOut := by
  induction acts generalizing s with
  | nil => exact absurd mem notFree
  | cons a acts ih =>
      by_cases here : id ∈ (s.act a).free
      · obtain ⟨rfl, rolls⟩ := (free_act s a placed.bounded here).resolve_left notFree
        exact ⟨[], acts, rfl, rolls⟩
      · obtain ⟨before, after, rfl, rolls⟩ := ih (placed.act timely.1) timely.2 here mem
        exact ⟨a :: before, after, rfl, rolls⟩

/-- In a run in which no batch is written to an id of another cycle, no id is free twice or
stands elsewhere when it is free.  An id that the queue delivers twice was rolled out in
between. -/
theorem ids_owned_once (disabled : Bool) (schedule : List Nat) {acts : List Act}
    (timely : (new disabled schedule).Timely acts) :
    OwnedOnce ((new disabled schedule).afterActs acts) ∧
      ∀ first hash between id, acts = first ++ .alloc hash :: between →
        ((new disabled schedule).afterActs first).queue.head? = some id →
        ((new disabled schedule).afterActs acts).queue.head? = some id →
        ∃ before after, between = before ++ .gc :: after ∧
          id ∈ ((new disabled schedule).afterActs (first ++ .alloc hash :: before)).rolledOut := by
  have placed := placed_new disabled schedule
  refine ⟨(placed.acts timely).ownedOnce, ?_⟩
  rintro first hash between id rfl delivered again
  obtain ⟨timely₁, _, timely₂⟩ := along_append.mp timely
  have placed₁ := placed.acts timely₁
  obtain ⟨rest, queue⟩ := List.head?_eq_some_iff.mp delivered
  have notFree := placed₁.delivered hash queue
  have mem : id ∈ ((new disabled schedule).afterActs (first ++ .alloc hash :: between)).free :=
    List.mem_append_left _ (List.mem_of_mem_head? again)
  have split : ∀ l, (new disabled schedule).afterActs (first ++ .alloc hash :: l) =
      (((new disabled schedule).afterActs first).act (.alloc hash)).afterActs l := by
    intro l
    rw [afterActs, List.foldl_append]
    rfl
  rw [split] at mem
  obtain ⟨before, after, hbetween, rolls⟩ :=
    rolled_between (placed₁.act (a := .alloc hash) trivial) timely₂ notFree mem
  refine ⟨before, after, hbetween, ?_⟩
  rw [split]
  exact rolls

end Delivery

section Sample

local instance ownershipDigest : Digest := sampleDigest

/-- A cycle ends, and the thread frees the ids of the oldest one. -/
def endCycle : List Act := [.newCycle, .gc, .gc, .gc]

/-- The first id, and a hash. -/
def firstId : HashId := ⟨1, by decide, by decide⟩

def zeroHash : EntryHash := ⟨List.replicate 32 0, List.length_replicate⟩

/-- An entry is hashed and written in one cycle, which ends, and seven more. -/
def writtenThenRolled : List Act :=
  [.alloc zeroHash, .write [(firstId, .blob [1])]] ++ (List.replicate 8 endCycle).flatten

theorem ids_owned_once_delivered :
    let s := (new false []).afterActs (writtenThenRolled ++ writtenThenRolled)
    OwnedOnce s ∧ s.queue = [firstId] ∧
      ∃ before after, ([.write [(firstId, .blob [1])]] ++ (List.replicate 8 endCycle).flatten) =
        before ++ .gc :: after ∧
        firstId ∈
          ((new false []).afterActs (writtenThenRolled ++ .alloc zeroHash :: before)).rolledOut := by
  intro s
  have timely : (new false []).Timely (writtenThenRolled ++ writtenThenRolled) := by
    decide +kernel
  obtain ⟨once, delivered⟩ := ids_owned_once false [] timely
  refine ⟨once, by decide +kernel, ?_⟩
  exact delivered writtenThenRolled zeroHash _ firstId rfl (by decide +kernel) (by decide +kernel)

/-- An entry is hashed in one cycle and written in the next one.  Its id is freed twice, and
two calls get it. -/
theorem late_write_frees_twice :
    let s := (new false []).afterActs ([.alloc zeroHash] ++ endCycle ++
      [.write [(firstId, .blob [1])]] ++ (List.replicate 8 endCycle).flatten)
    ¬ OwnedOnce s ∧ (HashValueStore.getVacantEntryHash zeroHash s.store.hashes).1 = .ok firstId ∧
      (HashValueStore.getVacantEntryHash zeroHash (s.act (.alloc zeroHash)).store.hashes).1 =
        .ok firstId := by
  intro s
  refine ⟨fun once => ?_, by decide +kernel, by decide +kernel⟩
  have twice : ¬ s.free.Nodup := by
    decide +kernel
  exact twice once.nodup

end Sample

end System

end NodeFuzzer
