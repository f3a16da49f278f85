import NodeFuzzer.Context.Marking

/-!
# What the thread will have done

The commands on their way to the thread are obeyed in order, whatever the store does
meanwhile.  `drained` are the slots after the last one of them, and `leaving` are the ids
that are free by then.

* A step of the thread changes neither (`gcStep_spec`, `Handing.gcStep`).
* Handing out ids takes some of those that leave, or new ones (`Handing`).
* An id that is `Kept` for a number of cycles does not leave before these cycles ended.
-/

namespace NodeFuzzer

namespace System

/-- The id does not leave before `n` cycles end. -/
structure Kept (s : System) (n : Nat) (id : HashId) : Prop where
  stays : id ∉ s.leaving
  young : ∀ i < n, ∀ slot, s.drained.list[i]? = some slot → slot.get id = none

theorem Kept.mono {s : System} {m n : Nat} {id : HashId} (kept : Kept s n id) (le : m ≤ n) :
    Kept s m id := ⟨kept.stays, fun i lt => kept.young i (lt.trans_le le)⟩

/-! ## Ids in one place -/

section Places

variable {s : System} {id : HashId}

theorem Placed.leaving (placed : Placed s) (id : HashId) :
    s.leaving.count id + s.drained.places id +
      (if s.store.currentCycle.holds s.store.hashes.newIds id then 1 else 0) ≤ 1 := by
  have once := placed.once id
  have obeyed := s.gc.cycles.places_obeyAll s.channel id
  rw [places] at once
  rw [System.leaving, List.count_append]
  show _ + _ + (s.gc.cycles.obeyAll s.channel).places id + _ ≤ 1
  omega

theorem Placed.single (placed : Placed s) : s.drained.Single := by
  intro id
  have once := placed.leaving id
  omega

/-- An id of the running cycle is kept as long as any. -/
theorem Unowned.nowhere (unowned : s.Unowned id) : id ∉ s.leaving ∧ s.drained.places id = 0 := by
  have obeyed := s.gc.cycles.places_obeyAll s.channel id
  have commands : s.channel.countP (Command.holds id) = 0 := by
    refine List.countP_eq_zero.mpr ?_
    intro command mem
    rw [unowned.commands command mem]
    exact Bool.false_ne_true
  rw [unowned.slots, commands] at obeyed
  refine ⟨?_, ?_⟩
  · intro mem
    rcases List.mem_append.mp mem with mem | mem
    · exact unowned.notFree mem
    · have := List.count_pos_iff.mpr mem
      omega
  · show (s.gc.cycles.obeyAll s.channel).places id = 0
    omega

theorem Unowned.kept (unowned : s.Unowned id) (n : Nat) : Kept s n id := by
  obtain ⟨stays, slots⟩ := unowned.nowhere
  refine ⟨stays, fun i _ slot at_ => ?_⟩
  exact Cycles.places_eq_zero.mp slots slot (List.mem_of_getElem? at_)

end Places

/-! ## Handing out ids -/

theorem unowned_iff {s : System} {id : HashId} : s.Unowned id ↔
    id.index < s.store.hashes.hashes.length ∧
      s.free.count id + s.gc.cycles.places id + s.channel.countP (Command.holds id) = 0 := by
  have commands : s.channel.countP (Command.holds id) = 0 ↔
      ∀ command ∈ s.channel, command.holds id = false := by
    simp [List.countP_eq_zero]
  constructor
  · intro unowned
    rw [commands.mpr unowned.commands, unowned.slots, List.count_eq_zero.mpr unowned.notFree]
    exact ⟨unowned.range, rfl⟩
  · rintro ⟨range, none⟩
    exact ⟨range, List.count_eq_zero.mp (by omega), by omega, commands.mp (by omega)⟩

/-- An id that was handed out in the running cycle stands nowhere else. -/
theorem Placed.unowned {s : System} (placed : Placed s) {id : HashId}
    (new : id ∈ s.store.hashes.newIds) : s.Unowned id := by
  have here : s.store.currentCycle.holds s.store.hashes.newIds id = true := by
    simp [CycleMap.holds, new]
  have once := placed.once id
  rw [places, here, if_pos rfl] at once
  refine unowned_iff.mpr ⟨placed.range id ?_, by omega⟩
  rw [places, here, if_pos rfl]
  exact Nat.succ_pos _

/-- Ids were handed out, while the thread made steps. -/
structure Handing (s : System) (ids : List HashId) (s' : System) : Prop where
  placed : Placed s'
  drained : s'.drained = s.drained
  leaving : ∀ id ∈ s'.leaving, id ∈ s.leaving
  length : s.store.hashes.hashes.length ≤ s'.store.hashes.hashes.length
  sender : s'.store.sender = none → s.store.sender = none
  contextHashes : s'.store.contextHashes = s.store.contextHashes
  contextHashesCycles : s'.store.contextHashesCycles = s.store.contextHashesCycles
  same : ∀ id ∉ ids, s'.store.hashes.getHash id = s.store.hashes.getHash id ∧
    s'.store.hashes.getValue id = s.store.hashes.getValue id
  given : ∀ id ∈ ids, (id ∈ s.leaving ∨ s.store.hashes.hashes.length ≤ id.index) ∧
    s'.Unowned id ∧ s'.store.hashes.getValue id = none
  unowned : ∀ id, s.Unowned id → s'.Unowned id
  nodup : ids.Nodup

namespace Handing

variable {s s' s'' : System} {ids ids' : List HashId} {id : HashId}

theorem refl (placed : Placed s) : Handing s [] s :=
  ⟨placed, rfl, fun _ h => h, le_refl _, fun h => h, rfl, rfl, fun _ _ => ⟨rfl, rfl⟩,
    fun _ h => absurd h List.not_mem_nil, fun _ h => h, List.nodup_nil⟩

/-- Ids of the running cycle are not handed out. -/
theorem not_given (h : Handing s ids s') (unowned : s.Unowned id) : id ∉ ids := by
  intro mem
  rcases (h.given id mem).1 with leaves | new
  · exact unowned.nowhere.1 leaves
  · exact absurd unowned.range (Nat.not_lt.mpr new)

theorem trans (h : Handing s ids s') (h' : Handing s' ids' s'') :
    Handing s (ids' ++ ids) s'' where
  placed := h'.placed
  drained := h'.drained.trans h.drained
  leaving := fun id mem => h.leaving id (h'.leaving id mem)
  length := h.length.trans h'.length
  sender := fun none => h.sender (h'.sender none)
  contextHashes := h'.contextHashes.trans h.contextHashes
  contextHashesCycles := h'.contextHashesCycles.trans h.contextHashesCycles
  same := by
    intro id out
    rw [List.mem_append, not_or] at out
    obtain ⟨hash, value⟩ := h.same id out.2
    obtain ⟨hash', value'⟩ := h'.same id out.1
    exact ⟨hash'.trans hash, value'.trans value⟩
  given := by
    intro id mem
    rcases List.mem_append.mp mem with mem | mem
    · obtain ⟨source, unowned, value⟩ := h'.given id mem
      exact ⟨source.imp (h.leaving id) h.length.trans, unowned, value⟩
    · obtain ⟨source, unowned, value⟩ := h.given id mem
      exact ⟨source, h'.unowned id unowned, (h'.same id (h'.not_given unowned)).2.trans value⟩
  unowned := fun id unowned => h'.unowned id (h.unowned id unowned)
  nodup := by
    refine List.nodup_append'.mpr ⟨h'.nodup, h.nodup, ?_⟩
    intro id mem' mem
    exact h'.not_given (h.given id mem).2.1 mem'

theorem gcStep (placed : Placed s) (step : GcStep s s') : Handing s [] s' := by
  have beside := step.beside
  refine ⟨placed.gcStep step, step.drained, fun id mem => step.leaving.mem_iff.mp mem, ?_,
    ?_, beside.contextHashes, beside.contextHashesCycles, ?_,
    fun _ h => absurd h List.not_mem_nil, ?_, List.nodup_nil⟩
  · rw [beside.hashes]
  · intro none
    cases step with
    | none => exact none
    | step _ => cases none
  · intro id _
    rw [HashValueStore.getHash, HashValueStore.getHash, HashValueStore.getValue,
      HashValueStore.getValue, beside.hashes, beside.values]
    exact ⟨rfl, rfl⟩
  · intro id unowned
    rw [unowned_iff] at unowned ⊢
    have le := step.places_le id
    rw [beside.hashes]
    exact ⟨unowned.1, by omega⟩

theorem gcSteps (n : Nat) (placed : Placed s) : Handing s [] (gcSteps n s) := by
  induction n generalizing s with
  | zero => exact refl placed
  | succ n ih =>
      have first := gcStep placed (gcStep_spec s)
      exact first.trans (ih first.placed)

theorem runScheduled (placed : Placed s) : Handing s [] s.runScheduled := by
  have start : Handing s [] { s with schedule := s.schedule.tail } := by
    have here := refl placed
    exact ⟨⟨placed.once, placed.range, placed.bounded⟩, here.drained, here.leaving, here.length,
      here.sender, here.contextHashes, here.contextHashesCycles, here.same,
      fun _ mem => absurd mem List.not_mem_nil, fun id unowned => ⟨unowned.range, unowned.notFree, unowned.slots, unowned.commands⟩,
      List.nodup_nil⟩
  exact start.trans (gcSteps _ start.placed)

/-- Taking an id, or failing to. -/
theorem handed (placed : Placed s) {o : Option HashId} {h : HashValueStore}
    (handed : HashValueStore.Handed s.store.hashes o h) :
    Handing s o.toList (s.withHashes h) := by
  have placed' := placed.handed handed
  have shorter : ∀ id ∈ (s.withHashes h).free, id ∈ s.free := by
    intro id mem
    rcases List.mem_append.mp mem with mem | mem
    · exact List.mem_append_left _ (handed.mem_queue mem)
    · exact List.mem_append_right _ mem
  have leaving : ∀ id ∈ (s.withHashes h).leaving, id ∈ s.leaving := by
    intro id mem
    rcases List.mem_append.mp mem with mem | mem
    · exact List.mem_append_left _ (shorter id mem)
    · exact List.mem_append_right _ mem
  have longer : s.store.hashes.hashes.length ≤ h.hashes.length := by
    cases handed with
    | reused _ _ _ length => exact length.ge
    | lost _ _ => exact le_refl _
    | fresh _ _ _ _ length => omega
    | full _ _ => exact le_refl _
  have unowned : ∀ id, s.Unowned id → (s.withHashes h).Unowned id := fun id unowned =>
    ⟨unowned.range.trans_le longer, fun mem => unowned.notFree (shorter id mem), unowned.slots,
      unowned.commands⟩
  have rest : (∀ id ∉ o.toList, h.getHash id = s.store.hashes.getHash id ∧
        h.getValue id = s.store.hashes.getValue id) →
      (∀ id ∈ o.toList, (id ∈ s.leaving ∨ s.store.hashes.hashes.length ≤ id.index) ∧
        (s.withHashes h).Unowned id ∧ h.getValue id = none) →
      Handing s o.toList (s.withHashes h) := fun same given =>
    ⟨placed', rfl, leaving, longer, fun h => h, rfl, rfl, same, given, unowned, by cases o <;> simp⟩
  have new : ∀ {id hash}, HashValueStore.Vacated s.store.hashes h id hash →
      id ∈ (s.withHashes h).store.hashes.newIds := by
    intro id hash vacated
    show id ∈ h.newIds
    rw [vacated.newIds]
    exact List.mem_append_right _ (List.mem_singleton_self id)
  cases handed with
  | @reused id rest' hash _ queue vacated freeIds length =>
      refine rest (fun j out => vacated.frame j fun heq => out (by simp [heq])) ?_
      intro j mem
      cases List.mem_singleton.mp mem
      have free : id ∈ s.free := by
        refine List.mem_append_left _ ?_
        rw [System.queue, queue]
        exact List.mem_cons_self
      exact ⟨Or.inl (free_leaving free), placed'.unowned (new vacated), vacated.value⟩
  | lost queue short => exact rest (fun _ _ => ⟨rfl, rfl⟩) fun _ mem => absurd mem List.not_mem_nil
  | @fresh id hash _ empty vacated freeIds index length =>
      refine rest (fun j out => vacated.frame j fun heq => out (by simp [heq])) ?_
      intro j mem
      cases List.mem_singleton.mp mem
      exact ⟨Or.inr index.ge, placed'.unowned (new vacated), vacated.value⟩
  | full empty length => exact rest (fun _ _ => ⟨rfl, rfl⟩) fun _ mem => absurd mem List.not_mem_nil

/-- `get_vacant_entry_hash`, with what the thread does before. -/
theorem getVacantEntryHash (hash : EntryHash) (placed : Placed s) :
    Exec.wp (System.getVacantEntryHash hash) (fun id s' => Handing s [id] s')
      (fun s' => Handing s [] s') s := by
  rw [System.getVacantEntryHash, Exec.wp_bind, Exec.wp_modify, onHashes, Exec.wp_onPart]
  have ran := runScheduled placed
  refine Exec.wp_mono (HashValueStore.getVacantEntryHash_handed hash ran.placed.bounded) ?_ ?_
  · intro id h got
    exact ran.trans (handed ran.placed got)
  · intro h got
    exact ran.trans (handed ran.placed got)

/-- An id that is kept is not handed out. -/
theorem kept (h : Handing s ids s') {n : Nat} (kept : Kept s n id)
    (range : id.index < s.store.hashes.hashes.length) : id ∉ ids ∧ Kept s' n id := by
  refine ⟨?_, fun mem => kept.stays (h.leaving id mem), ?_⟩
  · intro mem
    rcases (h.given id mem).1 with leaves | new
    · exact kept.stays leaves
    · exact absurd range (Nat.not_lt.mpr new)
  · rw [h.drained]
    exact kept.young

end Handing

end System

end NodeFuzzer
