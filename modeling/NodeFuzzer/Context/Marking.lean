import NodeFuzzer.Context.Ownership

/-!
# What `mark_reused` reaches

`mark_reused` follows the ids it is given, and goes on below an id when it found it in an
older slot.  `Walked` are the ids it comes to so: they leave the older slots.  It does not
look below an id of the last slot, whatever stands there.

The older slots only lose ids, and keep their order (`Marked`).
-/

namespace NodeFuzzer

namespace Cycles

/-- The id stands in an older slot, with a value. -/
def Older (c : Cycles) (id : HashId) (value : Serialized) : Prop :=
  ∃ slot ∈ c.older, slot.get id = some (some value)

/-- The ids that `mark_reused` comes to. -/
inductive Walked (c : Cycles) (reused : List HashId) : HashId → Prop
  | start {id : HashId} {value : Serialized} (mem : id ∈ reused) (older : c.Older id value) :
      Walked c reused id
  | next {id r : HashId} {value value' : Serialized} (walked : Walked c reused id)
      (older : c.Older id value) (mem : r ∈ value.references) (here : c.Older r value') :
      Walked c reused r

theorem Walked.mono {c : Cycles} {reused reused' : List HashId} {id : HashId}
    (walked : Walked c reused id) (le : ∀ r ∈ reused, r ∈ reused') : Walked c reused' id := by
  induction walked with
  | start mem older => exact .start (le _ mem) older
  | next _ older mem here ih => exact .next ih older mem here

/-- No id stands in two slots. -/
def Single (c : Cycles) : Prop := ∀ id, c.places id ≤ 1

theorem countP_le_one_unique {α : Type} {p : α → Bool} {l : List α} (one : l.countP p ≤ 1) {a b : α}
    (ha : a ∈ l) (hb : b ∈ l) (pa : p a = true) (pb : p b = true) : a = b := by
  rw [List.countP_eq_length_filter] at one
  have ma := List.mem_filter.mpr ⟨ha, pa⟩
  have mb := List.mem_filter.mpr ⟨hb, pb⟩
  match filtered : l.filter p with
  | [] =>
      rw [filtered] at ma
      exact absurd ma List.not_mem_nil
  | [x] =>
      rw [filtered] at ma mb
      rw [List.mem_singleton.mp ma, List.mem_singleton.mp mb]
  | x :: y :: rest =>
      rw [filtered] at one
      simp at one

/-- An id stands in one slot, with one entry. -/
theorem Single.unique {c : Cycles} (single : c.Single) {slot slot' : CycleMap}
    (mem : slot ∈ c.list) (mem' : slot' ∈ c.list) {id : HashId} {o o' : Option Serialized}
    (here : slot.get id = some o) (here' : slot'.get id = some o') : o = o' := by
  have same : slot = slot' := countP_le_one_unique (single id) mem mem'
    (Option.isSome_iff_exists.mpr ⟨o, here⟩) (Option.isSome_iff_exists.mpr ⟨o', here'⟩)
  rw [same, here'] at here
  exact (Option.some.inj here).symm

theorem Older.unique {c : Cycles} (single : c.Single) {id : HashId} {value value' : Serialized}
    (older : c.Older id value) (older' : c.Older id value') : value = value' := by
  obtain ⟨slot, mem, here⟩ := older
  obtain ⟨slot', mem', here'⟩ := older'
  exact Option.some.inj
    (single.unique (List.mem_append_left _ mem) (List.mem_append_left _ mem') here here')

/-- Older slots lose ids, and the last one has ids of all. -/
structure Marked (c c' : Cycles) : Prop where
  older : ∀ (i : Nat) slot', c'.older[i]? = some slot' → ∃ slot, c.older[i]? = some slot ∧
    ∀ id o, slot'.get id = some o → slot.get id = some o
  last : ∀ id o, c'.last.get id = some o → ∃ slot ∈ c.list, slot.get id = some o

namespace Marked

variable {c c' c'' : Cycles}

theorem refl (c : Cycles) : Marked c c :=
  ⟨fun _ slot h => ⟨slot, h, fun _ _ h => h⟩, fun _ _ h =>
    ⟨c.last, List.mem_append_right _ (List.mem_singleton_self _), h⟩⟩

theorem mem (h : Marked c c') {slot' : CycleMap} (mem : slot' ∈ c'.list) {id : HashId}
    {o : Option Serialized} (here : slot'.get id = some o) :
    ∃ slot ∈ c.list, slot.get id = some o := by
  rcases List.mem_append.mp mem with mem | mem
  · obtain ⟨i, at_⟩ := List.mem_iff_getElem?.mp mem
    obtain ⟨slot, hslot, sub⟩ := h.older i slot' at_
    exact ⟨slot, List.mem_append_left _ (List.mem_of_getElem? hslot), sub id o here⟩
  · rw [List.mem_singleton.mp mem] at here
    exact h.last id o here

theorem trans (h : Marked c c') (h' : Marked c' c'') : Marked c c'' := by
  refine ⟨?_, ?_⟩
  · intro i slot'' at_
    obtain ⟨slot', at', sub'⟩ := h'.older i slot'' at_
    obtain ⟨slot, at'', sub⟩ := h.older i slot' at'
    exact ⟨slot, at'', fun id o here => sub id o (sub' id o here)⟩
  · intro id o here
    obtain ⟨slot', mem, here'⟩ := h'.last id o here
    exact h.mem mem here'

/-- An id that is in none of the first slots stays out of them. -/
theorem young (h : Marked c c') {n : Nat} {id : HashId}
    (young : ∀ i < n, ∀ slot, c.list[i]? = some slot → slot.get id = none) :
    ∀ i < n, ∀ slot, c'.list[i]? = some slot → slot.get id = none := by
  intro i lt slot' at_
  cases here : slot'.get id with
  | none => rfl
  | some o =>
      rw [list, List.getElem?_append] at at_
      split at at_
      next inside =>
        obtain ⟨slot, at', sub⟩ := h.older i slot' at_
        have none := young i lt slot (by
          rw [list, List.getElem?_append_left (List.getElem?_eq_some_iff.mp at').1]
          exact at')
        rw [sub id o here] at none
        cases none
      next outside =>
        -- The last slot may have ids of all slots, which are among the first ones then.
        have mem : slot' ∈ c'.list :=
          List.mem_append_right _ (List.mem_of_getElem? at_)
        obtain ⟨slot, mem, there⟩ := h.mem mem here
        obtain ⟨j, hj⟩ := List.mem_iff_getElem?.mp mem
        have bound := (List.getElem?_eq_some_iff.mp hj).1
        rw [list, List.length_append, List.length_singleton] at bound
        have size := c.size
        have size' := c'.size
        have none := young j (by omega) slot hj
        rw [there] at none
        cases none

/-- An id that left the older slots does not come back. -/
theorem gone (h : Marked c c') {id : HashId} (gone : ∀ slot ∈ c.older, slot.get id = none) :
    ∀ slot ∈ c'.older, slot.get id = none := by
  intro slot' mem
  obtain ⟨i, at_⟩ := List.mem_iff_getElem?.mp mem
  obtain ⟨slot, at', sub⟩ := h.older i slot' at_
  cases here : slot'.get id with
  | none => rfl
  | some o =>
      have there := sub id o here
      rw [gone slot (List.mem_of_getElem? at')] at there
      cases there

end Marked

theorem Moved.marked {c c' : Cycles} {hashId : HashId} {value : Option Serialized}
    (moved : Moved c hashId (value, c')) :
    Marked c c' ∧ ∀ slot ∈ c'.older, slot.get hashId = none := by
  have removed : ∀ {c' : Cycles}, c'.older = c.older.map (fun slot => slot.remove hashId) →
      (∀ (i : Nat) slot', c'.older[i]? = some slot' → ∃ slot, c.older[i]? = some slot ∧
        ∀ id o, slot'.get id = some o → slot.get id = some o) ∧
      ∀ slot ∈ c'.older, slot.get hashId = none := by
    intro c' older
    refine ⟨?_, ?_⟩
    · intro i slot' at_
      rw [older, List.getElem?_map] at at_
      obtain ⟨slot, hslot, rfl⟩ := Option.map_eq_some_iff.mp at_
      refine ⟨slot, hslot, ?_⟩
      intro id o here
      rw [OrdMap.get_remove] at here
      split at here
      · cases here
      · exact here
    · intro slot' mem
      rw [older] at mem
      obtain ⟨slot, _, rfl⟩ := List.mem_map.mp mem
      exact OrdMap.get_remove_self slot hashId
  cases moved with
  | dropped older last blank =>
      obtain ⟨sub, gone⟩ := removed older
      refine ⟨⟨sub, ?_⟩, gone⟩
      intro id o here
      rw [last] at here
      exact (Marked.refl c).last id o here
  | @moved _ slot value older last mem held =>
      obtain ⟨sub, gone⟩ := removed older
      refine ⟨⟨sub, ?_⟩, gone⟩
      intro id o here
      rw [last, OrdMap.get_insert] at here
      split at here
      next same =>
        cases here
        rw [← same]
        exact ⟨slot, List.mem_append_left _ mem, held⟩
      next => exact (Marked.refl c).last id o here

/-! ## How often the loop goes round -/

theorem slotVisits_remove (slot : CycleMap) (id : HashId) :
    GCThread.slotVisits (slot.remove id) ≤ GCThread.slotVisits slot :=
  OrdMap.sum_remove_le _ slot id

theorem slotVisits_remove_value {slot : CycleMap} {id : HashId} {value : Serialized}
    (held : slot.get id = some (some value)) :
    GCThread.slotVisits (slot.remove id) + (1 + value.references.length) ≤
      GCThread.slotVisits slot :=
  OrdMap.sum_remove_add_le
    (fun p : HashId × Option Serialized =>
      1 + ((p.2.map fun value => value.references.length).getD 0)) held

theorem sum_slotVisits_remove (slots : List CycleMap) (id : HashId) :
    ((slots.map fun slot => slot.remove id).map GCThread.slotVisits).sum ≤
      (slots.map GCThread.slotVisits).sum := by
  induction slots with
  | nil => exact le_refl _
  | cons slot slots ih =>
      simp only [List.map_cons, List.sum_cons]
      exact Nat.add_le_add (slotVisits_remove slot id) ih

theorem sum_slotVisits_remove_value {slots : List CycleMap} {slot : CycleMap} {id : HashId}
    {value : Serialized} (mem : slot ∈ slots) (held : slot.get id = some (some value)) :
    ((slots.map fun slot => slot.remove id).map GCThread.slotVisits).sum +
      (1 + value.references.length) ≤ (slots.map GCThread.slotVisits).sum := by
  induction slots with
  | nil => exact absurd mem List.not_mem_nil
  | cons first slots ih =>
      simp only [List.map_cons, List.sum_cons]
      rcases List.mem_cons.mp mem with rfl | mem
      · have here := slotVisits_remove_value held
        have rest := sum_slotVisits_remove slots id
        omega
      · have here := slotVisits_remove first id
        have rest := ih mem
        omega

/-! ## The loop -/

section Loop

variable {c c' : Cycles} {reused : List HashId}

theorem Single.mono (single : c.Single) (le : ∀ id, c'.places id ≤ c.places id) : c'.Single :=
  fun id => (le id).trans (single id)

/-- A round that drops an id loses no other one that is to be visited. -/
theorem Walked.dropped {hashId : HashId} (older : c'.older = c.older.map fun slot =>
    slot.remove hashId) (blank : ∀ slot ∈ c.older, (slot.get hashId).join = none) {id : HashId}
    (walked : Walked c (hashId :: reused) id) : Walked c' reused id := by
  have other : ∀ {j value}, c.Older j value → j ≠ hashId := by
    rintro j value ⟨slot, mem, here⟩ rfl
    have none := blank slot mem
    rw [here] at none
    cases none
  have kept : ∀ {j value}, c.Older j value → c'.Older j value := by
    intro j value here
    have ne := other here
    obtain ⟨slot, mem, here⟩ := here
    refine ⟨slot.remove hashId, ?_, ?_⟩
    · rw [older]
      exact List.mem_map_of_mem mem
    · rw [OrdMap.get_remove, if_neg (Ne.symm ne)]
      exact here
  induction walked with
  | start mem here =>
      rcases List.mem_cons.mp mem with rfl | mem
      · exact absurd rfl (other here)
      · exact .start mem (kept here)
  | next _ here mem here' ih => exact .next ih (kept here) mem (kept here')

/-- A round that moves an id goes on with what it refers to. -/
theorem Walked.moved (single : c.Single) {hashId : HashId} {value : Serialized}
    (older : c'.older = c.older.map fun slot => slot.remove hashId)
    (held : c.Older hashId value) {id : HashId} (walked : Walked c (hashId :: reused) id) :
    id = hashId ∨ Walked c' (value.references.reverse ++ reused) id := by
  have kept : ∀ {j value}, j ≠ hashId → c.Older j value → c'.Older j value := by
    rintro j value ne ⟨slot, mem, here⟩
    refine ⟨slot.remove hashId, ?_, ?_⟩
    · rw [older]
      exact List.mem_map_of_mem mem
    · rw [OrdMap.get_remove, if_neg (Ne.symm ne)]
      exact here
  induction walked with
  | @start id _ mem here =>
      by_cases same : id = hashId
      · exact Or.inl same
      · rcases List.mem_cons.mp mem with rfl | mem
        · exact absurd rfl same
        · exact Or.inr (.start (List.mem_append_right _ mem) (kept same here))
  | @next id r _ _ _ here mem here' ih =>
      by_cases same : r = hashId
      · exact Or.inl same
      · refine Or.inr ?_
        by_cases from_ : id = hashId
        · subst from_
          rw [here.unique single held] at mem
          exact .start (List.mem_append_left _ (List.mem_reverse.mpr mem)) (kept same here')
        · exact .next (ih.resolve_left from_) (kept from_ here) mem (kept same here')

/-- What the loop does when it may go round often enough. -/
theorem markReusedLoop_marked {fuel : Nat} (single : c.Single)
    (enough : GCThread.visits reused c ≤ fuel) :
    Marked c (GCThread.markReusedLoop fuel reused c) ∧
      ∀ id, Walked c reused id →
        ∀ slot ∈ (GCThread.markReusedLoop fuel reused c).older, slot.get id = none := by
  induction fuel generalizing reused c with
  | zero =>
      have none : reused = [] := List.length_eq_zero_iff.mp (by
        rw [GCThread.visits] at enough
        omega)
      refine ⟨Marked.refl c, fun id walked => ?_⟩
      rw [none] at walked
      exfalso
      induction walked with
      | start mem => exact absurd mem List.not_mem_nil
      | next _ _ _ _ ih => exact ih
  | succ fuel ih =>
      cases reused with
      | nil =>
          refine ⟨Marked.refl c, fun id walked => ?_⟩
          exfalso
          induction walked with
          | start mem => exact absurd mem List.not_mem_nil
          | next _ _ _ _ ih => exact ih
      | cons hashId reused =>
          have moved := c.moveToLastCycle_moved hashId
          have single' : (c.moveToLastCycle hashId).2.Single :=
            single.mono fun id => places_moveToLastCycle c hashId id
          rw [GCThread.visits, List.length_cons] at enough
          rw [GCThread.markReusedLoop]
          generalize c.moveToLastCycle hashId = result at moved single' ⊢
          rcases result with ⟨_ | value, c'⟩
          · obtain ⟨marked, _⟩ := moved.marked
            cases moved with
            | dropped older last blank =>
                have less := sum_slotVisits_remove c.older hashId
                rw [← older] at less
                have enough' : GCThread.visits reused c' ≤ fuel := by
                  rw [GCThread.visits]
                  omega
                obtain ⟨marked', gone⟩ := ih single' enough'
                exact ⟨marked.trans marked', fun id walked => gone id (walked.dropped older blank)⟩
          · obtain ⟨marked, left⟩ := moved.marked
            cases moved with
            | moved older last mem held =>
                have less := sum_slotVisits_remove_value mem held
                rw [← older] at less
                have enough' : GCThread.visits (value.references.reverse ++ reused) c' ≤ fuel := by
                  rw [GCThread.visits, List.length_append, List.length_reverse]
                  omega
                obtain ⟨marked', gone⟩ := ih single' enough'
                refine ⟨marked.trans marked', fun id walked => ?_⟩
                rcases walked.moved single older ⟨_, mem, held⟩ with rfl | walked
                · exact marked'.gone left
                · exact gone id walked

end Loop

/-- The ids that are walked to are in no older slot any more. -/
theorem markReused_marked {c : Cycles} (single : c.Single) (reused : List HashId) :
    Marked c (GCThread.markReused c reused) ∧ ∀ id, Walked c reused id →
      ∀ slot ∈ (GCThread.markReused c reused).older, slot.get id = none := by
  have length : GCThread.visits reused.reverse c = GCThread.visits reused c := by
    rw [GCThread.visits, GCThread.visits, List.length_reverse]
  obtain ⟨marked, gone⟩ :=
    markReusedLoop_marked single (le_of_eq length)
  refine ⟨marked, fun id walked => gone id ?_⟩
  induction walked with
  | start mem here => exact .start (List.mem_reverse.mpr mem) here
  | next _ here mem here' ih => exact .next ih here mem here'

end Cycles

end NodeFuzzer
