import Mathlib.Data.List.Nodup
import NodeFuzzer.Context.Gc

/-!
# Where ids stand

An id stands in slots of the thread and in commands.  A command moves it to another slot, or
frees it.  `obeyAll` are the slots after the commands that wait, and `freesAll` the ids that
these free, whatever the store does meanwhile.
-/

namespace NodeFuzzer

/-- An id stands in a cycle that ends, as new or with a value. -/
def CycleMap.holds (values : CycleMap) (newIds : List HashId) (id : HashId) : Bool :=
  (values.get id).isSome || decide (id ∈ newIds)

theorem CycleMap.holds_iff {values : CycleMap} {newIds : List HashId} {id : HashId} :
    values.holds newIds id = true ↔ (values.get id).isSome ∨ id ∈ newIds := by
  simp [holds]

/-- The id that was just handed out stands in the running cycle. -/
theorem CycleMap.holds_append (values : CycleMap) (newIds : List HashId) (id j : HashId) :
    values.holds (newIds ++ [id]) j = (values.holds newIds j || decide (j = id)) := by
  simp [holds, Bool.or_assoc]

/-- An id stands in a command. -/
def Command.holds (id : HashId) : Command → Bool
  | .startNewCycle values newIds => values.holds newIds id
  | .markReused _ => false

namespace Cycles

/-- In how many slots an id stands. -/
def places (c : Cycles) (id : HashId) : Nat := c.list.countP fun slot => (slot.get id).isSome

/-- In how many slots but the last one an id stands. -/
def olderPlaces (c : Cycles) (id : HashId) : Nat := c.older.countP fun slot => (slot.get id).isSome

theorem places_eq (c : Cycles) (id : HashId) :
    c.places id = c.olderPlaces id + if (c.last.get id).isSome then 1 else 0 := by
  rw [places, list, List.countP_append, List.countP_singleton, olderPlaces]

theorem places_eq_zero {c : Cycles} {id : HashId} :
    c.places id = 0 ↔ ∀ slot ∈ c.list, slot.get id = none := by
  simp [places, List.countP_eq_zero]

/-- What `move_to_last_cycle` does. -/
inductive Moved (c : Cycles) (hashId : HashId) : Option Serialized × Cycles → Prop
  /-- The id has no value in the older slots. -/
  | dropped {c' : Cycles} (older : c'.older = c.older.map fun slot => slot.remove hashId)
      (last : c'.last = c.last)
      (blank : ∀ slot ∈ c.older, (slot.get hashId).join = none) : Moved c hashId (none, c')
  | moved {c' : Cycles} {slot : CycleMap} {value : Serialized}
      (older : c'.older = c.older.map fun slot => slot.remove hashId)
      (last : c'.last = c.last.insert hashId (some value))
      (mem : slot ∈ c.older) (held : slot.get hashId = some (some value)) :
      Moved c hashId (some value, c')

theorem moveToLastCycle_moved (c : Cycles) (hashId : HashId) :
    Moved c hashId (c.moveToLastCycle hashId) := by
  unfold moveToLastCycle
  cases hvalue : (c.older.filterMap fun store => (store.get hashId).join).getLast? with
  | none =>
      refine .dropped rfl rfl fun slot mem => ?_
      have nothing := List.filterMap_eq_nil_iff.mp (List.getLast?_eq_none_iff.mp hvalue)
      exact nothing slot mem
  | some value =>
      obtain ⟨slot, mem, hslot⟩ := List.mem_filterMap.mp (List.mem_of_getLast? hvalue)
      exact .moved rfl rfl mem (Option.join_eq_some_iff.mp hslot)

/-- The older slots are left by the id that moves, and by no other. -/
theorem olderPlaces_remove {c c' : Cycles} {hashId : HashId}
    (older : c'.older = c.older.map fun slot => slot.remove hashId) (id : HashId) :
    c'.olderPlaces id = if id = hashId then 0 else c.olderPlaces id := by
  rw [olderPlaces, older, List.countP_map]
  split
  next heq => simp [heq, List.countP_eq_zero]
  next hne =>
    refine List.countP_congr fun slot _ => ?_
    rw [Function.comp_apply, OrdMap.get_remove, if_neg (Ne.symm hne)]

theorem places_moveToLastCycle (c : Cycles) (hashId id : HashId) :
    (c.moveToLastCycle hashId).2.places id ≤ c.places id := by
  have moved := c.moveToLastCycle_moved hashId
  revert moved
  rcases c.moveToLastCycle hashId with ⟨value, c'⟩
  intro moved
  cases moved with
  | dropped older last blank =>
      rw [places_eq, places_eq, last, olderPlaces_remove older]
      split <;> omega
  | @moved _ slot value older last mem held =>
      rw [places_eq, places_eq, last, olderPlaces_remove older, OrdMap.get_insert]
      by_cases heq : id = hashId
      · have some : 0 < c.olderPlaces hashId :=
          List.countP_pos_iff.mpr ⟨slot, mem, by rw [held]; rfl⟩
        rw [if_pos heq, if_pos heq.symm, heq, if_pos (Option.isSome_some)]
        omega
      · rw [if_neg heq, if_neg (Ne.symm heq)]

theorem places_markReusedLoop (fuel : Nat) (reused : List HashId) (c : Cycles) (id : HashId) :
    (GCThread.markReusedLoop fuel reused c).places id ≤ c.places id := by
  induction fuel generalizing reused c with
  | zero => exact le_refl _
  | succ fuel ih =>
      cases reused with
      | nil => exact le_refl _
      | cons hashId reused =>
          have first := places_moveToLastCycle c hashId id
          rw [GCThread.markReusedLoop]
          split
          next c' hmove =>
            rw [hmove] at first
            exact (ih reused c').trans first
          next value c' hmove =>
            rw [hmove] at first
            exact (ih _ c').trans first

/-- The slot of a cycle that ended holds its ids and its new ids. -/
theorem get_orInsert_isSome (newIds : List HashId) (values : CycleMap) (id : HashId) :
    ((newIds.foldl (fun map hashId =>
      match map.get hashId with
      | some _ => map
      | none => map.insert hashId none) values).get id).isSome = values.holds newIds id := by
  induction newIds generalizing values with
  | nil => simp [CycleMap.holds]
  | cons hashId newIds ih =>
      rw [List.foldl_cons, ih]
      cases hget : values.get hashId with
      | some value =>
          by_cases heq : id = hashId
          · simp [CycleMap.holds, heq, hget]
          · simp [CycleMap.holds, heq]
      | none =>
          by_cases heq : id = hashId
          · simp [CycleMap.holds, heq]
          · simp [CycleMap.holds, heq, OrdMap.get_insert, Ne.symm heq]

theorem count_keys (slot : CycleMap) (id : HashId) :
    slot.keys.count id = if (slot.get id).isSome then 1 else 0 := by
  have mem : id ∈ slot.keys ↔ (slot.get id).isSome := by
    rw [OrdMap.mem_keys, Option.isSome_iff_exists]
  split
  next h => exact List.count_eq_one_of_mem slot.keys_nodup (mem.mpr h)
  next h => exact List.count_eq_zero.mpr fun hmem => h (mem.mp hmem)

/-- A new cycle: the ids of the oldest slot leave, those of the cycle that ended come. -/
theorem places_startNewCycle (c : Cycles) (values : CycleMap) (newIds : List HashId)
    (id : HashId) :
    (GCThread.startNewCycle c values newIds).1.count id +
        (GCThread.startNewCycle c values newIds).2.places id =
      c.places id + if values.holds newIds id then 1 else 0 := by
  have hlist : c.list = c.older.headD c.last :: c.list.tail := by
    rw [list]
    cases hold : c.older with
    | nil => rfl
    | cons slot older => rfl
  have before : c.places id = (if ((c.older.headD c.last).get id).isSome then 1 else 0) +
      c.list.tail.countP fun slot => (slot.get id).isSome := by
    rw [places, hlist, List.countP_cons, List.tail_cons]
    omega
  have after : (GCThread.startNewCycle c values newIds).2.places id =
      (c.list.tail.countP fun slot => (slot.get id).isSome) +
        if values.holds newIds id then 1 else 0 := by
    rw [places_eq, ← get_orInsert_isSome]
    rfl
  have gone : (GCThread.startNewCycle c values newIds).1.count id =
      if ((c.older.headD c.last).get id).isSome then 1 else 0 := count_keys _ id
  rw [before, after, gone]
  omega

/-! ## Obeying commands -/

/-- The slots after a command. -/
def obey (c : Cycles) : Command → Cycles
  | .startNewCycle valuesInCycle newIds => (GCThread.startNewCycle c valuesInCycle newIds).2
  | .markReused reused => GCThread.markReused c reused

/-- The ids that a command frees. -/
def frees (c : Cycles) : Command → List HashId
  | .startNewCycle valuesInCycle newIds => (GCThread.startNewCycle c valuesInCycle newIds).1
  | .markReused _ => []

/-- The slots after some commands. -/
def obeyAll (c : Cycles) (channel : List Command) : Cycles := channel.foldl obey c

/-- The ids that some commands free. -/
def freesAll : Cycles → List Command → List HashId
  | _, [] => []
  | c, command :: rest => c.frees command ++ (c.obey command).freesAll rest

theorem obeyAll_concat (c : Cycles) (channel : List Command) (command : Command) :
    c.obeyAll (channel ++ [command]) = (c.obeyAll channel).obey command := List.foldl_concat ..

theorem freesAll_concat (c : Cycles) (channel : List Command) (command : Command) :
    c.freesAll (channel ++ [command]) = c.freesAll channel ++ (c.obeyAll channel).frees command := by
  induction channel generalizing c with
  | nil => exact List.append_nil _
  | cons first rest ih =>
      show c.frees first ++ (c.obey first).freesAll (rest ++ [command]) = _
      rw [ih, ← List.append_assoc]
      rfl

/-- An id is freed, or stands in a slot, when it stood in a slot or in a command. -/
theorem places_obey (c : Cycles) (command : Command) (id : HashId) :
    (c.frees command).count id + (c.obey command).places id ≤
      c.places id + if command.holds id then 1 else 0 := by
  cases command with
  | startNewCycle values newIds => exact (places_startNewCycle c values newIds id).le
  | markReused reused =>
      have le := places_markReusedLoop (GCThread.visits reused c) reused.reverse c id
      show [].count id + _ ≤ c.places id + _
      rw [List.count_nil, Nat.zero_add]
      exact Nat.le_add_right_of_le le

theorem places_obeyAll (c : Cycles) (channel : List Command) (id : HashId) :
    (c.freesAll channel).count id + (c.obeyAll channel).places id ≤
      c.places id + channel.countP (Command.holds id) := by
  induction channel generalizing c with
  | nil => exact (Nat.zero_add _).le
  | cons command rest ih =>
      have first := places_obey c command id
      have later := ih (c.obey command)
      rw [List.countP_cons]
      show (c.frees command ++ (c.obey command).freesAll rest).count id + _ ≤ _
      rw [List.count_append]
      show _ + ((c.obey command).obeyAll rest).places id ≤ _
      omega

end Cycles

end NodeFuzzer
