import NodeFuzzer.Context.HashSpec

/-!
# Hashes and values by id

`HashValueStore` of `kv_store/in_memory.rs`: two vectors indexed by ids.  A vacant
entry is one of an id that came back through the queue of free ids, or a new one at
the end.  Taking an id from the queue clears its value first, which panics when the
vector of values never reached that index.
-/

namespace NodeFuzzer

/-- The most hashes a vector holds: it has at most `isize::MAX` bytes. -/
def MAX_HASHES : Nat := 2 ^ 58 - 1

/-- `HashValueStore`.  `freeIds` is what the queue of free ids holds, oldest first. -/
structure HashValueStore where
  hashes : List EntryHash
  values : List (Option Serialized)
  freeIds : Option (List HashId)
  newIds : List HashId
deriving DecidableEq

namespace HashValueStore

/-- `HashValueStore::new`. -/
def new (consumer : Option (List HashId)) : HashValueStore := ⟨[], [], consumer, []⟩

/-- `clear`. -/
def clear (s : HashValueStore) : HashValueStore := ⟨[], [], s.freeIds, []⟩

/-- `get_hash`. -/
def getHash (id : HashId) (s : HashValueStore) : Option EntryHash := s.hashes[id.index]?

/-- `get_value`. -/
def getValue (id : HashId) (s : HashValueStore) : Option Serialized := (s.values[id.index]?).join

/-- `contains`. -/
def contains (id : HashId) (s : HashValueStore) : Bool := (getValue id s).isSome

/-- `get_free_id`. -/
def getFreeId : Exec HashValueStore DBError (Option HashId) := fun s =>
  match s.freeIds with
  | some (id :: rest) => (.ok (some id), { s with freeIds := some rest })
  | _ => (.ok none, s)

/-- The entry of an id that is used again. -/
def reusedEntry (id : HashId) (hash : EntryHash) : Exec HashValueStore DBError HashId := fun s =>
  if id.index < s.values.length then
    if id.index < s.hashes.length then
      (.ok id, { s with
        values := s.values.set id.index none
        hashes := s.hashes.set id.index hash
        newIds := s.newIds ++ [id] })
    else (.err .hashIdFailed, { s with values := s.values.set id.index none })
  else (.panic, s)

/-- `Entries::get_vacant_entry`: the entry after the last one. -/
def freshEntry (hash : EntryHash) : Exec HashValueStore DBError HashId := fun s =>
  if s.hashes.length < MAX_HASHES then
    match HashId.ofIndex s.hashes.length with
    | some id => (.ok id, { s with
        hashes := s.hashes ++ [hash]
        newIds := s.newIds ++ [id] })
    | none => (.err .hashIdFailed, { s with hashes := s.hashes ++ [hash] })
  else (.panic, s)

/-- `get_vacant_entry_hash`, and writing the hash into the entry. -/
def getVacantEntryHash (hash : EntryHash) : Exec HashValueStore DBError HashId := do
  let freeId ← getFreeId
  match freeId with
  | some id => reusedEntry id hash
  | none => freshEntry hash

/-- `insert_value_at`. -/
def insertValueAt (id : HashId) (value : Serialized) (s : HashValueStore) : HashValueStore :=
  { s with values := (s.values.rightpad (id.index + 1) none).set id.index (some value) }

/-- `take_new_ids`. -/
def takeNewIds (s : HashValueStore) : List HashId × HashValueStore :=
  (s.newIds, { s with newIds := [] })

/-! ## What the operations do -/

/-- Values only stand at ids that were handed out. -/
def Bounded (s : HashValueStore) : Prop :=
  s.values.length ≤ s.hashes.length ∧ s.hashes.length ≤ MAX_HASHES

/-- An id behind the values has none. -/
theorem getValue_none_of_length_le {id : HashId} {s : HashValueStore}
    (h : s.values.length ≤ id.index) : getValue id s = none := by
  rw [getValue, List.getElem?_eq_none h]
  rfl

theorem getValue_insertValueAt (id j : HashId) (value : Serialized) (s : HashValueStore) :
    getValue j (insertValueAt id value s) = if j = id then some value else getValue j s := by
  have hpad : ∀ k : Nat, ((s.values.rightpad (id.index + 1) none)[k]?).join = (s.values[k]?).join := by
    intro k
    rw [List.rightpad]
    by_cases hk : k < s.values.length
    · rw [List.getElem?_append_left hk]
    · rw [List.getElem?_append_right (by omega), List.getElem?_eq_none (l := s.values) (by omega),
        List.getElem?_replicate]
      split <;> rfl
  have hlen : id.index < (s.values.rightpad (id.index + 1) none).length := by
    rw [List.length_rightpad]
    omega
  rw [getValue, insertValueAt]
  by_cases hj : j = id
  · subst hj
    rw [List.getElem?_set_self hlen, if_pos rfl]
    rfl
  · have hne : id.index ≠ j.index := fun heq => hj (HashId.index_injective heq.symm)
    rw [List.getElem?_set_ne hne, if_neg hj, hpad]
    rfl

@[simp] theorem getHash_insertValueAt (id j : HashId) (value : Serialized) (s : HashValueStore) :
    getHash j (insertValueAt id value s) = getHash j s := rfl

/-- The id was handed out for the hash and nothing else changed. -/
structure Vacated (s s' : HashValueStore) (id : HashId) (hash : EntryHash) : Prop where
  bounded : s'.Bounded
  hash : getHash id s' = some hash
  value : getValue id s' = none
  frame : ∀ j, j ≠ id → getHash j s' = getHash j s ∧ getValue j s' = getValue j s
  newIds : s'.newIds = s.newIds ++ [id]
  values : s'.values.length = s.values.length

/-- An id comes out of the queue, if there is a queue and it holds one. -/
theorem wp_getFreeId {s : HashValueStore} {Q : Option HashId → HashValueStore → Prop}
    {E : HashValueStore → Prop}
    (some : ∀ id rest, s.freeIds = some (id :: rest) → Q (.some id) { s with freeIds := .some rest })
    (none : s.freeIds.getD [] = [] → Q none s) : Exec.wp getFreeId Q E s := by
  unfold Exec.wp getFreeId
  cases hfree : s.freeIds with
  | none => exact none (by rw [hfree]; rfl)
  | some queue =>
      cases queue with
      | nil => exact none (by rw [hfree]; rfl)
      | cons id rest => exact some id rest hfree

/-- The hash goes to the place of the id, whose value is taken away; it panics on an id that
the values have not reached. -/
theorem reusedEntry_spec (id : HashId) (hash : EntryHash) {s : HashValueStore}
    (bounded : s.Bounded) :
    Exec.wp (reusedEntry id hash)
      (fun j s' => j = id ∧ Vacated s s' id hash ∧ s'.freeIds = s.freeIds ∧
        id.index < s.hashes.length ∧ s'.hashes.length = s.hashes.length)
      (fun s' => s' = s ∧ s.values.length ≤ id.index) s := by
  obtain ⟨hvalues, hmax⟩ := bounded
  unfold Exec.wp reusedEntry
  by_cases hvalue : id.index < s.values.length
  · have hhash : id.index < s.hashes.length := by omega
    simp only [hvalue, hhash, if_true]
    refine ⟨trivial, ⟨⟨by simpa using hvalues, by simpa using hmax⟩, ?_, ?_, ?_, rfl,
      List.length_set⟩, trivial, trivial, List.length_set⟩
    · exact List.getElem?_set_self hhash
    · rw [getValue, List.getElem?_set_self hvalue]
      rfl
    · intro j hj
      have hne : id.index ≠ j.index := fun heq => hj (HashId.index_injective heq.symm)
      exact ⟨List.getElem?_set_ne hne, congrArg Option.join (List.getElem?_set_ne hne)⟩
  · simp only [hvalue, if_false]
    exact ⟨trivial, Nat.not_lt.mp hvalue⟩

/-- The hash goes to the end. -/
theorem freshEntry_spec (hash : EntryHash) {s : HashValueStore} (bounded : s.Bounded) :
    Exec.wp (freshEntry hash)
      (fun id s' => Vacated s s' id hash ∧ s'.freeIds = s.freeIds ∧ s'.values = s.values ∧
        id.index = s.hashes.length ∧ s'.hashes.length = s.hashes.length + 1)
      (fun s' => s' = s ∧ s.hashes.length = MAX_HASHES) s := by
  obtain ⟨hvalues, hmax⟩ := bounded
  unfold Exec.wp freshEntry
  by_cases hroom : s.hashes.length < MAX_HASHES
  · have hlt : s.hashes.length + 1 < 2 ^ 64 := by
      have : MAX_HASHES < 2 ^ 64 - 1 := by decide
      omega
    obtain ⟨id, hid⟩ : ∃ id, HashId.ofIndex s.hashes.length = some id :=
      ⟨_, dif_pos hlt⟩
    have hindex : id.index = s.hashes.length := HashId.ofIndex_eq_some.mp hid
    simp only [hroom, if_true, hid]
    refine ⟨⟨⟨?_, ?_⟩, ?_, ?_, ?_, rfl, rfl⟩, trivial, trivial, hindex, ?_⟩
    · rw [List.length_append]
      exact Nat.le_add_right_of_le hvalues
    · rw [List.length_append]
      exact hroom
    · rw [getHash, hindex, List.getElem?_concat_length]
    · exact getValue_none_of_length_le (by rw [hindex]; exact hvalues)
    · intro j hj
      have hne : j.index ≠ s.hashes.length := fun heq =>
        hj (HashId.index_injective (heq.trans hindex.symm))
      refine ⟨?_, rfl⟩
      rw [getHash, getHash]
      by_cases hlt : j.index < s.hashes.length
      · exact List.getElem?_append_left hlt
      · rw [List.getElem?_eq_none (l := s.hashes) (by omega)]
        exact List.getElem?_eq_none (by rw [List.length_append, List.length_singleton]; omega)
    · exact List.length_append
  · simp only [hroom, if_false]
    exact ⟨trivial, by omega⟩

end HashValueStore

end NodeFuzzer
