import NodeFuzzer.Context.KvStore

/-!
# The read-only backend

`ReadonlyIpcBackend`: the context of a process that may only read.  Entries of the
store are asked of another process.  Hashes computed here are kept here, under ids
that carry the `READONLY` bit, until the entries are cleared.

The other process answers a question always in the same way, so that its answers
are functions.
-/

namespace NodeFuzzer

/-- The answers of the writing process. -/
structure IpcContextClient where
  getHash : HashId → Except DBError (Option EntryHash)
  getValue : HashId → Except DBError (Option Serialized)
  containsEntry : HashId → Except DBError Bool
  getContextHashId : ContextHash → Except DBError (Option HashId)

/-- `ReadonlyIpcBackend`. -/
structure ReadonlyIpcBackend where
  client : IpcContextClient
  hashes : HashValueStore

namespace ReadonlyIpcBackend

/-- `try_connect`. -/
def tryConnect (client : IpcContextClient) : ReadonlyIpcBackend := ⟨client, .new none⟩

/-- Look up an id here when it carries the bit, else ask. -/
def lookup {α : Type} (here : HashId → HashValueStore → α)
    (ask : IpcContextClient → HashId → Except DBError α) (id : HashId)
    (s : ReadonlyIpcBackend) : Except DBError α :=
  match id.getReadonlyId with
  | none => .error .hashIdFailed
  | some (some id) => .ok (here id s.hashes)
  | some none => ask s.client id

/-- `get_vacant_entry_hash`, and writing the hash into the entry. -/
def getVacantEntryHash (hash : EntryHash) : Exec ReadonlyIpcBackend DBError HashId := do
  let id ← Exec.onPart hashes (fun h s => { s with hashes := h })
    (HashValueStore.getVacantEntryHash hash)
  pure id.setReadonlyRunner

instance : KeyValueStoreBackend ReadonlyIpcBackend where
  getHash := lookup HashValueStore.getHash IpcContextClient.getHash
  getValue := lookup HashValueStore.getValue IpcContextClient.getValue
  contains := lookup HashValueStore.contains IpcContextClient.containsEntry
  getContextHash := fun hash s => s.client.getContextHashId hash
  getVacantEntryHash := getVacantEntryHash
  writeBatch := fun _ => pure ()
  putContextHash := fun _ => pure ()
  clearEntries := Exec.modify fun s => { s with hashes := s.hashes.clear }
  blockApplied := fun _ => pure ()
  newCycleStarted := pure ()

end ReadonlyIpcBackend

/-! ## Ids of the read-only runner -/

namespace HashId

/-- The bit of the runner is taken off again. -/
theorem getReadonlyId_setReadonlyRunner {id : HashId} (h : id.val < READONLY) :
    id.setReadonlyRunner.getReadonlyId = some (some id) := by
  have hpos := id.pos
  have hval : id.setReadonlyRunner.val = id.val + READONLY := by
    rw [setReadonlyRunner, dif_pos h]
  rw [getReadonlyId, dif_pos (by omega), dif_neg (by omega)]
  exact congrArg (fun i => some (some i)) (HashId.ext (by simp only [hval]; omega))

theorem getReadonlyId_of_lt {id : HashId} (h : id.val < READONLY) :
    id.getReadonlyId = some none := by
  rw [getReadonlyId, dif_neg (by omega)]

theorem setReadonlyRunner_of_getReadonlyId {id j : HashId}
    (h : id.getReadonlyId = some (some j)) : READONLY ≤ id.val := by
  by_contra hlt
  rw [getReadonlyId_of_lt (by omega)] at h
  cases h

end HashId

namespace ReadonlyIpcBackend

/-- The local hashes hold no values, and no id is freed. -/
structure Inv (s : ReadonlyIpcBackend) : Prop where
  freeIds : s.hashes.freeIds = none
  values : s.hashes.values = []
  bound : s.hashes.hashes.length ≤ MAX_HASHES

/-- An id of the other process, or one handed out since the entries were cleared. -/
def Live (s : ReadonlyIpcBackend) (id : HashId) : Prop :=
  id.val < HashId.READONLY ∨
    ∃ j, id.getReadonlyId = some (some j) ∧ j.index < s.hashes.hashes.length

instance : StoreView ReadonlyIpcBackend where
  Inv := Inv
  Live := Live
  Known := fun id => id.val < HashId.READONLY
  Exhausted := fun s => s.hashes.hashes.length = MAX_HASHES

/-- A backend that was just connected has no ids of its own. -/
theorem inv_tryConnect (client : IpcContextClient) : Inv (tryConnect client) :=
  ⟨rfl, rfl, Nat.zero_le _⟩

theorem Inv.bounded {s : ReadonlyIpcBackend} (inv : Inv s) : s.hashes.Bounded :=
  ⟨by rw [inv.values]; exact Nat.zero_le _, inv.bound⟩

/-- Without a queue every id is a new one. -/
theorem Inv.getVacantEntryHash_eq {s : ReadonlyIpcBackend} (inv : Inv s) (hash : EntryHash) :
    HashValueStore.getVacantEntryHash hash s.hashes = HashValueStore.freshEntry hash s.hashes := by
  have hfree : HashValueStore.getFreeId s.hashes = (.ok none, s.hashes) := by
    simp only [HashValueStore.getFreeId, inv.freeIds]
  show Exec.bind _ _ _ = _
  rw [Exec.bind, hfree]

instance : LawfulStore ReadonlyIpcBackend where
  vacant := by
    intro hash s inv
    have fresh := HashValueStore.freshEntry_spec hash (Inv.bounded inv)
    show Exec.wp (getVacantEntryHash hash) _ _ s
    rw [getVacantEntryHash, Exec.wp_bind, Exec.wp_onPart]
    unfold Exec.wp at fresh ⊢
    rw [Inv.getVacantEntryHash_eq inv]
    revert fresh
    rcases HashValueStore.freshEntry hash s.hashes with ⟨id | e | _, h⟩
    · rintro ⟨vacated, hfree, hvalues, hindex, hlen⟩
      have hpos := id.pos
      have hidx : id.val - 1 = s.hashes.hashes.length := hindex
      have hlt : id.val < HashId.READONLY := by
        have hmax := vacated.bounded.2
        have : MAX_HASHES < HashId.READONLY := by decide
        omega
      have hread := HashId.getReadonlyId_setReadonlyRunner hlt
      have hbit := HashId.setReadonlyRunner_of_getReadonlyId hread
      refine ⟨⟨hfree.trans inv.freeIds, hvalues.trans inv.values, vacated.bounded.2⟩, ?_, ?_, ?_,
        ?_, ?_⟩
      · rintro (hknown | ⟨j, hj, hjlt⟩)
        · omega
        · rw [hread] at hj
          cases hj
          omega
      · exact Or.inr ⟨id, hread, by rw [hlen, hindex]; exact Nat.lt_succ_self _⟩
      · show lookup _ _ _ _ = _
        rw [lookup, hread]
        exact congrArg Except.ok vacated.hash
      · show lookup _ _ _ _ = _
        rw [lookup, hread]
        exact congrArg Except.ok vacated.value
      · refine ⟨?_, ?_, fun _ => rfl⟩
        rotate_left
        · rintro j (hknown | ⟨k, hk, hklt⟩) fresh'
          · exact absurd (Or.inl hknown) fresh'
          · show lookup _ _ _ _ = _
            rw [lookup, hk]
            refine congrArg Except.ok (HashValueStore.getValue_none_of_length_le ?_)
            rw [hvalues, inv.values]
            exact Nat.zero_le _
        rintro j (hknown | ⟨k, hk, hklt⟩)
        · have hask := HashId.getReadonlyId_of_lt hknown
          refine ⟨Or.inl hknown, ?_, ?_⟩
          · show lookup _ _ _ _ = lookup _ _ _ _
            rw [lookup, lookup, hask]
          · show lookup _ _ _ _ = lookup _ _ _ _
            rw [lookup, lookup, hask]
        · have hne : k ≠ id := by
            rintro rfl
            omega
          obtain ⟨hhash, hvalue⟩ := vacated.frame k hne
          refine ⟨Or.inr ⟨k, hk, by rw [hlen]; exact Nat.lt_succ_of_lt hklt⟩, ?_, ?_⟩
          · show lookup _ _ _ _ = lookup _ _ _ _
            rw [lookup, lookup, hk]
            exact congrArg Except.ok hhash
          · show lookup _ _ _ _ = lookup _ _ _ _
            rw [lookup, lookup, hk]
            exact congrArg Except.ok hvalue
    · rintro ⟨rfl, hfull⟩
      exact ⟨inv, hfull, Keeps.refl _⟩
    · rintro ⟨rfl, hfull⟩
      exact ⟨inv, hfull, Keeps.refl _⟩

end ReadonlyIpcBackend

end NodeFuzzer
