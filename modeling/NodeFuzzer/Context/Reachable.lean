import NodeFuzzer.Context.Draining
import NodeFuzzer.Context.Releasing
import NodeFuzzer.Context.Retention

/-!
# What a commit reaches

A commit that is found has its key in a bucket.  The commit is forgotten when that bucket
is the oldest one and a cycle starts, so that all that the commit reaches has to be kept
until then (`Safe`).  Each change of the store keeps it so, and leaves what is reached by a
commit that is still found as it was (`Onward`).
-/

namespace NodeFuzzer

namespace System

/-! ## Entries below an id -/

/-- The entry of an id refers to another id. -/
def Refers (s : System) (id r : HashId) : Prop :=
  ∃ value, s.store.hashes.getValue id = some value ∧ r ∈ value.references

/-- The ids of the entries below an id. -/
def Reach (s : System) : HashId → HashId → Prop := Relation.ReflTransGen (Refers s)

/-- Everything below an id is stored, and does not leave before `n` cycles end. -/
def Held (s : System) (n : Nat) (id : HashId) : Prop :=
  ∀ j, Reach s id j → (∃ value, s.store.hashes.getValue j = some value) ∧ Kept s n j

/-- Everything below an id is as it was. -/
structure Lasts (s s' : System) (id : HashId) : Prop where
  reach : ∀ j, Reach s' id j ↔ Reach s id j
  entry : ∀ j, Reach s id j → ∃ value, s.store.hashes.getValue j = some value ∧
    s'.store.hashes.getValue j = some value ∧
    s'.store.hashes.getHash j = s.store.hashes.getHash j

theorem Lasts.trans {s s' s'' : System} {id : HashId} (h : Lasts s s' id) (h' : Lasts s' s'' id) :
    Lasts s s'' id := by
  refine ⟨fun j => (h'.reach j).trans (h.reach j), fun j reach => ?_⟩
  obtain ⟨value, here, there, hash⟩ := h.entry j reach
  obtain ⟨value', here', there', hash'⟩ := h'.entry j ((h.reach j).mpr reach)
  rw [there] at here'
  cases here'
  exact ⟨value, here, there', hash'.trans hash⟩

/-- Entries that are kept for `n` cycles are as they were, and are kept for `n'` cycles. -/
def Carry (s s' : System) (n n' : Nat) : Prop :=
  ∀ {id value}, s.store.hashes.getValue id = some value → Kept s n id →
    s'.store.hashes.getValue id = some value ∧
      s'.store.hashes.getHash id = s.store.hashes.getHash id ∧ Kept s' n' id

theorem Held.carry {s s' : System} {n n' : Nat} {id : HashId} (held : Held s n id)
    (carry : Carry s s' n n') : Held s' n' id ∧ Lasts s s' id := by
  have entry : ∀ j, Reach s id j → ∃ value, s.store.hashes.getValue j = some value ∧
      s'.store.hashes.getValue j = some value ∧
      s'.store.hashes.getHash j = s.store.hashes.getHash j ∧ Kept s' n' j := by
    intro j reach
    obtain ⟨⟨value, here⟩, kept⟩ := held j reach
    obtain ⟨there, hash, kept'⟩ := carry here kept
    exact ⟨value, here, there, hash, kept'⟩
  have reach : ∀ j, Reach s' id j ↔ Reach s id j := by
    intro j
    constructor
    · intro reach
      induction reach with
      | refl => exact .refl
      | tail _ refers ih =>
          obtain ⟨value, here, there, _⟩ := entry _ ih
          obtain ⟨value', there', mem⟩ := refers
          rw [there] at there'
          cases there'
          exact ih.tail ⟨value, here, mem⟩
    · intro reach
      induction reach with
      | refl => exact .refl
      | tail before refers ih =>
          obtain ⟨value, here, there, _⟩ := entry _ before
          obtain ⟨value', here', mem⟩ := refers
          rw [here] at here'
          cases here'
          exact ih.tail ⟨value, there, mem⟩
  refine ⟨?_, reach, ?_⟩
  · intro j reach'
    obtain ⟨value, _, there, _, kept⟩ := entry j ((reach j).mp reach')
    exact ⟨⟨value, there⟩, kept⟩
  · intro j reach
    obtain ⟨value, here, there, hash, _⟩ := entry j reach
    exact ⟨value, here, there, hash⟩

theorem Held.mono {s : System} {m n : Nat} {id : HashId} (held : Held s n id) (le : m ≤ n) :
    Held s m id := fun j reach => ⟨(held j reach).1, (held j reach).2.mono le⟩

/-! ## Commits that are found -/

/-- What is below a commit that is found is kept until the commit is forgotten. -/
structure Safe (s : System) : Prop where
  placed : Placed s
  /-- Without a thread, no id ever stands in a slot. -/
  disabled : s.store.sender = none → ∀ slot ∈ s.drained.list, ∀ id, slot.get id = none
  buckets : ∃ older last, s.store.contextHashesCycles = older ++ [last] ∧
    older.length + 1 = PRESERVE_CYCLE_COUNT
  found : ∀ k id, s.store.contextHashes k = some id →
    (∃ i, StandsAt s k i) ∧ ∀ i, StandsAt s k i → Held s i id

/-- The commits that are found before and after a change reach the same entries. -/
structure Onward (s s' : System) : Prop where
  safe : Safe s'
  lasts : ∀ k id, s.store.contextHashes k = some id → s'.store.contextHashes k = some id →
    Lasts s s' id

theorem carry_refl (s : System) (n : Nat) : Carry s s n n := fun here kept => ⟨here, rfl, kept⟩

/-- Entries that are used again only become younger. -/
theorem kept_markReused {s s' : System} (placed : Placed s) {reused : List HashId}
    (drained : s'.drained = s.drained.obey (.markReused reused)) (leaving : s'.leaving = s.leaving)
    {n : Nat} {id : HashId} (kept : Kept s n id) : Kept s' n id := by
  obtain ⟨marked, _⟩ := Cycles.markReused_marked placed.single reused
  refine ⟨by rw [leaving]; exact kept.stays, ?_⟩
  rw [drained]
  exact marked.young kept.young

/-- Entries that are walked to become as young as any. -/
theorem kept_walked {s s' : System} (placed : Placed s) {reused : List HashId}
    (drained : s'.drained = s.drained.obey (.markReused reused)) (leaving : s'.leaving = s.leaving)
    {n : Nat} {id : HashId} (kept : Kept s n id)
    (walked : (∃ slot ∈ s.drained.older, (slot.get id).isSome) → s.drained.Walked reused id) :
    Kept s' 6 id := by
  obtain ⟨marked, gone⟩ := Cycles.markReused_marked placed.single reused
  refine ⟨by rw [leaving]; exact kept.stays, ?_⟩
  have older : ∀ slot ∈ (s.drained.obey (.markReused reused)).older, slot.get id = none := by
    by_cases old : ∃ slot ∈ s.drained.older, (slot.get id).isSome
    · exact gone id (walked old)
    · refine marked.gone ?_
      intro slot mem
      by_contra some
      exact old ⟨slot, mem, Option.isSome_iff_ne_none.mpr some⟩
  intro i lt slot at_
  rw [drained] at at_
  have size := (s.drained.obey (.markReused reused)).size
  rw [Cycles.list, List.getElem?_append_left (by
    rw [PRESERVE_CYCLE_COUNT] at size
    omega)] at at_
  exact older slot (List.mem_of_getElem? at_)

/-- The slots move by one, and the ids of the oldest one leave. -/
theorem Started.carry {s : System} {channel : List Command} {m : InMemory}
    (started : Started s channel m) {n : Nat} (le : n ≤ 6) : Carry s (s.withStore m) (n + 1) n := by
  intro id value here kept
  have head : s.drained.list[0]? = some (s.drained.older.headD s.drained.last) := by
    rw [Cycles.list]
    cases s.drained.older <;> rfl
  refine ⟨?_, ?_, ?_, ?_⟩
  · show (m.hashes.values[id.index]?).join = _
    rw [started.values]
    exact here
  · show m.hashes.hashes[id.index]? = _
    rw [started.hashes]
    rfl
  · rw [started.leaving]
    intro mem
    rcases List.mem_append.mp mem with mem | mem
    · exact kept.stays mem
    · obtain ⟨o, there⟩ := OrdMap.mem_keys.mp mem
      rw [kept.young 0 (Nat.succ_pos n) _ head] at there
      cases there
  · intro i lt slot at_
    rw [started.drained] at at_
    have size := s.drained.size
    have inside : i < s.drained.list.tail.length := by
      rw [Cycles.list, List.length_tail, List.length_append, List.length_singleton]
      rw [PRESERVE_CYCLE_COUNT] at size
      omega
    have tail : s.drained.list.tail[i]? = some slot := by
      rw [← List.getElem?_append_left inside]
      exact at_
    rw [List.getElem?_tail] at tail
    exact kept.young (i + 1) (Nat.succ_lt_succ lt) slot tail

theorem Carry.trans {s s' s'' : System} {n : Nat} (h : Carry s s' n n) (h' : Carry s' s'' n n) :
    Carry s s'' n n := by
  intro id value here kept
  obtain ⟨there, hash, kept'⟩ := h here kept
  obtain ⟨there', hash', kept''⟩ := h' there kept'
  exact ⟨there', hash'.trans hash, kept''⟩

/-- An id with a value has a hash. -/
theorem Placed.getHash {s : System} (placed : Placed s) {id : HashId} {value : Serialized}
    (here : s.store.hashes.getValue id = some value) :
    id.index < s.store.hashes.hashes.length ∧ ∃ hash, s.store.hashes.getHash id = some hash := by
  have range : id.index < s.store.hashes.hashes.length := by
    by_contra out
    rw [HashValueStore.getValue_none_of_length_le
      (placed.bounded.1.trans (Nat.not_lt.mp out))] at here
    cases here
  exact ⟨range, _, List.getElem?_eq_getElem range⟩

/-- An entry that is kept is not handed out. -/
theorem carry_handing {s s' : System} {ids : List HashId} (placed : Placed s)
    (h : Handing s ids s') (n : Nat) : Carry s s' n n := by
  intro id value here kept
  obtain ⟨range, _⟩ := placed.getHash here
  obtain ⟨out, kept'⟩ := h.kept kept range
  obtain ⟨hash, same⟩ := h.same id out
  exact ⟨same.trans here, hash, kept'⟩

/-- Writing to ids without a value changes no entry. -/
theorem carry_write {s : System} {batch : List (HashId × Serialized)}
    (blank : ∀ p ∈ batch, s.store.hashes.getValue p.1 = none) (n : Nat) :
    Carry s (s.withStore (s.store.writeBatch batch)) n n := by
  obtain ⟨hashes, _, _⟩ := InMemory.writeBatch_hashes batch s.store
  obtain ⟨drained, leaving⟩ := drained_write s batch
  intro id value here kept
  have same : (s.store.writeBatch batch).hashes.getValue id = s.store.hashes.getValue id := by
    rcases InMemory.writeBatch_getValue batch s.store id with same | ⟨_, mem, _⟩
    · exact same
    · have none := blank _ mem
      rw [here] at none
      cases none
  refine ⟨same.trans here, ?_, ?_⟩
  · show (s.store.writeBatch batch).hashes.hashes[id.index]? = _
    rw [hashes]
    rfl
  · exact ⟨by rw [leaving]; exact kept.stays, by rw [drained]; exact kept.young⟩

namespace Onward

variable {s s' s'' : System}

theorem trans (h : Onward s s') (h' : Onward s' s'')
    (still : ∀ k id, s.store.contextHashes k = some id → s''.store.contextHashes k = some id →
      s'.store.contextHashes k = some id) : Onward s s'' := by
  refine ⟨h'.safe, fun k id here there => ?_⟩
  have between := still k id here there
  exact (h.lasts k id here between).trans (h'.lasts k id between there)

/-- A change that forgets no commit and puts none. -/
theorem same (safe : Safe s) (placed : Placed s')
    (sender : s'.store.sender = none → s.store.sender = none ∧ s'.drained = s.drained)
    (contextHashes : s'.store.contextHashes = s.store.contextHashes)
    (contextHashesCycles : s'.store.contextHashesCycles = s.store.contextHashesCycles)
    (carry : ∀ n, Carry s s' n n) : Onward s s' := by
  have carried : ∀ k id, s.store.contextHashes k = some id → ∀ i, StandsAt s k i →
      Held s' i id ∧ Lasts s s' id :=
    fun k id found i stands => ((safe.found k id found).2 i stands).carry (carry i)
  refine ⟨⟨placed, ?_, by rw [contextHashesCycles]; exact safe.buckets, ?_⟩, ?_⟩
  · intro none
    obtain ⟨none, drained⟩ := sender none
    rw [drained]
    exact safe.disabled none
  · intro k id found
    rw [contextHashes] at found
    have stands : ∀ i, StandsAt s' k i ↔ StandsAt s k i := by
      intro i
      rw [StandsAt, StandsAt, contextHashesCycles]
    simp only [stands]
    exact ⟨(safe.found k id found).1, fun i here => (carried k id found i here).1⟩
  · intro k id found _
    obtain ⟨i, stands⟩ := (safe.found k id found).1
    exact (carried k id found i stands).2

theorem refl (safe : Safe s) : Onward s s :=
  same safe safe.placed (fun h => ⟨h, rfl⟩) rfl rfl (carry_refl s)

/-- Handing out ids. -/
theorem handing {ids : List HashId} (safe : Safe s) (h : Handing s ids s') : Onward s s' :=
  same safe h.placed (fun none => ⟨h.sender none, h.drained⟩) h.contextHashes
    h.contextHashesCycles fun n => carry_handing safe.placed h n

/-- Writing a batch to ids of the running cycle that have no value. -/
theorem write {batch : List (HashId × Serialized)} (safe : Safe s)
    (unowned : ∀ p ∈ batch, s.Unowned p.1)
    (blank : ∀ p ∈ batch, s.store.hashes.getValue p.1 = none) :
    Onward s (s.withStore (s.store.writeBatch batch)) := by
  have sender := InMemory.writeBatch_sender batch s.store
  refine same safe (safe.placed.write unowned) ?_ (InMemory.writeBatch_contextHashes batch s.store)
    (InMemory.writeBatch_contextHashesCycles batch s.store) (carry_write blank)
  intro none
  exact ⟨sender.symm.trans none, (drained_write s batch).1⟩

/-- A cycle starts. -/
theorem newCycle (safe : Safe s) : Onward s (s.withStore s.store.newCycleStarted) := by
  have placed := safe.placed.newCycle
  cases hsender : s.store.sender with
  | none =>
      have same : s.withStore s.store.newCycleStarted = s := by
        rw [InMemory.newCycleStarted, hsender]
        rfl
      rw [same]
      exact refl safe
  | some channel =>
      have started := cycleStarted_started hsender
      generalize s.store.newCycleStarted = m at started placed ⊢
      obtain ⟨older, last, hbuckets, hlength⟩ := safe.buckets
      have inside : ∀ {k i}, StandsAt s k i → i < PRESERVE_CYCLE_COUNT := by
        intro k i stands
        by_contra out
        rw [StandsAt, List.getElem?_eq_none] at stands
        · exact absurd stands List.not_mem_nil
        · rw [hbuckets, List.length_append, List.length_singleton]
          omega
      have shift : ∀ k i, StandsAt (s.withStore m) k i ↔ StandsAt s k (i + 1) := by
        intro k i
        rw [StandsAt, StandsAt]
        show k ∈ (m.contextHashesCycles[i]?).getD [] ↔ _
        rw [started.contextHashesCycles]
        exact mem_bucket_shift s.store.contextHashesCycles k i
      have found : ∀ {k id}, m.contextHashes k = some id →
          s.store.contextHashes k = some id ∧ ¬ StandsAt s k 0 := by
        intro k id here
        rw [started.contextHashes] at here
        split at here
        next => cases here
        next out => exact ⟨here, fun stands => out ((mem_headD _).mpr stands)⟩
      have carried : ∀ {k id}, s.store.contextHashes k = some id → ∀ i, StandsAt s k (i + 1) →
          Held (s.withStore m) i id ∧ Lasts s (s.withStore m) id := by
        intro k id here i stands
        have bound := inside stands
        exact ((safe.found k id here).2 (i + 1) stands).carry
          (started.carry (Nat.le_of_lt_succ (Nat.lt_of_succ_lt bound)))
      have below : ∀ {k id}, m.contextHashes k = some id → ∃ i, StandsAt s k (i + 1) := by
        intro k id here
        obtain ⟨before, notOldest⟩ := found here
        obtain ⟨i, stands⟩ := (safe.found k id before).1
        cases i with
        | zero => exact absurd stands notOldest
        | succ i => exact ⟨i, stands⟩
      refine ⟨⟨placed, ?_, ⟨(older ++ [last]).tail, [], ?_, ?_⟩, ?_⟩, ?_⟩
      · intro none
        rw [withStore_store, started.sender] at none
        cases none
      · rw [withStore_store, started.contextHashesCycles, hbuckets]
      · rw [List.length_tail, List.length_append, List.length_singleton]
        exact hlength
      · intro k id here
        obtain ⟨i, stands⟩ := below here
        refine ⟨⟨i, (shift k i).mpr stands⟩, ?_⟩
        intro j stands'
        exact (carried (found here).1 j ((shift k j).mp stands')).1
      · intro k id before here
        obtain ⟨i, stands⟩ := below here
        exact (carried before i stands).2

end Onward

/-! ## A commit is put -/

section Publishing

variable [Digest] {s : System} {id : HashId} {h : EntryHash} {reused : List HashId}

/-- The store after `put_context_hash` and `block_applied`. -/
def published (s : System) (id : HashId) (reused : List HashId) : System :=
  s.withStore (InMemory.blockApplied reused (InMemory.putContextHash id s.store).2)

/-- What the two calls do. -/
structure Published (s : System) (id : HashId) (h : EntryHash) (reused : List HashId)
    (s' : System) : Prop where
  hashes : s'.store.hashes = s.store.hashes
  leaving : s'.leaving = s.leaving
  drained : s.store.sender = none ∧ s'.drained = s.drained ∨
    s'.drained = s.drained.obey (.markReused reused)
  sender : s'.store.sender = none → s.store.sender = none ∧ s'.drained = s.drained
  contextHashes : s'.store.contextHashes =
    Function.update s.store.contextHashes (Digest.defaultHasher h.bytes) (some id)
  contextHashesCycles : s'.store.contextHashesCycles = s.store.contextHashesCycles.dropLast ++
    (s.store.contextHashesCycles.getLast?.map fun v => v ++ [Digest.defaultHasher h.bytes]).toList

theorem published_spec (hash : s.store.hashes.getHash id = some h) :
    Published s id h reused (s.published id reused) := by
  have hashes : (InMemory.putContextHash id s.store).2.hashes = s.store.hashes := by
    rw [InMemory.putContextHash, hash]
  have sender : (InMemory.putContextHash id s.store).2.sender = s.store.sender := by
    rw [InMemory.putContextHash, hash]
  obtain ⟨contextHashes, contextHashesCycles⟩ := put_act hash
  rw [act, withStore_store] at contextHashes contextHashesCycles
  rw [published]
  generalize (InMemory.putContextHash id s.store).2 = m at *
  have freeIds : (m.blockApplied reused).hashes.freeIds = s.store.hashes.freeIds := by
    show m.hashes.freeIds = _
    rw [hashes]
  have sent : (m.blockApplied reused).sender =
      s.store.sender.map fun channel => channel ++ [.markReused reused] := by
    rw [← sender]
    rfl
  cases hsender : s.store.sender with
  | none =>
      rw [hsender] at sent
      obtain ⟨drained, leaving⟩ := drained_withStore freeIds (sent.trans hsender.symm)
      exact ⟨hashes, leaving, Or.inl ⟨hsender, drained⟩, fun _ => ⟨hsender, drained⟩,
        contextHashes, contextHashesCycles⟩
  | some channel =>
      rw [hsender] at sent
      obtain ⟨drained, leaving⟩ := drained_send freeIds hsender sent
      refine ⟨hashes, leaving.trans (List.append_nil _), Or.inr drained, ?_, contextHashes,
        contextHashesCycles⟩
      intro none
      rw [withStore_store, sent] at none
      cases none

/-- A commit is found as soon as all that it reaches is kept for as long as the commit. -/
theorem Onward.publish (safe : Safe s) (hash : s.store.hashes.getHash id = some h)
    (newest : Held s 0 id)
    (walked : ∀ j, Reach s id j → (∃ slot ∈ s.drained.older, (slot.get j).isSome) →
      s.drained.Walked reused j) : Onward s (s.published id reused) := by
  have published : Published s id h reused (s.published id reused) := published_spec hash
  have placed : Placed (s.published id reused) := (safe.placed.put id).applied reused
  generalize s.published id reused = s' at published placed ⊢
  have carry : ∀ n, Carry s s' n n := by
    intro n j value here kept
    rw [published.hashes]
    refine ⟨here, rfl, ?_⟩
    rcases published.drained with ⟨_, drained⟩ | drained
    · exact ⟨by rw [published.leaving]; exact kept.stays, by rw [drained]; exact kept.young⟩
    · exact kept_markReused safe.placed drained published.leaving kept
  have youngest : Held s' 6 id ∧ Lasts s s' id := by
    obtain ⟨held, lasts⟩ := newest.carry (carry 0)
    refine ⟨fun j reach' => ⟨(held j reach').1, ?_⟩, lasts⟩
    have reach := (lasts.reach j).mp reach'
    rcases published.drained with ⟨none, drained⟩ | drained
    · refine ⟨(held j reach').2.stays, fun i _ slot at_ => ?_⟩
      rw [drained] at at_
      exact safe.disabled none slot (List.mem_of_getElem? at_) j
    · exact kept_walked safe.placed drained published.leaving (newest j reach).2 (walked j reach)
  obtain ⟨older, last, hbuckets, hlength⟩ := safe.buckets
  have buckets : s'.store.contextHashesCycles =
      older ++ [last ++ [Digest.defaultHasher h.bytes]] := by
    rw [published.contextHashesCycles, hbuckets, List.dropLast_concat, List.getLast?_concat]
    rfl
  have stands : ∀ k i, StandsAt s' k i ↔
      StandsAt s k i ∨ i = older.length ∧ k = Digest.defaultHasher h.bytes := by
    intro k i
    rw [StandsAt, StandsAt, buckets, hbuckets]
    exact mem_bucket_put older last _ k i
  have carried : ∀ {k j}, s.store.contextHashes k = some j → ∀ i, StandsAt s k i →
      Held s' i j ∧ Lasts s s' j :=
    fun here i at_ => ((safe.found _ _ here).2 i at_).carry (carry i)
  refine ⟨⟨placed, ?_, ⟨older, _, buckets, hlength⟩, ?_⟩, ?_⟩
  · intro none
    obtain ⟨none, drained⟩ := published.sender none
    rw [drained]
    exact safe.disabled none
  · intro k j here
    rw [published.contextHashes] at here
    by_cases key : k = Digest.defaultHasher h.bytes
    · rw [key, Function.update_self] at here
      cases here
      refine ⟨⟨older.length, (stands k _).mpr (Or.inr ⟨rfl, key⟩)⟩, ?_⟩
      intro i at_
      refine youngest.1.mono ?_
      have inside : i < (older ++ [last ++ [Digest.defaultHasher h.bytes]]).length := by
        by_contra out
        rw [StandsAt, buckets, List.getElem?_eq_none (Nat.not_lt.mp out)] at at_
        exact absurd at_ List.not_mem_nil
      rw [List.length_append, List.length_singleton, hlength, PRESERVE_CYCLE_COUNT] at inside
      omega
    · rw [Function.update_of_ne key] at here
      obtain ⟨i, at_⟩ := (safe.found k j here).1
      refine ⟨⟨i, (stands k i).mpr (Or.inl at_)⟩, ?_⟩
      intro i at'
      exact (carried here i (((stands k i).mp at').resolve_right fun other => key other.2)).1
  · intro k j here _
    obtain ⟨i, at_⟩ := (safe.found k j here).1
    exact (carried here i at_).2

end Publishing

end System

end NodeFuzzer
