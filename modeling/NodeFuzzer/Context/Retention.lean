import NodeFuzzer.Context.Ownership

/-!
# How long a commit is found

The key of a commit stands in the map of context hashes and in the bucket of the cycle in
which it was put.  When a cycle starts, the keys of the oldest bucket leave the map.

A commit that is put again has its key in two buckets.  The older one takes the entry of the
newer one with it, so that the commit is found for seven cycles exactly when its key was in
no older bucket at its last put.
-/

namespace NodeFuzzer

namespace System

section Buckets

variable [Digest] {s : System}

/-- The thread is there or not from the start. -/
theorem sender_act (s : System) (a : Act) :
    (s.act a).store.sender.isSome = s.store.sender.isSome := by
  cases a with
  | alloc hash => rfl
  | write batch =>
      show (s.store.writeBatch batch).sender.isSome = _
      rw [InMemory.writeBatch_sender]
  | put commitHashId =>
      rw [act, InMemory.putContextHash]
      cases s.store.hashes.getHash commitHashId <;> rfl
  | applied reused =>
      show (s.store.sender.map _).isSome = _
      rw [Option.isSome_map]
  | newCycle =>
      rw [act, InMemory.newCycleStarted]
      cases hsender : s.store.sender with
      | none =>
          show s.store.sender.isSome = _
          rw [hsender]
      | some channel => rfl
  | gc =>
      show s.gcStep.store.sender.isSome = _
      rw [gcStep]
      split
      next channel _ hsender _ =>
        rw [hsender]
        rfl
      next => rfl

/-- Only `put_context_hash` and `new_cycle_started` change what is found. -/
theorem contexts_act {a : Act} (notPut : ∀ id, a ≠ .put id) (notCycle : a ≠ .newCycle) :
    (s.act a).store.contextHashes = s.store.contextHashes ∧
      (s.act a).store.contextHashesCycles = s.store.contextHashesCycles := by
  cases a with
  | alloc hash => exact ⟨rfl, rfl⟩
  | write batch =>
      refine ⟨InMemory.writeBatch_contextHashes batch s.store, ?_⟩
      exact InMemory.writeBatch_contextHashesCycles batch s.store
  | put commitHashId => exact absurd rfl (notPut commitHashId)
  | applied reused => exact ⟨rfl, rfl⟩
  | newCycle => exact absurd rfl notCycle
  | gc => exact ⟨(gcStep_spec s).beside.contextHashes, (gcStep_spec s).beside.contextHashesCycles⟩

/-- A key is put: the map and the last bucket have it. -/
theorem put_act {id : HashId} {h : EntryHash} (hash : s.store.hashes.getHash id = some h) :
    (s.act (.put id)).store.contextHashes =
        Function.update s.store.contextHashes (Digest.defaultHasher h.bytes) (some id) ∧
      (s.act (.put id)).store.contextHashesCycles = s.store.contextHashesCycles.dropLast ++
        (s.store.contextHashesCycles.getLast?.map fun v =>
          v ++ [Digest.defaultHasher h.bytes]).toList := by
  rw [act, InMemory.putContextHash, hash]
  exact ⟨rfl, rfl⟩

theorem put_act_none {id : HashId} (hash : s.store.hashes.getHash id = none) :
    s.act (.put id) = s := by
  rw [act, InMemory.putContextHash, hash]
  rfl

/-- A cycle starts: the keys of the oldest bucket are not found any more. -/
theorem newCycle_act (enabled : s.store.sender.isSome) :
    (s.act .newCycle).store.contextHashes =
        (fun k => if k ∈ s.store.contextHashesCycles.headD [] then none
          else s.store.contextHashes k) ∧
      (s.act .newCycle).store.contextHashesCycles =
        s.store.contextHashesCycles.tail ++ [[]] := by
  obtain ⟨channel, hsender⟩ := Option.isSome_iff_exists.mp enabled
  rw [act, InMemory.newCycleStarted, hsender]
  exact ⟨rfl, rfl⟩

/-- The collector is enabled, and there is a bucket for each cycle that is kept. -/
structure Ring (s : System) : Prop where
  enabled : s.store.sender.isSome
  buckets : ∃ older last, s.store.contextHashesCycles = older ++ [last] ∧
    older.length + 1 = PRESERVE_CYCLE_COUNT

omit [Digest] in
theorem ring_new (schedule : List Nat) : Ring (new false schedule) :=
  ⟨rfl, List.replicate 6 [], [], rfl, rfl⟩

/-- The key stands in a bucket, counted from the oldest one. -/
def StandsAt (s : System) (k : UInt64) (i : Nat) : Prop :=
  k ∈ (s.store.contextHashesCycles[i]?).getD []

omit [Digest] in
/-- A key that is put into the last bucket. -/
theorem mem_bucket_put (older : List (List UInt64)) (last : List UInt64) (key k : UInt64) (i : Nat) :
    k ∈ ((older ++ [last ++ [key]])[i]?).getD [] ↔
      k ∈ ((older ++ [last])[i]?).getD [] ∨ i = older.length ∧ k = key := by
  rcases Nat.lt_trichotomy i older.length with hlt | rfl | hgt
  · rw [List.getElem?_append_left hlt, List.getElem?_append_left hlt]
    constructor
    · exact Or.inl
    · rintro (mem | ⟨heq, _⟩)
      · exact mem
      · omega
  · rw [List.getElem?_concat_length, List.getElem?_concat_length]
    simp
  · have out : ∀ l : List UInt64, (older ++ [l])[i]? = none := by
      intro l
      refine List.getElem?_eq_none ?_
      rw [List.length_append, List.length_singleton]
      exact hgt
    rw [out, out]
    constructor
    · exact Or.inl
    · rintro (mem | ⟨heq, _⟩)
      · exact mem
      · omega

omit [Digest] in
/-- The buckets move when there is a new one. -/
theorem mem_bucket_shift (buckets : List (List UInt64)) (k : UInt64) (i : Nat) :
    k ∈ ((buckets.tail ++ [[]])[i]?).getD [] ↔ k ∈ (buckets[i + 1]?).getD [] := by
  rw [← List.getElem?_tail]
  rcases Nat.lt_trichotomy i buckets.tail.length with hlt | rfl | hgt
  · rw [List.getElem?_append_left hlt]
  · rw [List.getElem?_concat_length, List.getElem?_eq_none (le_refl _)]
    rfl
  · rw [List.getElem?_eq_none hgt.le, List.getElem?_eq_none]
    rw [List.length_append, List.length_singleton]
    exact hgt

theorem Ring.put (ring : Ring s) {id : HashId} {h : EntryHash}
    (hash : s.store.hashes.getHash id = some h) :
    Ring (s.act (.put id)) ∧ ∀ k i, StandsAt (s.act (.put id)) k i ↔
      StandsAt s k i ∨ i + 1 = PRESERVE_CYCLE_COUNT ∧ k = Digest.defaultHasher h.bytes := by
  obtain ⟨older, last, hbuckets, hlength⟩ := ring.buckets
  have after : (s.act (.put id)).store.contextHashesCycles =
      older ++ [last ++ [Digest.defaultHasher h.bytes]] := by
    rw [(put_act hash).2, hbuckets, List.dropLast_concat, List.getLast?_concat]
    rfl
  refine ⟨⟨(sender_act s _).trans ring.enabled, older, _, after, hlength⟩, fun k i => ?_⟩
  have newest : i + 1 = PRESERVE_CYCLE_COUNT ↔ i = older.length := by omega
  rw [StandsAt, StandsAt, after, hbuckets, newest]
  exact mem_bucket_put older last _ k i

theorem Ring.newCycle (ring : Ring s) :
    Ring (s.act .newCycle) ∧ ∀ k i, StandsAt (s.act .newCycle) k i ↔ StandsAt s k (i + 1) := by
  obtain ⟨older, last, hbuckets, hlength⟩ := ring.buckets
  have after := (newCycle_act ring.enabled).2
  refine ⟨⟨(sender_act s _).trans ring.enabled, (older ++ [last]).tail, [], ?_, ?_⟩, ?_⟩
  · rw [after, hbuckets]
  · rw [List.length_tail, List.length_append, List.length_singleton]
    exact hlength
  · intro k i
    rw [StandsAt, StandsAt, after]
    exact mem_bucket_shift s.store.contextHashesCycles k i

theorem Ring.other (ring : Ring s) {a : Act} (notPut : ∀ id, a ≠ .put id)
    (notCycle : a ≠ .newCycle) :
    Ring (s.act a) ∧ ∀ k i, StandsAt (s.act a) k i ↔ StandsAt s k i := by
  obtain ⟨older, last, hbuckets, hlength⟩ := ring.buckets
  have same := (contexts_act (s := s) notPut notCycle).2
  refine ⟨⟨(sender_act s a).trans ring.enabled, older, last, same.trans hbuckets, hlength⟩, ?_⟩
  intro k i
  rw [StandsAt, StandsAt, same]

theorem Ring.act (ring : Ring s) (a : Act) : Ring (s.act a) := by
  by_cases put : ∃ id, a = .put id
  · obtain ⟨id, rfl⟩ := put
    cases hash : s.store.hashes.getHash id with
    | none =>
        rw [put_act_none hash]
        exact ring
    | some h => exact (ring.put hash).1
  · by_cases cycle : a = .newCycle
    · rw [cycle]
      exact ring.newCycle.1
    · exact (ring.other (fun id h => put ⟨id, h⟩) cycle).1

theorem Ring.acts (ring : Ring s) (acts : List Act) : Ring (s.afterActs acts) := by
  induction acts generalizing s with
  | nil => exact ring
  | cons a acts ih => exact ih (ring.act a)

/-- The key of a commit that was put `n` cycles ago and not since. -/
structure Aged (s : System) (k : UInt64) (id : HashId) (n : Nat) : Prop where
  ring : Ring s
  stands : ∀ i, StandsAt s k i ↔ i + n + 1 = PRESERVE_CYCLE_COUNT
  lookup : s.store.contextHashes k = if n < PRESERVE_CYCLE_COUNT then some id else none

omit [Digest] in
theorem mem_headD {k : UInt64} (l : List (List UInt64)) : k ∈ l.headD [] ↔ k ∈ (l[0]?).getD [] := by
  cases l <;> rfl

theorem Aged.newCycle {k : UInt64} {id : HashId} {n : Nat} (aged : Aged s k id n) :
    Aged (s.act .newCycle) k id (n + 1) := by
  obtain ⟨ring, stands⟩ := aged.ring.newCycle
  refine ⟨ring, fun i => ?_, ?_⟩
  · rw [stands, aged.stands]
    constructor <;> intro h <;> omega
  · have head : k ∈ s.store.contextHashesCycles.headD [] ↔ n + 1 = PRESERVE_CYCLE_COUNT := by
      rw [mem_headD]
      have here := aged.stands 0
      rw [Nat.zero_add] at here
      exact here
    rw [(newCycle_act aged.ring.enabled).1]
    show (if k ∈ s.store.contextHashesCycles.headD [] then none else s.store.contextHashes k) = _
    rw [aged.lookup]
    by_cases oldest : n + 1 = PRESERVE_CYCLE_COUNT
    · rw [if_pos (head.mpr oldest), if_neg (by omega)]
    · rw [if_neg fun mem => oldest (head.mp mem)]
      split
      · rw [if_pos (by omega)]
      · rw [if_neg (by omega)]

theorem Aged.other {k : UInt64} {id : HashId} {n : Nat} (aged : Aged s k id n) {a : Act}
    (notPut : ∀ id, a ≠ .put id) (notCycle : a ≠ .newCycle) : Aged (s.act a) k id n := by
  obtain ⟨ring, stands⟩ := aged.ring.other notPut notCycle
  refine ⟨ring, fun i => (stands k i).trans (aged.stands i), ?_⟩
  rw [(contexts_act notPut notCycle).1]
  exact aged.lookup

end Buckets

end System

/-- No hash with the key of this one is put: neither it nor, keys being free of collisions,
another one. -/
def Act.Spares [Digest] (h : EntryHash) (s : System) : Act → Prop
  | .put id => ∀ k ∈ s.store.hashes.getHash id,
      Digest.defaultHasher k.bytes ≠ Digest.defaultHasher h.bytes
  | _ => True

namespace System

section Retained

variable [Digest] {s : System} {id : HashId} {h : EntryHash}

theorem Aged.act {n : Nat} (aged : Aged s (Digest.defaultHasher h.bytes) id n) {a : Act}
    (spares : a.Spares h s) :
    Aged (s.act a) (Digest.defaultHasher h.bytes) id (n + [a].count .newCycle) := by
  by_cases put : ∃ j, a = .put j
  · obtain ⟨j, rfl⟩ := put
    show Aged _ _ id n
    cases hash : s.store.hashes.getHash j with
    | none =>
        rw [put_act_none hash]
        exact aged
    | some h' =>
        have other : Digest.defaultHasher h'.bytes ≠ Digest.defaultHasher h.bytes :=
          spares h' hash
        obtain ⟨ring, stands⟩ := aged.ring.put hash
        refine ⟨ring, fun i => ?_, ?_⟩
        · rw [stands, aged.stands]
          exact or_iff_left fun here => other here.2.symm
        · rw [(put_act hash).1, Function.update_of_ne other.symm]
          exact aged.lookup
  · by_cases cycle : a = .newCycle
    · rw [cycle]
      exact aged.newCycle
    · rw [List.count_eq_zero_of_not_mem (by simpa using Ne.symm cycle)]
      exact aged.other (fun j h => put ⟨j, h⟩) cycle

theorem Aged.acts {n : Nat} (aged : Aged s (Digest.defaultHasher h.bytes) id n) {acts : List Act}
    (spares : Along (fun s a => a.Spares h s) s acts) :
    Aged (s.afterActs acts) (Digest.defaultHasher h.bytes) id (n + acts.count .newCycle) := by
  induction acts generalizing s n with
  | nil => exact aged
  | cons a acts ih =>
      have rest := ih (aged.act spares.1) spares.2
      rw [Nat.add_assoc, ← List.count_append] at rest
      exact rest

/-- A key that stands in a bucket leaves the map with it. -/
theorem forgotten {k : UInt64} {i : Nat} (ring : Ring s) (stands : StandsAt s k i) :
    (s.afterActs (List.replicate (i + 1) .newCycle)).store.contextHashes k = none := by
  induction i generalizing s with
  | zero =>
      show (s.act .newCycle).store.contextHashes k = none
      rw [(newCycle_act ring.enabled).1]
      exact if_pos ((mem_headD _).mpr stands)
  | succ i ih =>
      obtain ⟨ring', stands'⟩ := ring.newCycle
      exact ih ring' ((stands' k i).mpr stands)

theorem spares_cycles (n : Nat) (s : System) :
    Along (fun s a => a.Spares h s) s (List.replicate n .newCycle) := by
  induction n generalizing s with
  | zero => exact trivial
  | succ n ih => exact ⟨trivial, ih _⟩

/-- A commit that is put is found until the seventh cycle after it starts, whatever happens
besides, exactly when its key stands in no older bucket where it is put. -/
theorem context_hash_retained_iff (schedule : List Nat) (before : List Act)
    (hash : ((new false schedule).afterActs before).store.hashes.getHash id = some h) :
    let s := (new false schedule).afterActs before
    (∀ after, Along (fun s a => a.Spares h s) (s.act (.put id)) after →
        ((s.act (.put id)).afterActs after).store.getContextHash h =
          if after.count .newCycle < PRESERVE_CYCLE_COUNT then some id else none) ↔
      ∀ bucket ∈ s.store.contextHashesCycles.dropLast, Digest.defaultHasher h.bytes ∉ bucket := by
  intro s
  have ring : Ring s := (ring_new schedule).acts before
  obtain ⟨ringPut, stands⟩ := ring.put hash
  obtain ⟨older, last, hbuckets, hlength⟩ := ring.buckets
  rw [hbuckets, List.dropLast_concat]
  constructor
  · intro retained bucket mem key
    obtain ⟨i, hlt, rfl⟩ := List.mem_iff_getElem.mp mem
    have here : StandsAt s (Digest.defaultHasher h.bytes) i := by
      rw [StandsAt, hbuckets, List.getElem?_append_left hlt, List.getElem?_eq_getElem hlt]
      exact key
    have gone := forgotten ringPut ((stands _ i).mpr (Or.inl here))
    have found := retained _ (spares_cycles (i + 1) _)
    rw [List.count_replicate_self, if_pos (by omega)] at found
    exact absurd (found.symm.trans gone) (Option.some_ne_none id)
  · intro none after spares
    have aged : Aged (s.act (.put id)) (Digest.defaultHasher h.bytes) id 0 := by
      refine ⟨ringPut, fun i => ?_, ?_⟩
      · have newest : StandsAt s (Digest.defaultHasher h.bytes) i →
            i + 1 = PRESERVE_CYCLE_COUNT := by
          intro here
          rw [StandsAt, hbuckets] at here
          rcases Nat.lt_trichotomy i older.length with hlt | rfl | hgt
          · rw [List.getElem?_append_left hlt, List.getElem?_eq_getElem hlt] at here
            exact absurd here (none _ (List.getElem_mem hlt))
          · exact hlength
          · rw [List.getElem?_eq_none] at here
            · exact absurd here List.not_mem_nil
            · rw [List.length_append, List.length_singleton]
              exact hgt
        rw [stands]
        constructor
        · rintro (here | ⟨here, _⟩)
          · exact newest here
          · exact here
        · exact fun here => Or.inr ⟨here, rfl⟩
      · rw [(put_act hash).1, Function.update_self, if_pos (by decide)]
    have lookup := (aged.acts spares).lookup
    rw [Nat.zero_add] at lookup
    exact lookup

end Retained

section Sample

local instance retentionDigest : Digest := sampleDigest

theorem context_hash_retained_iff_once :
    let s := ((new false []).afterActs [.alloc zeroHash]).act (.put firstId)
    ∀ n, (s.afterActs (List.replicate n .newCycle)).store.getContextHash zeroHash =
      if n < PRESERVE_CYCLE_COUNT then some firstId else none := by
  intro s n
  have retained := (@context_hash_retained_iff _ firstId zeroHash [] [.alloc zeroHash]
    (by decide +kernel)).mpr (by decide +kernel)
  have found := retained _ (spares_cycles n s)
  rw [List.count_replicate_self] at found
  exact found

/-- A commit is put in two cycles.  It is gone six cycles after the second time. -/
theorem put_again_forgets :
    let s := (new false []).afterActs [.alloc zeroHash, .put firstId, .newCycle, .put firstId]
    s.store.getContextHash zeroHash = some firstId ∧
      (s.afterActs (List.replicate 6 .newCycle)).store.getContextHash zeroHash = none := by
  decide +kernel

end Sample

end System

end NodeFuzzer
