import NodeFuzzer.Context.Quiet

/-!
# What the end of a cycle sets free

When a cycle starts, the ids of the oldest slot will be free, whether something still keeps
them or not.  Nodes and store stay consistent exactly when nothing does
(`soundSession_cycle`).  What holds between two cycles then holds over any number of them.

An id that a node keeps and that was set free is handed out for another hash while the node
is not hashed again.  Two calls of `hash` that follow each other then differ
(`hash_calls_differ`).
-/

namespace NodeFuzzer

open KeyValueStoreBackend StoreView

/-! ## The store -/

namespace System

/-- What `new_cycle_started` does when there is a thread. -/
structure Started (s : System) (channel : List Command) (m : InMemory) : Prop where
  hashes : m.hashes.hashes = s.store.hashes.hashes
  values : m.hashes.values = s.store.hashes.values
  drained : (s.withStore m).drained =
    s.drained.obey (.startNewCycle s.store.currentCycle s.store.hashes.newIds)
  leaving : (s.withStore m).leaving = s.leaving ++
    s.drained.frees (.startNewCycle s.store.currentCycle s.store.hashes.newIds)
  sender : m.sender =
    some (channel ++ [.startNewCycle s.store.currentCycle s.store.hashes.newIds])
  contextHashes : ∀ k, m.contextHashes k =
    if k ∈ s.store.contextHashesCycles.headD [] then none else s.store.contextHashes k
  contextHashesCycles : m.contextHashesCycles = s.store.contextHashesCycles.tail ++ [[]]

theorem cycleStarted_started {s : System} {channel : List Command}
    (sender : s.store.sender = some channel) : Started s channel s.store.newCycleStarted := by
  have started : s.store.newCycleStarted = { s.store with
      currentCycle := .empty
      hashes := s.store.hashes.takeNewIds.2
      sender := some (channel ++ [.startNewCycle s.store.currentCycle s.store.hashes.newIds])
      contextHashes := fun k =>
        if k ∈ s.store.contextHashesCycles.headD [] then none else s.store.contextHashes k
      contextHashesCycles := s.store.contextHashesCycles.tail ++ [[]] } := by
    rw [InMemory.newCycleStarted, sender]
    rfl
  rw [started]
  refine ⟨rfl, rfl, ?_, ?_, rfl, fun _ => rfl, rfl⟩
  · refine (drained_send ?_ sender ?_).1 <;> rfl
  · refine (drained_send ?_ sender ?_).2 <;> rfl

/-- The ids that leave when the next cycle starts: those of the oldest slot. -/
def ending (s : System) : List HashId :=
  if s.store.sender.isSome then (s.drained.older.headD s.drained.last).keys else []

theorem ending_nodup (s : System) : s.ending.Nodup := by
  rw [ending]
  split
  · exact OrdMap.keys_nodup _
  · exact List.nodup_nil

/-- What a cycle start does to the store. -/
structure Ended (s s' : System) : Prop where
  hashes : s'.store.hashes.hashes = s.store.hashes.hashes
  values : s'.store.hashes.values = s.store.hashes.values
  leaving : s'.leaving = s.leaving ++ s.ending
  stands : ∀ id, s'.Stands id → s.Stands id
  newIds : ∀ id ∈ s'.store.hashes.newIds, id ∈ s.store.hashes.newIds ∧ s.ending = []

theorem ended_newCycle (s : System) : Ended s (s.withStore s.store.newCycleStarted) := by
  cases sender : s.store.sender with
  | none =>
      have same : s.store.newCycleStarted = s.store := by
        rw [InMemory.newCycleStarted, sender]
      have nothing : s.ending = [] := by
        rw [ending, sender]
        rfl
      rw [same]
      refine ⟨rfl, rfl, ?_, fun _ h => h, fun _ h => ⟨h, nothing⟩⟩
      rw [nothing, List.append_nil]
      rfl
  | some channel =>
      have started := cycleStarted_started sender
      have ends : s.ending =
          s.drained.frees (.startNewCycle s.store.currentCycle s.store.hashes.newIds) := by
        rw [ending, sender]
        rfl
      have fresh : s.store.newCycleStarted.hashes.newIds = [] ∧
          s.store.newCycleStarted.currentCycle = .empty := by
        rw [InMemory.newCycleStarted, sender]
        exact ⟨rfl, rfl⟩
      refine ⟨started.hashes, started.values, ends ▸ started.leaving, ?_, ?_⟩
      · -- The slots move by one, and the cycle that ends is the last one.
        intro id stands
        have moved := s.drained.places_obey
          (.startNewCycle s.store.currentCycle s.store.hashes.newIds) id
        have holds : 0 < (s.drained.frees (.startNewCycle s.store.currentCycle
            s.store.hashes.newIds)).count id + (s.drained.obey (.startNewCycle s.store.currentCycle
            s.store.hashes.newIds)).places id → s.Stands id := by
          intro pos
          by_cases cycle : s.store.currentCycle.holds s.store.hashes.newIds id = true
          · exact Or.inr (Or.inr cycle)
          · rw [Command.holds, if_neg cycle] at moved
            exact Or.inr (Or.inl (by omega))
        rcases stands with mem | pos | here
        · rw [started.leaving] at mem
          rcases List.mem_append.mp mem with mem | mem
          · exact Or.inl mem
          · exact holds (Nat.add_pos_left (List.count_pos_iff.mpr mem) _)
        · rw [started.drained] at pos
          exact holds (Nat.add_pos_right _ pos)
        · rw [withStore_store, fresh.1, fresh.2] at here
          cases here
      · intro id mem
        rw [withStore_store, fresh.1] at mem
        cases mem

namespace Ended

variable {s s' : System}

theorem live (ended : Ended s s') (id : HashId) : Live s' id ↔ Live s id ∧ id ∉ s.ending := by
  rw [Live, Live, ended.hashes, ended.leaving, List.mem_append, not_or, and_assoc]

/-- No id is free twice when none was free already. -/
theorem inv_iff (ended : Ended s s') (inv : Inv s) : Inv s' ↔ ∀ id ∈ s.ending, id ∉ s.leaving := by
  constructor
  · intro inv'
    have nodup := inv'.nodup
    rw [ended.leaving] at nodup
    exact fun id mem mem' => (List.nodup_append'.mp nodup).2.2 mem' mem
  · intro once
    refine ⟨?_, ?_, ?_, ?_⟩
    · rw [HashValueStore.Bounded, ended.hashes, ended.values]
      exact inv.bounded
    · rw [ended.leaving]
      exact List.nodup_append'.mpr ⟨inv.nodup, s.ending_nodup, fun id mem mem' => once id mem' mem⟩
    · intro id stands
      rw [ended.hashes]
      exact inv.range id (ended.stands id stands)
    · intro id mem past
      obtain ⟨new, none⟩ := ended.newIds id mem
      rw [ended.values] at past
      rw [ended.leaving, none, List.append_nil]
      exact inv.fresh id new past

end Ended

theorem live_of_newCycle {s : System} {id : HashId}
    (live : Live (s.withStore s.store.newCycleStarted) id) : Live s id :=
  ((ended_newCycle s).live id).mp live |>.1

section Unchanged

variable [Digest] (s : System) (id : HashId)

/-- Hashes and values stay, also those of ids that leave. -/
theorem getHash_newCycle : getHash id (s.withStore s.store.newCycleStarted) = getHash id s := by
  show Except.ok (HashValueStore.getHash id _) = Except.ok (HashValueStore.getHash id _)
  rw [HashValueStore.getHash, HashValueStore.getHash, (ended_newCycle s).hashes]

theorem getValue_newCycle : getValue id (s.withStore s.store.newCycleStarted) = getValue id s := by
  show Except.ok (HashValueStore.getValue id _) = Except.ok (HashValueStore.getValue id _)
  rw [HashValueStore.getValue, HashValueStore.getValue, (ended_newCycle s).values]

end Unchanged

end System

/-! ## The process -/

section Cycles

variable [Digest] {s s' : Session System}

/-- Nothing keeps an id that leaves when the next cycle starts. -/
structure Session.Released (s : Session System) : Prop where
  once : ∀ id ∈ s.world.repo.ending, id ∉ s.world.repo.leaving
  nodes : ∀ a, ∀ id ∈ (s.world.heap.node a).entryHash, id ∉ s.world.repo.ending
  values : ∀ id value, Live s.world.repo id → id ∉ s.world.repo.ending →
    s.world.repo.store.hashes.getValue id = some value →
    ∀ r ∈ value.references, r ∉ s.world.repo.ending
  commits : ∀ h, ∀ id ∈ s.world.repo.store.newCycleStarted.getContextHash h,
    id ∉ s.world.repo.ending
  parents : ∀ c ∈ s.contexts, ∀ id ∈ c.parentCommitHash, id ∉ s.world.repo.ending

/-- Nothing leaves. -/
theorem Session.Released.of_nil (none : s.world.repo.ending = []) : s.Released := by
  constructor <;> simp [none]

/-- Which commits are found after a cycle start. -/
theorem getContextHash_newCycleStarted {m : InMemory} {h : ContextHash} {id : HashId}
    (found : m.newCycleStarted.getContextHash h = some id) : m.getContextHash h = some id := by
  rw [InMemory.newCycleStarted] at found
  split at found
  · exact found
  · rw [InMemory.getContextHash] at found ⊢
    dsimp only at found
    split at found
    · cases found
    · exact found

/-- Nodes and store are consistent after a cycle start if and only if nothing kept an id that
left. -/
theorem soundSession_cycle (sound : SoundSession s) :
    SoundSession (Session.perform .cycleStarted s).2 ↔ s.Released := by
  have ended := System.ended_newCycle s.world.repo
  have repo : (Session.perform .cycleStarted s).2.world.repo =
    s.world.repo.withStore s.world.repo.store.newCycleStarted := rfl
  constructor
  · intro after
    have left : ∀ {id}, Live (Session.perform .cycleStarted s).2.world.repo id →
        id ∉ s.world.repo.ending := fun live => ((ended.live _).mp live).2
    refine ⟨(ended.inv_iff sound.sound.inv).mp after.sound.inv, ?_, ?_, ?_, ?_⟩
    · exact fun a id hid => left ((after.sound.nodes a).live hid trivial)
    · intro id value live out hvalue r hr
      refine left (after.sound.closed.references ((ended.live id).mpr ⟨live, out⟩) ?_ hr).1
      show Except.ok (HashValueStore.getValue id _) = _
      rw [HashValueStore.getValue] at hvalue ⊢
      rw [repo, ended.values, hvalue]
    · exact fun h id found => left (after.sound.closed.contexts (congrArg Except.ok found)).1
    · exact fun c hc id hid => left ((after.contexts c hc).parent hid).1
  · intro released
    have stays : ∀ {id}, Live s.world.repo id → id ∉ s.world.repo.ending →
        Live (Session.perform .cycleStarted s).2.world.repo id :=
      fun live out => (ended.live _).mpr ⟨live, out⟩
    refine ⟨⟨(ended.inv_iff sound.sound.inv).mpr released.once, ⟨?_, ?_⟩, fun a => ?_⟩, ?_,
      sound.trees⟩
    · intro id value r live hvalue hr
      obtain ⟨live, out⟩ := (ended.live id).mp live
      have found : s.world.repo.store.hashes.getValue id = some value := by
        have here := Except.ok.inj hvalue
        rw [HashValueStore.getValue] at here ⊢
        rw [← ended.values]
        exact here
      exact ⟨stays (sound.sound.closed.references live (congrArg Except.ok found) hr).1
        (released.values id value live out found r hr), trivial⟩
    · intro h id hid
      have found := Except.ok.inj hid
      have before := getContextHash_newCycleStarted found
      exact ⟨stays (sound.sound.closed.contexts (congrArg Except.ok before)).1
        (released.commits h id found), trivial⟩
    · have old := sound.sound.nodes a
      exact ⟨fun hid known => stays (old.live hid known) (released.nodes a _ hid), old.older,
        old.notCommit, old.filled, old.within, old.stored, old.newer, old.plain⟩
    · intro c hc
      refine ⟨(sound.contexts c hc).within, fun hid => ?_⟩
      obtain ⟨live, known⟩ := (sound.contexts c hc).parent hid
      exact ⟨stays live (released.parents c hc _ hid), known⟩

/-- Contexts and trees are dropped, and with them nodes that nothing else refers to.  A new
context stands in the place of a dropped one. -/
structure Session.Drops (gone : Addr → Prop) (s s' : Session System) : Prop where
  repo : s'.world.repo = s.world.repo
  next : s'.world.heap.next = s.world.heap.next
  kept : ∀ a, ¬ gone a → s'.world.heap.node a = s.world.heap.node a
  left : ∀ a, gone a → s'.world.heap.node a = getLeaf (.blob [])
  closed : ∀ a tree p, ¬ gone a → (s.world.heap.node a).entry = some (.tree tree) →
    p ∈ tree.entries → ¬ gone p.2
  contexts : ∀ c ∈ s'.contexts,
    c = .new ∨ c ∈ s.contexts ∧ ∀ p ∈ c.tree.root.entries, ¬ gone p.2
  trees : ∀ t ∈ s'.trees, t = .new ∨ t ∈ s.trees ∧ ∀ p ∈ t.root.entries, ¬ gone p.2

theorem Session.Drops.sound {gone : Addr → Prop} (drops : s.Drops gone s')
    (sound : SoundSession s) : SoundSession s' := by
  refine ⟨⟨drops.repo ▸ sound.sound.inv, drops.repo ▸ sound.sound.closed, fun a => ?_⟩, ?_, ?_⟩
  · have old := sound.sound.nodes a
    by_cases here : gone a
    · have leaf := drops.left a here
      constructor <;> simp [leaf, getLeaf]
    · have same := drops.kept a here
      have unknown : Unknown s'.world a ↔ Unknown s.world a := by rw [Unknown, Unknown, same]
      constructor
      · intro id hid known
        rw [same] at hid
        exact drops.repo ▸ old.live hid known
      · intro tree p hunknown hentry
        rw [same] at hentry
        exact old.older (unknown.mp hunknown) hentry
      · intro commit hunknown
        rw [same]
        exact old.notCommit (unknown.mp hunknown)
      · intro tree hid hentry p hp
        rw [same] at hid hentry
        rw [drops.kept p.2 (drops.closed a tree p here hentry hp)]
        exact old.filled hid hentry p hp
      · intro tree hentry
        rw [same] at hentry
        exact (old.within hentry).mono drops.next.ge
      · rw [same, drops.next]
        exact old.stored
      · rw [same]
        exact old.newer
      · rw [same]
        exact old.plain
  · intro c hc
    rcases drops.contexts c hc with rfl | ⟨mem, _⟩
    · exact ⟨Within.empty _, fun hid => by cases hid⟩
    · refine ⟨(sound.contexts c mem).within.mono drops.next.ge, fun hid => ?_⟩
      rw [drops.repo]
      exact (sound.contexts c mem).parent hid
  · intro t ht
    rcases drops.trees t ht with rfl | ⟨mem, _⟩
    · exact Within.empty _
    · exact (sound.trees t mem).mono drops.next.ge

/-! ## Whole runs -/

/-- A run of the process: calls, where no cycle start frees an id that something keeps, and
contexts and trees that are dropped. -/
def Session.Lives : Session System → Session System → Prop :=
  Relation.ReflTransGen fun s s' =>
    (∃ op, (op = .cycleStarted → s.Released) ∧ (perform op s).2 = s') ∨ ∃ gone, s.Drops gone s'

theorem soundSession_perform {op : Op} (sound : SoundSession s)
    (released : op = .cycleStarted → s.Released) : SoundSession (Session.perform op s).2 := by
  by_cases cycle : op = .cycleStarted
  · rw [cycle]
    exact (soundSession_cycle sound).mpr (released cycle)
  · exact (perform_later sound cycle).sound

theorem Session.Lives.sound (run : s.Lives s') (sound : SoundSession s) : SoundSession s' := by
  induction run with
  | refl => exact sound
  | tail _ step ih =>
      rcases step with ⟨op, released, rfl⟩ | ⟨gone, drops⟩
      · exact soundSession_perform ih released
      · exact drops.sound ih

/-- All calls of `hash` and `commit` on a context that return give the same hash, as long as no
cycle starts between them, when no cycle start before them freed an id that something kept. -/
theorem hash_predicts_commit {disabled : Bool} {schedule : List Nat}
    {s s₁ s₂ s₃ : Session System} {i : Nat} {author message : String} {date : Int64}
    {op₁ op₂ : Op} {h₁ h₂ : ContextHash} (before : (Session.start disabled schedule).Lives s)
    (asks₁ : AsksHash i author message date op₁) (asks₂ : AsksHash i author message date op₂)
    (call₁ : Session.perform op₁ s = (.ok (.contextHash h₁), s₁))
    (between : Runs (· ≠ .cycleStarted) s₁ s₂)
    (call₂ : Session.perform op₂ s₂ = (.ok (.contextHash h₂), s₃)) : h₁ = h₂ :=
  (before.sound (soundSession_new disabled schedule 0)).sameHash asks₁ asks₂ call₁ between call₂

/-- A run without cycle starts. -/
theorem lives_after {ops : List Op} (quiet : ∀ op ∈ ops, op ≠ .cycleStarted) :
    s.Lives (s.after ops) := by
  induction ops generalizing s with
  | nil => exact .refl
  | cons op ops ih =>
      have first : op ≠ .cycleStarted := quiet op List.mem_cons_self
      refine .head (Or.inl ⟨op, fun cycle => absurd cycle first, rfl⟩) (ih fun op' mem => ?_)
      exact quiet op' (List.mem_cons_of_mem _ mem)

/-- Cycle starts that free nothing. -/
theorem lives_cycles {n : Nat} (nothing : ∀ k < n,
    (s.after (List.replicate k .cycleStarted)).world.repo.ending = []) :
    s.Lives (s.after (List.replicate n .cycleStarted)) := by
  induction n with
  | zero => exact .refl
  | succ n ih =>
      rw [List.replicate_succ', Session.after, List.foldl_append]
      refine (ih fun k lt => nothing k (Nat.lt_succ_of_lt lt)).tail (Or.inl ⟨.cycleStarted, ?_, rfl⟩)
      exact fun _ => .of_nil (nothing n (Nat.lt_succ_self n))

end Cycles

section Sample

/-- All commits have the same key. -/
@[reducible] def oneKey : Digest := { sampleDigest with defaultHasher := fun _ => 0 }

local instance releasingDigest : Digest := oneKey

/-- A context with a directory is hashed and committed. -/
def commitedTwoLevels : Session System :=
  (Session.start false [0, 0, 0, 0, 0, 40]).after
    [.new, .add 0 ["a", "b"] [1], .getMerkleRoot 1, .commit 1 "author" "message" 1]

/-- All contexts are dropped, and there is a new one. -/
def dropped : Session System where
  world := ⟨⟨commitedTwoLevels.world.heap.next, fun _ => getLeaf (.blob [])⟩,
    commitedTwoLevels.world.repo⟩
  contexts := [.new]
  trees := []

/-- Seven cycles start, and in the eighth the ids of the commit leave. -/
def released : Session System :=
  (Session.perform .cycleStarted (dropped.after (List.replicate 7 .cycleStarted))).2

/-- A context is made with the ids that were set free. -/
def remade : Session System :=
  released.after [.add 0 ["c", "d"] [2], .add 1 ["e"] [3], .getMerkleRoot 2]

theorem released_dropped : (dropped.after (List.replicate 7 .cycleStarted)).Released := by
  obtain ⟨s, hs⟩ : ∃ s, s = dropped.after (List.replicate 7 .cycleStarted) := ⟨_, rfl⟩
  have all : ∀ i < 5, ∃ id ∈ s.world.repo.ending, id.index = i := by
    rw [hs]
    decide +kernel
  have length : s.world.repo.store.hashes.hashes.length = 5 := by
    rw [hs]
    decide +kernel
  have forgotten : s.world.repo.store.newCycleStarted.contextHashes 0 = none := by
    rw [hs]
    decide +kernel
  have blank : ∀ a, (s.world.heap.node a).entryHash = none := by
    intro a
    rw [hs]
    rfl
  rw [← hs]
  refine ⟨?_, ?_, ?_, ?_, ?_⟩
  · rw [hs]
    decide +kernel
  · intro a id hid
    rw [blank a] at hid
    cases hid
  · intro id value live out
    obtain ⟨id', mem, same⟩ := all id.index (length ▸ live.1)
    exact absurd (HashId.index_injective same ▸ mem) out
  · intro h id found
    exact absurd (forgotten.symm.trans found) (Option.some_ne_none id).symm
  · rw [hs]
    decide +kernel

theorem lives_remade : (Session.start false [0, 0, 0, 0, 0, 40]).Lives remade := by
  have commited : (Session.start false [0, 0, 0, 0, 0, 40]).Lives commitedTwoLevels :=
    lives_after (by decide)
  have drops : commitedTwoLevels.Drops (fun _ => True) dropped := by
    refine ⟨rfl, rfl, fun a kept => absurd trivial kept, fun _ _ => rfl,
      fun a tree p kept => absurd trivial kept, ?_, ?_⟩
    · intro c hc
      exact Or.inl (List.mem_singleton.mp hc)
    · intro t ht
      exact absurd ht List.not_mem_nil
  have seven := lives_cycles (s := dropped) (n := 7) (by decide +kernel)
  have eighth : (dropped.after (List.replicate 7 .cycleStarted)).Lives released :=
    .single (Or.inl ⟨.cycleStarted, fun _ => released_dropped, rfl⟩)
  exact ((commited.tail (Or.inr ⟨_, drops⟩)).trans seven).trans
    (eighth.trans (lives_after (by decide)))

/-- The context is hashed, another one is made and hashed, and the context is committed. -/
theorem hash_predicts_commit_remade :
    let hashed := Session.perform (.hash 2 "author" "message" 1) remade
    let between := hashed.2.after [.add 2 ["c", "f"] [4], .getMerkleRoot 3, .find 2 ["c", "d"]]
    let commited := Session.perform (.commit 2 "author" "message" 1) between
    ∃ h, answeredHash hashed.1 = some h ∧ answeredHash commited.1 = some h := by
  intro hashed between commited
  obtain ⟨h₁, answer₁⟩ : ∃ h, answeredHash hashed.1 = some h :=
    Option.isSome_iff_exists.mp (by decide +kernel)
  obtain ⟨h₂, answer₂⟩ : ∃ h, answeredHash commited.1 = some h :=
    Option.isSome_iff_exists.mp (by decide +kernel)
  have run : Runs (· ≠ .cycleStarted) hashed.2 between := runs_after (by decide)
  have same := hash_predicts_commit lives_remade .hash .commit (answeredHash_eq answer₁) run
    (answeredHash_eq answer₂)
  exact ⟨h₁, answer₁, by rw [same]; exact answer₂⟩

/-- A process whose first context keeps an id while eight cycles start. -/
def stale : Session System :=
  (Session.start false [0, 0, 0, 0, 0, 40]).after
    ([.new, .add 0 ["a"] [1], .getMerkleRoot 1, .add 1 ["b"] [2], .commit 2 "author" "message" 1] ++
      List.replicate 8 .cycleStarted)

/-- The id of a node is handed out while the context of the node is hashed. -/
theorem hash_calls_differ : ¬ ∀ (disabled : Bool) (schedule : List Nat)
    (s s₁ s₂ s₃ : Session System) (i : Nat) (author message : String) (date : Int64)
    (op₁ op₂ : Op) (h₁ h₂ : ContextHash),
    Runs (fun _ => True) (.start disabled schedule) s →
      AsksHash i author message date op₁ → AsksHash i author message date op₂ →
      Session.perform op₁ s = (.ok (.contextHash h₁), s₁) → Runs (· ≠ .cycleStarted) s₁ s₂ →
      Session.perform op₂ s₂ = (.ok (.contextHash h₂), s₃) → h₁ = h₂ := by
  intro agree
  have run : Runs (fun _ => True) (.start false [0, 0, 0, 0, 0, 40]) stale :=
    runs_after fun _ _ => trivial
  obtain ⟨h₁, answer₁⟩ : ∃ h,
      answeredHash (Session.perform (.hash 1 "author" "message" 1) stale).1 = some h :=
    Option.isSome_iff_exists.mp (by decide +kernel)
  obtain ⟨h₂, answer₂⟩ : ∃ h, answeredHash (Session.perform (.hash 1 "author" "message" 1)
      (Session.perform (.hash 1 "author" "message" 1) stale).2).1 = some h :=
    Option.isSome_iff_exists.mp (by decide +kernel)
  have same := agree _ _ _ _ _ _ 1 "author" "message" 1 _ _ h₁ h₂ run .hash .hash
    (answeredHash_eq answer₁) .refl (answeredHash_eq answer₂)
  have differ : answeredHash (Session.perform (.hash 1 "author" "message" 1) stale).1 ≠
      answeredHash (Session.perform (.hash 1 "author" "message" 1)
        (Session.perform (.hash 1 "author" "message" 1) stale).2).1 := by
    decide +kernel
  rw [answer₁, answer₂, same] at differ
  exact differ rfl

end Sample

end NodeFuzzer
