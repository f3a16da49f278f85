import NodeFuzzer.Context.TreeRuns

/-!
# Hashes that are kept are right

A node keeps the id of its hash, and what is stored is found under the id of its hash.
Both are taken for granted: a node with an id is not hashed again.  `Honest` says that
they are right, whoever wrote them: the hash of a node is the one of its entry, and the
hash under which a value is stored is the one of the value.  All calls of a process keep
this (`honest_steady`).
-/

namespace NodeFuzzer

open KeyValueStoreBackend StoreView

variable {S : Type} [KeyValueStoreBackend S] [LawfulStore S] [Digest]

/-- The hash of what an entry holds.  A commit may have any. -/
inductive EntryHashOf (w : World S) : Entry → EntryHash → Prop
  | blob (value : ContextValue) : EntryHashOf w (.blob value) (Digest.blake2b (blobString value))
  | commit (commit : Commit) (h : EntryHash) : EntryHashOf w (.commit commit) h
  | tree {tree : Tree} {h : EntryHash} (treeHash : TreeHashOf w tree h) :
      EntryHashOf w (.tree tree) h

omit [LawfulStore S] in
/-- The hash of what a value encodes.  A commit may have any. -/
inductive ValueHash (repo : S) : Serialized → EntryHash → Prop
  | blob (value : ContextValue) :
      ValueHash repo (.blob value) (Digest.blake2b (blobString value))
  | commit (commit : Commit) (h : EntryHash) : ValueHash repo (.commit commit) h
  | tree {entries : OrdMap KeyFragment (NodeKind × HashId)} {hash : HashId → EntryHash}
      {h : EntryHash}
      (children : ∀ p ∈ entries.entries, getHash p.2.2 repo = .ok (some (hash p.2.2)))
      (treeHash : TreeHash (entries.entries.map fun p => (p.1, p.2.1, hash p.2.2)) h) :
      ValueHash repo (.tree entries) h

/-- The hashes that nodes and store keep are right. -/
structure Honest (w : World S) : Prop where
  node : ∀ {a e h}, a < w.heap.next → (w.heap.node a).entry = some e → HashOf w a h →
    EntryHashOf w e h
  stored : ∀ {id v h}, Live w.repo id → getValue id w.repo = .ok (some v) →
    getHash id w.repo = .ok (some h) → ValueHash w.repo v h

section Serialized

variable {w w' : World S} {tree : Tree} {entries : OrdMap KeyFragment (NodeKind × HashId)}

/-- A directory and its value have the same bindings. -/
theorem bindings_serialized {hash : HashId → EntryHash} (known : ∀ id, Known S id)
    (nodes : serializeTree w.heap tree = some entries)
    (children : ∀ p ∈ entries.entries, getHash p.2.2 w.repo = .ok (some (hash p.2.2))) :
    Hashed w tree.entries ∧
      bindings w tree.entries = entries.entries.map fun p => (p.1, p.2.1, hash p.2.2) := by
  have node : ∀ {name a}, tree.get name = some a → ∃ id,
      entries.get name = some ((w.heap.node a).nodeKind, id) ∧ HashOf w a (hash id) := by
    intro name a ha
    obtain ⟨id, hid, hentry⟩ := serializeTree_node nodes ha
    exact ⟨id, hentry, .known hid (known id) (children _ (OrdMap.mem_entries.mpr hentry))⟩
  refine ⟨?_, ?_⟩
  · intro p hp
    obtain ⟨id, _, hash⟩ := node (OrdMap.mem_entries.mp hp)
    exact ⟨_, hash⟩
  · have same : tree.mapValues (label w) = entries.mapValues fun q => (q.1, hash q.2) := by
      refine OrdMap.ext_get ?_
      intro name
      rw [OrdMap.get_mapValues, OrdMap.get_mapValues]
      cases ha : tree.get name with
      | none => rw [serializeTree_get_none nodes ha]; rfl
      | some a =>
          obtain ⟨id, hentry, hash⟩ := node ha
          rw [hentry, Option.map_some, Option.map_some, label, hash.hashAt_eq]
    exact congrArg OrdMap.entries same

/-- A loaded directory has the hash of its value. -/
theorem ValueHash.treeHashOf {h : EntryHash} (valueHash : ValueHash w.repo (.tree entries) h)
    (known : ∀ id, Known S id) (nodes : serializeTree w.heap tree = some entries) :
    TreeHashOf w tree h := by
  cases valueHash with
  | tree children treeHash =>
      obtain ⟨hashed, same⟩ := bindings_serialized known nodes children
      refine ⟨hashed, ?_⟩
      rw [same]
      exact treeHash

/-- The value of a directory has its hash. -/
theorem TreeHashOf.valueHash {h : EntryHash} {repo : S} (treeHash : TreeHashOf w tree h)
    (known : ∀ id, Known S id) (hashes : ∀ id, getHash id repo = getHash id w.repo)
    (nodes : serializeTree w.heap tree = some entries) : ValueHash repo (.tree entries) h := by
  have each : ∀ id, ∃ k, (∃ p ∈ entries.entries, p.2.2 = id) →
      getHash id w.repo = .ok (some k) := by
    intro id
    by_cases child : ∃ p ∈ entries.entries, p.2.2 = id
    · obtain ⟨p, hp, rfl⟩ := child
      obtain ⟨a, ha, hid⟩ := serializeTree_mem nodes hp
      obtain ⟨k, hash⟩ := treeHash.1 _ (OrdMap.mem_entries.mpr ha)
      refine ⟨k, fun _ => ?_⟩
      cases hash with
      | known cached _ hash =>
          rw [hid] at cached
          cases cached
          exact hash
      | blob unknown => exact absurd (known _) (unknown _ hid)
      | tree unknown => exact absurd (known _) (unknown _ hid)
    · exact ⟨Classical.choice inferInstance, fun h => absurd h child⟩
  choose hash children using each
  obtain ⟨_, same⟩ := bindings_serialized known nodes fun p hp => children p.2.2 ⟨p, hp, rfl⟩
  refine .tree (fun p hp => (hashes p.2.2).trans (children p.2.2 ⟨p, hp, rfl⟩)) ?_
  rw [← same]
  exact treeHash.2

end Serialized

/-! ## What keeps it -/

section Keeping

variable {w w' : World S}

theorem EntryHashOf.later {e : Entry} {h : EntryHash} (later : Later w w')
    (within : EntryWithin w.heap e) (hash : EntryHashOf w e h) : EntryHashOf w' e h := by
  cases hash with
  | blob value => exact .blob value
  | commit commit => exact .commit commit h
  | tree treeHash => exact .tree ((later.treeHashOf (within rfl) h).mpr treeHash)

/-- The hash of a node without an id is the one of its entry. -/
theorem Unknown.entryHashOf (sound : Sound w) {a : Addr} {e : Entry} {h : EntryHash}
    (unknown : Unknown w a) (he : (w.heap.node a).entry = some e) (hash : HashOf w a h) :
    EntryHashOf w e h := by
  cases e with
  | blob value =>
      rw [hash.unique (.blob unknown he)]
      exact .blob value
  | tree tree => exact .tree ((hashOf_tree_iff unknown he).mp hash)
  | commit commit => exact absurd he ((sound.nodes a).notCommit unknown)

/-- Nodes are made without an id, and entries are loaded from where they are stored. -/
theorem Honest.grows (honest : Honest w) (sound : Sound w) (known : ∀ id, Known S id)
    (grows : Grows w w') : Honest w' where
  node := by
    intro a e h ha he hash
    cases grows.origin a ha with
    | old lt same =>
        rw [same] at he
        have later := Later.ofGrows sound grows
        refine (honest.node lt he ((later.hashOf a lt h).mp hash)).later later ?_
        intro tree htree
        rw [htree] at he
        exact (sound.nodes a).within he
    | made _ _ noId => exact (Unknown.of_none noId).entryHashOf grows.sound he hash
    | stored _ _ noEntry =>
        rw [noEntry] at he
        cases he
    | @loaded id v e' hasId _ hasEntry live found encodes =>
        rw [hasEntry] at he
        cases he
        have stored : getHash id w.repo = .ok (some h) := by
          cases hash with
          | known cached _ hash =>
              rw [hasId] at cached
              cases cached
              rw [← grows.repo]
              exact hash
          | blob unknown => exact absurd (known _) (unknown _ hasId)
          | tree unknown => exact absurd (known _) (unknown _ hasId)
        have valueHash := honest.stored live found stored
        rw [← grows.repo] at valueHash
        cases encodes with
        | blob value =>
            cases valueHash
            exact .blob value
        | commit commit => exact .commit commit h
        | tree nodes _ _ => exact .tree (valueHash.treeHashOf known nodes)
  stored := by
    intro id v h live hv hh
    rw [grows.repo] at live hv hh ⊢
    exact honest.stored live hv hh

/-- Hashing changes no hash. -/
theorem Honest.step {R : Addr → Prop} (honest : Honest w) (sound : Sound w)
    (step : Step R w w') : Honest w' where
  node := by
    intro a e h ha he hash
    rw [step.next] at ha
    rw [step.entry] at he
    refine (honest.node ha he ((step.hashOf a h).mp hash)).later (.ofStep sound step) ?_
    intro tree htree
    rw [htree] at he
    exact (sound.nodes a).within he
  stored := by
    intro id v h live hv hh
    have live₀ : Live w.repo id := by
      by_contra dead
      rw [step.keeps.blank id live dead] at hv
      cases hv
    obtain ⟨_, hash, value⟩ := step.keeps.old id live₀
    rw [hash] at hh
    rw [value] at hv
    cases honest.stored live₀ hv hh with
    | blob value => exact .blob value
    | commit commit => exact .commit commit h
    | @tree entries hash _ children treeHash =>
        refine .tree (fun p hp => ?_) treeHash
        have reference : p.2.2 ∈ (Serialized.tree entries).references :=
          List.mem_map.mpr ⟨p, hp, rfl⟩
        have liveChild := (sound.closed.references live₀ hv reference).1
        exact (step.keeps.old _ liveChild).2.1.trans (children p hp)

omit [LawfulStore S] in
theorem ValueHash.hashes {repo repo' : S} {v : Serialized} {h : EntryHash}
    (valueHash : ValueHash repo v h) (hashes : ∀ id, getHash id repo' = getHash id repo) :
    ValueHash repo' v h := by
  cases valueHash with
  | blob value => exact .blob value
  | commit commit => exact .commit commit h
  | tree children treeHash => exact .tree (fun p hp => (hashes _).trans (children p hp)) treeHash

/-- A change that leaves the nodes and all hashes of the store. -/
theorem hashOf_congr (nodes : ∀ a, (w'.heap.node a).entry = (w.heap.node a).entry ∧
      (w'.heap.node a).entryHash = (w.heap.node a).entryHash ∧
      (w'.heap.node a).nodeKind = (w.heap.node a).nodeKind)
    (hashes : ∀ id, getHash id w'.repo = getHash id w.repo) (a : Addr) (h : EntryHash) :
    HashOf w' a h ↔ HashOf w a h := by
  have unknown : ∀ b, Unknown w' b ↔ Unknown w b := by
    intro b
    rw [Unknown, Unknown, (nodes b).2.1]
  constructor
  · refine HashOf.transfer (fun b => (nodes b).2.2.symm) (fun b _ => (nodes b).1.symm) ?_
      fun b _ hb => Or.inl ((unknown b).mp hb)
    intro b id k hid known hk
    rw [(nodes b).2.1] at hid
    rw [hashes] at hk
    exact .known hid known hk
  · refine HashOf.transfer (fun b => (nodes b).2.2) (fun b _ => (nodes b).1) ?_
      fun b _ hb => Or.inl ((unknown b).mpr hb)
    intro b id k hid known hk
    exact .known ((nodes b).2.1.trans hid) known ((hashes id).trans hk)

theorem EntryHashOf.congr {e : Entry} {h : EntryHash}
    (nodes : ∀ a, (w'.heap.node a).entry = (w.heap.node a).entry ∧
      (w'.heap.node a).entryHash = (w.heap.node a).entryHash ∧
      (w'.heap.node a).nodeKind = (w.heap.node a).nodeKind)
    (hashes : ∀ id, getHash id w'.repo = getHash id w.repo) (hash : EntryHashOf w e h) :
    EntryHashOf w' e h := by
  have same : ∀ a, HashOf w' a = HashOf w a :=
    fun a => funext fun k => propext (hashOf_congr nodes hashes a k)
  cases hash with
  | blob value => exact .blob value
  | commit commit => exact .commit commit h
  | @tree tree _ treeHash =>
      have bindings : bindings w' tree.entries = bindings w tree.entries := by
        apply List.map_congr_left
        intro p _
        rw [label, label, hashAt, hashAt, same, (nodes p.2).2.2]
      refine .tree ⟨?_, ?_⟩
      · intro p hp
        rw [same]
        exact treeHash.1 p hp
      · rw [bindings]
        exact treeHash.2

end Keeping

section Committing

variable {w w' w₁ : World System}

/-- What a commit writes has the hash it is written under. -/
theorem Commits.honest {root : Tree} {commit : Commit} {id : HashId}
    {batch : List (HashId × Serialized)} {h : ContextHash} (honest : Honest w)
    (commits : Commits w w₁ w' root commit id batch h) : Honest w' := by
  obtain ⟨_, collection, rootHash, heap, wrote, hashes⟩ := commits
  have same : ∀ j, getHash j w'.repo = getHash j w.repo := by
    intro j
    rw [hashes, collection.marks.repo]
  have nodes : ∀ a, (w'.heap.node a).entry = (w.heap.node a).entry ∧
      (w'.heap.node a).entryHash = (w.heap.node a).entryHash ∧
      (w'.heap.node a).nodeKind = (w.heap.node a).nodeKind := by
    intro a
    rw [heap]
    exact ⟨collection.marks.entry a, collection.marks.entryHash a, collection.marks.nodeKind a⟩
  refine ⟨?_, ?_⟩
  · intro a e k ha he hash
    rw [heap, collection.marks.next] at ha
    rw [(nodes a).1] at he
    exact (honest.node ha he ((hashOf_congr nodes same a k).mp hash)).congr nodes same
  · intro j v k live hv hk
    rw [same] at hk
    rcases collection.value wrote hv with old | mem
    · have live₀ : Live w.repo j := by
        rw [← collection.marks.repo]
        exact (wrote.live j).mp live
      exact (honest.stored live₀ old hk).hashes same
    · rcases collection.items _ mem with hcommit | ⟨hroot, serializes⟩ |
        ⟨b, entry, hb, _, _, hid, hentry, serializes⟩
      · cases hcommit
        exact .commit commit k
      · have hroot : j = commit.rootHash := hroot
        obtain ⟨r, treeHash, hr⟩ := rootHash
        rw [hroot, hr] at hk
        cases hk
        cases serializes with
        | tree nodes => exact treeHash.valueHash (fun _ => trivial) same nodes
      · have hash := honest.node hb hentry (.known hid trivial hk)
        cases serializes with
        | blob value =>
            cases hash
            exact .blob value
        | tree nodes =>
            cases hash with
            | tree treeHash => exact treeHash.valueHash (fun _ => trivial) same nodes

/-- A cycle start changes no hash. -/
theorem Honest.cycle (honest : Honest w) :
    Honest { w with repo := w.repo.withStore w.repo.store.newCycleStarted } := by
  obtain ⟨w', hw'⟩ : ∃ w' : World System,
    w' = { w with repo := w.repo.withStore w.repo.store.newCycleStarted } := ⟨_, rfl⟩
  have heap : w'.heap = w.heap := by rw [hw']
  have nodes : ∀ a, (w'.heap.node a).entry = (w.heap.node a).entry ∧
      (w'.heap.node a).entryHash = (w.heap.node a).entryHash ∧
      (w'.heap.node a).nodeKind = (w.heap.node a).nodeKind := by
    intro a
    rw [heap]
    exact ⟨rfl, rfl, rfl⟩
  have hashes : ∀ id, getHash id w'.repo = getHash id w.repo := by
    intro id
    rw [hw']
    exact System.getHash_newCycle w.repo id
  have values : ∀ id, getValue id w'.repo = getValue id w.repo := by
    intro id
    rw [hw']
    exact System.getValue_newCycle w.repo id
  rw [← hw']
  refine ⟨?_, ?_⟩
  · intro a e h ha he hash
    rw [heap] at ha he
    exact (honest.node ha he ((hashOf_congr nodes hashes a h).mp hash)).congr nodes hashes
  · intro id v h live hv hh
    rw [values] at hv
    rw [hashes] at hh
    rw [hw'] at live
    exact (honest.stored (System.live_of_newCycle live) hv hh).hashes hashes

/-- All calls keep right hashes, whatever is put in place. -/
theorem honest_steady : SteadyStore (fun _ => True) Honest where
  nonempty := fun _ => trivial
  alloc := by
    intro w node sound honest put
    have new := put.newNode
    exact honest.grows sound (fun _ => trivial)
      (.alloc sound new.commited new.noId new.hasEntry new.within new.plain)
  load := fun sound honest live found =>
    honest.grows sound (fun _ => trivial) (.load sound live found)
  setEntry := fun sound honest ha noEntry hid _ found encodes =>
    honest.grows sound (fun _ => trivial) (.setEntry sound ha noEntry hid found encodes)
  step := fun sound honest step => honest.step sound step
  marks := by
    intro w w' sound honest marks
    have same : ∀ a, (w'.heap.node a).entry = (w.heap.node a).entry ∧
        (w'.heap.node a).entryHash = (w.heap.node a).entryHash ∧
        (w'.heap.node a).nodeKind = (w.heap.node a).nodeKind :=
      fun a => ⟨marks.entry a, marks.entryHash a, marks.nodeKind a⟩
    have hashes : ∀ j, getHash j w'.repo = getHash j w.repo := fun j => by rw [marks.repo]
    refine ⟨?_, ?_⟩
    · intro a e h ha he hash
      rw [marks.next] at ha
      rw [marks.entry] at he
      exact (honest.node ha he ((hashOf_congr same hashes a h).mp hash)).congr same hashes
    · intro id v h live hv hh
      rw [marks.repo] at live hv hh ⊢
      exact honest.stored live hv hh
  commits := fun _ honest commits => commits.honest honest
  cycle := Honest.cycle

theorem honest_start (disabled : Bool) (schedule : List Nat) :
    SteadySession Honest (.start disabled schedule) where
  sound := soundSession_new disabled schedule 0
  holds := ⟨fun ha => absurd ha (Nat.not_lt_zero _), fun live => absurd live.1 (Nat.not_lt_zero _)⟩

end Committing

end NodeFuzzer
