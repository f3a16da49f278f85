import NodeFuzzer.Context.TreeRuns

/-!
# Empty directories

A change that empties a directory removes it from the one above
(`compute_new_root_with_change`), so that no directory below the root is empty.  The
node that is put in place is not looked at: `copy` and `add_tree` can put an empty one.

`Full` is what holds of nodes and store as long as they do not.  It is about all nodes
that were ever made, so that it says the same of every tree.
-/

namespace NodeFuzzer

open KeyValueStoreBackend StoreView

variable {S : Type} [KeyValueStoreBackend S] [LawfulStore S]

/-! ## Nodes and store -/

/-- An empty directory is stored at the id. -/
def Hollow (repo : S) (id : HashId) : Prop :=
  ∃ entries, getValue id repo = .ok (some (.tree entries)) ∧ entries.isEmpty = true

/-- No node holds an empty directory, in memory or in the store. -/
structure Full (w : World S) : Prop where
  nodes : ∀ {a tree}, (w.heap.node a).entry = some (.tree tree) → tree.isEmpty = false
  ids : ∀ {a id}, (w.heap.node a).entryHash = some id → ¬ Hollow w.repo id
  /-- What a stored directory refers to is the id of a node. -/
  held : ∀ {id entries p}, Live w.repo id → getValue id w.repo = .ok (some (.tree entries)) →
    p ∈ entries.entries → ∃ a, a < w.heap.next ∧ (w.heap.node a).entryHash = some p.2.2

namespace Full

variable {w w' : World S}

/-- A change of nodes that keep their ids. -/
theorem ofHeap {heap : Heap} (full : Full w) (next : w.heap.next ≤ heap.next)
    (nodes : ∀ {a tree}, (heap.node a).entry = some (.tree tree) → tree.isEmpty = false)
    (ids : ∀ {a id}, (heap.node a).entryHash = some id → ¬ Hollow w.repo id)
    (kept : ∀ {a}, a < w.heap.next → (heap.node a).entryHash = (w.heap.node a).entryHash) :
    Full { w with heap := heap } where
  nodes := nodes
  ids := ids
  held := by
    intro id entries p live hvalue hp
    obtain ⟨a, ha, hid⟩ := full.held live hvalue hp
    exact ⟨a, Nat.lt_of_lt_of_le ha next, (kept ha).trans hid⟩

/-- A node is made for a value or for a directory that is not empty. -/
theorem alloc {node : Node} (full : Full w) (noId : node.entryHash = none)
    (nonempty : ∀ {tree}, node.entry = some (.tree tree) → tree.isEmpty = false) :
    Full { w with heap := w.heap.alloc node } := by
  refine full.ofHeap (Nat.le_succ _) ?_ ?_ fun ha => by rw [Heap.alloc_node_of_lt ha]
  · intro a tree hentry
    by_cases ha : a = w.heap.next
    · rw [ha, Heap.alloc_node_self] at hentry
      exact nonempty hentry
    · rw [Heap.alloc_node_of_ne ha] at hentry
      exact full.nodes hentry
  · intro a id hid
    by_cases ha : a = w.heap.next
    · rw [ha, Heap.alloc_node_self, noId] at hid
      cases hid
    · rw [Heap.alloc_node_of_ne ha] at hid
      exact full.ids hid

/-- A directory is loaded. -/
theorem load {id : HashId} {entries : OrdMap KeyFragment (NodeKind × HashId)} (full : Full w)
    (live : Live w.repo id) (found : getValue id w.repo = .ok (some (.tree entries))) :
    Full { w with heap := loadHeap w.heap entries } := by
  refine full.ofHeap (Nat.le_add_right _ _) ?_ ?_ fun ha => by
    rw [loadHeap, Heap.allocAll_node_of_lt ha]
  · intro a tree hentry
    rcases loadHeap_cases w.heap entries a with same | ⟨p, _, new⟩
    · rw [same] at hentry
      exact full.nodes hentry
    · rw [new] at hentry
      cases hentry
  · intro a j hj
    rcases loadHeap_cases w.heap entries a with same | ⟨p, hp, new⟩
    · rw [same] at hj
      exact full.ids hj
    · rw [new] at hj
      cases hj
      obtain ⟨b, _, hb⟩ := full.held live found hp
      exact full.ids hb

/-- The entry of a node is loaded. -/
theorem setEntry {a : Addr} {id : HashId} {entry : Entry} {value : Serialized} (full : Full w)
    (hid : (w.heap.node a).entryHash = some id)
    (found : getValue id w.repo = .ok (some value)) (encodes : EncodesEntry w.heap entry value) :
    Full { w with heap := w.heap.set a { w.heap.node a with entry := some entry } } := by
  have ids : ∀ b, ((w.heap.set a { w.heap.node a with entry := some entry }).node b).entryHash =
      (w.heap.node b).entryHash := by
    intro b
    by_cases hb : b = a
    · rw [hb, Heap.set_node_self]
    · rw [Heap.set_node_of_ne hb]
  refine full.ofHeap (le_refl _) ?_ ?_ fun _ => ids _
  · intro b tree hentry
    by_cases hb : b = a
    · rw [hb, Heap.set_node_self] at hentry
      cases hentry
      cases encodes with
      | @tree _ entries nodes _ _ =>
          rw [← serializeTree_isEmpty nodes]
          by_contra hempty
          exact full.ids hid ⟨entries, found, by simpa using hempty⟩
    · rw [Heap.set_node_of_ne hb] at hentry
      exact full.nodes hentry
  · intro b j hj
    rw [ids b] at hj
    exact full.ids hj

theorem marks (full : Full w) (marks : Marks w w') : Full w' := by
  refine ⟨?_, ?_, ?_⟩
  · intro a tree hentry
    rw [marks.entry] at hentry
    exact full.nodes hentry
  · intro a id hid
    rw [marks.entryHash] at hid
    rw [marks.repo]
    exact full.ids hid
  · intro id entries p live hvalue hp
    rw [marks.repo] at live hvalue
    obtain ⟨a, ha, hid⟩ := full.held live hvalue hp
    refine ⟨a, ?_, (marks.entryHash a).trans hid⟩
    rw [marks.next]
    exact ha

/-- Hashing gives ids to nodes; what is stored at them comes later. -/
theorem step [Digest] {R : Addr → Prop} (full : Full w) (sound : Sound w)
    (known : ∀ id, Known S id) (step : Step R w w') : Full w' := by
  refine ⟨?_, ?_, ?_⟩
  · intro a tree hentry
    rw [step.entry] at hentry
    exact full.nodes hentry
  · intro a id hid hollow
    obtain ⟨entries, hvalue, hempty⟩ := hollow
    rcases step.fresh hid with old | ⟨_, blank⟩
    · rw [(step.keeps.old id ((sound.nodes a).live old (known id))).2.2] at hvalue
      exact full.ids old ⟨entries, hvalue, hempty⟩
    · rw [hvalue] at blank
      cases blank
  · intro id entries p live hvalue hp
    have old : Live w.repo id := by
      by_contra new
      rw [step.keeps.blank id live new] at hvalue
      cases hvalue
    rw [(step.keeps.old id old).2.2] at hvalue
    obtain ⟨a, ha, hid⟩ := full.held old hvalue hp
    refine ⟨a, ?_, step.cached a _ hid⟩
    rw [step.next]
    exact ha

end Full

/-! ## What this says of a tree -/

/-- No node below the root of a tree holds an empty directory. -/
def NoneEmpty (w : World S) (root : Tree) : Prop :=
  ∀ key, key ≠ [] → treeAnswer w root key ≠ .directory true

omit [LawfulStore S] in
theorem answerIn_stored_cons {w : World S} {id : HashId} {name : KeyFragment} {key : ContextKey}
    {answer : Answer} (h : answerIn w (storedContent w.repo id) (name :: key) = answer) :
    answer = .absent ∨ answer = .broken ∨ ∃ entries p,
      getValue id w.repo = .ok (some (.tree entries)) ∧ entries.get name = some p ∧
        answerIn w (storedContent w.repo p.2) key = answer := by
  unfold storedContent at h
  split at h
  · exact Or.inl h.symm
  next entries found =>
    rw [answerIn] at h
    cases hp : entries.get name with
    | none =>
        rw [hp] at h
        exact Or.inl h.symm
    | some p =>
        rw [hp] at h
        exact Or.inr (Or.inr ⟨entries, p, found, hp, h⟩)
  · rw [answerIn_broken] at h
    exact Or.inr (Or.inl h.symm)

/-- Nothing stored at an id that is not hollow leads to an empty directory. -/
theorem Full.stored {w : World S} (full : Full w) (sound : Sound w) {id : HashId}
    (live : Live w.repo id) (notHollow : ¬ Hollow w.repo id) (key : ContextKey) :
    answerIn w (storedContent w.repo id) key ≠ .directory true := by
  induction key generalizing id with
  | nil =>
      intro h
      unfold storedContent at h
      split at h
      · cases h
      next entries found =>
        rw [answerIn_directory_nil] at h
        exact notHollow ⟨entries, found, Answer.directory.inj h⟩
      · cases h
  | cons name key ih =>
      intro h
      rcases answerIn_stored_cons h with h | h | ⟨entries, p, found, hp, below⟩
      · cases h
      · cases h
      · have mem := OrdMap.mem_entries.mpr hp
        have reference : p.2 ∈ (Serialized.tree entries).references :=
          List.mem_map.mpr ⟨(name, p), mem, rfl⟩
        obtain ⟨a, _, ha⟩ := full.held live found mem
        exact ih (sound.closed.references live found reference).1 (full.ids ha) below

theorem Full.node {w : World S} (full : Full w) (sound : Sound w) {a : Addr}
    (ha : a < w.heap.next) (key : ContextKey) :
    answerIn w (content w (.node a)) key ≠ .directory true := by
  induction key generalizing a with
  | nil =>
      intro h
      cases hentry : (w.heap.node a).entry with
      | some entry =>
          rw [content_entry w hentry] at h
          cases entry with
          | tree tree =>
              have nonempty := full.nodes hentry
              have empty : tree.isEmpty = true := Answer.directory.inj h
              rw [empty] at nonempty
              cases nonempty
          | blob value => cases h
          | commit commit => cases h
      | none =>
          obtain ⟨_, id, hid, known⟩ := (sound.nodes a).stored ha hentry
          rw [content_unloaded w hentry hid] at h
          exact full.stored sound ((sound.nodes a).live hid known) (full.ids hid) [] h
  | cons name key ih =>
      intro h
      cases hentry : (w.heap.node a).entry with
      | some entry =>
          rw [content_entry w hentry] at h
          cases entry with
          | tree tree =>
              change treeAnswer w tree (name :: key) = _ at h
              cases hb : tree.get name with
              | none =>
                  rw [treeAnswer_none w hb] at h
                  cases h
              | some b =>
                  rw [treeAnswer_some w hb] at h
                  exact ih (((sound.nodes a).within hentry).get hb) h
          | blob value => cases h
          | commit commit => cases h
      | none =>
          obtain ⟨_, id, hid, known⟩ := (sound.nodes a).stored ha hentry
          rw [content_unloaded w hentry hid] at h
          exact full.stored sound ((sound.nodes a).live hid known) (full.ids hid) _ h

theorem Full.noneEmpty {w : World S} (full : Full w) (sound : Sound w) {root : Tree}
    (within : Within w.heap root) : NoneEmpty w root := by
  intro key below
  cases key with
  | nil => exact absurd rfl below
  | cons name key =>
      cases ha : root.get name with
      | none =>
          rw [treeAnswer_none w ha]
          exact nofun
      | some a =>
          rw [treeAnswer_some w ha]
          exact full.node sound (within.get ha) key

/-! ## Committing -/

section Committing

variable [Digest] {w w' w₁ : World System}

/-- Writing a commit: only its root may be empty, and no node has the id of the root. -/
theorem Commits.full {root : Tree} {commit : Commit} {id : HashId}
    {batch : List (HashId × Serialized)} {h : ContextHash} (full : Full w) (sound : Sound w)
    (commits : Commits w w₁ w' root commit id batch h) : Full w' := by
  obtain ⟨within, collection, _, heap, wrote, _⟩ := commits
  have ids : ∀ a, (w'.heap.node a).entryHash = (w.heap.node a).entryHash := by
    intro a
    rw [heap, collection.marks.entryHash]
  have next : w'.heap.next = w.heap.next := by rw [heap, collection.marks.next]
  refine ⟨?_, ?_, ?_⟩
  · intro a tree hentry
    rw [heap, collection.marks.entry] at hentry
    exact full.nodes hentry
  · intro a j hj hollow
    rw [ids] at hj
    obtain ⟨entries, hvalue, hempty⟩ := hollow
    rcases collection.value wrote hvalue with old | mem
    · exact full.ids hj ⟨entries, old, hempty⟩
    · rcases collection.items _ mem with hcommit | ⟨hroot, _⟩ |
        ⟨b, entry, _, _, _, _, hentry, serializes⟩
      · cases hcommit
      · obtain ⟨r, new⟩ := collection.newRoot
        have hroot : j = commit.rootHash := hroot
        exact new.unused trivial a (hroot ▸ hj)
      · cases serializes with
        | tree nodes =>
            have nonempty := full.nodes hentry
            rw [← serializeTree_isEmpty nodes, hempty] at nonempty
            cases nonempty
  · intro j entries p live hvalue hp
    rcases collection.value wrote hvalue with old | mem
    · have live' : Live w.repo j := by
        rw [← collection.marks.repo]
        exact (wrote.live j).mp live
      obtain ⟨a, ha, hid⟩ := full.held live' old hp
      exact ⟨a, next ▸ ha, (ids a).trans hid⟩
    · obtain ⟨a, ha, hid, _⟩ := collection.node sound within mem hp
      exact ⟨a, next ▸ ha, (ids a).trans hid⟩

/-- A cycle start stores nothing. -/
theorem Full.cycle (full : Full w) :
    Full { w with repo := w.repo.withStore w.repo.store.newCycleStarted } where
  nodes := full.nodes
  ids := by
    intro a id hid hollow
    obtain ⟨entries, hv, empty⟩ := hollow
    rw [System.getValue_newCycle] at hv
    exact full.ids hid ⟨entries, hv, empty⟩
  held := by
    intro id entries p live hv mem
    rw [System.getValue_newCycle] at hv
    exact full.held (System.live_of_newCycle live) hv mem

/-- As long as no empty directory is put below another, there is none. -/
theorem full_steady : SteadyStore (fun tree => tree.isEmpty = false) Full where
  nonempty := fun h => h
  alloc := by
    intro w node _ full put
    cases put with
    | leaf value => exact full.alloc rfl nofun
    | directory within nonempty =>
        refine full.alloc rfl ?_
        intro tree h
        cases h
        exact nonempty
  load := fun _ full live found => full.load live found
  setEntry := fun _ full _ _ hid _ found encodes => full.setEntry hid found encodes
  step := fun sound full step => full.step sound (fun _ => trivial) step
  marks := fun _ full marks => full.marks marks
  commits := fun sound full commits => commits.full full sound
  cycle := Full.cycle

end Committing

/-! ## Whole runs -/

section Runs

variable [Digest] {s s' : Session System}

/-- What holds of a process whose calls put no empty directory in place. -/
structure FullSession (s : Session System) : Prop where
  sound : SoundSession s
  full : Full s.world

theorem TreeRuns.full (run : TreeRuns (fun s op => op.Fills s) s s') (session : FullSession s) :
    FullSession s' := by
  have steady := full_steady.run (fun _ _ fills => Or.inl fills) run ⟨session.sound, session.full⟩
  exact ⟨steady.sound, steady.holds⟩

theorem fullSession_start (disabled : Bool) (schedule : List Nat) :
    FullSession (.start disabled schedule) where
  sound := soundSession_new disabled schedule 0
  full := ⟨nofun, nofun, fun live => absurd live.1 (Nat.not_lt_zero _)⟩

/-- As long as no empty directory is copied or added, no tree that a process has, and no
tree of a commit it made, has an empty directory below its root. -/
theorem noneEmpty_run {disabled : Bool} {schedule : List Nat}
    (run : TreeRuns (fun s op => op.Fills s) (.start disabled schedule) s) {t : WorkingTree}
    (reached : t ∈ s.trees ∨ ∃ c ∈ s.contexts, c.tree = t) : NoneEmpty s.world t.root := by
  have session := run.full (fullSession_start disabled schedule)
  have within : Within s.world.heap t.root := by
    rcases reached with mem | ⟨c, hc, rfl⟩
    · exact session.sound.trees t mem
    · exact (session.sound.contexts c hc).within
  exact session.full.noneEmpty session.sound.sound within

end Runs

section Sample

local instance emptyDigest : Digest := sampleDigest

/-- A directory is copied, and the copy is committed. -/
def copied : Session System :=
  (Session.start false []).afterTree
    [.op .new, .op (.add 0 ["a", "b"] [1]), .op (.copy 1 ["a"] ["c"]), .op (.commit 2 "a" "m" 0)]

theorem noneEmpty_run_copied : ∃ c, copied.contexts[2]? = some c ∧
    treeAnswer copied.world c.tree.root ["c", "b"] = .value [1] ∧
      NoneEmpty copied.world c.tree.root := by
  have run : TreeRuns (fun s op => op.Fills s) (.start false []) copied := by
    refine treeRuns_cons (.op .new) trivial ?_
    refine treeRuns_cons (.op (.add 0 ["a", "b"] [1])) trivial ?_
    refine treeRuns_cons (.op (.copy 1 ["a"] ["c"])) ?_ ?_
    · show _ → ∀ c ∈ _, WorkingTree.Copies _ _ _
      decide +kernel
    · exact treeRuns_cons (.op (.commit 2 "a" "m" 0)) trivial .refl
  have here : (copied.contexts[2]?.map fun c => treeAnswer copied.world c.tree.root ["c", "b"]) =
      some (.value [1]) := by decide +kernel
  obtain ⟨c, hc, answer⟩ := Option.map_eq_some_iff.mp here
  exact ⟨c, hc, answer, noneEmpty_run run (Or.inr ⟨c, List.mem_of_getElem? hc, rfl⟩)⟩

/-- `copy` from a path that is not there puts an empty directory in place, and so does
`add_tree` of an empty tree. -/
theorem copy_puts_empty :
    let s₁ := (Session.start false []).afterTree [.op .new, .op (.copy 0 ["a"] ["b"])]
    let s₂ := (Session.start false []).afterTree [.op .new, .tree 0, .op (.addTree 0 ["b"] 0)]
    (∃ c ∈ s₁.contexts, ¬ NoneEmpty s₁.world c.tree.root) ∧
      ∃ c ∈ s₂.contexts, ¬ NoneEmpty s₂.world c.tree.root := by
  intro s₁ s₂
  have empty : ∀ {s : Session System},
      (s.contexts[1]?.map fun c => treeAnswer s.world c.tree.root ["b"]) =
        some (.directory true) → ∃ c ∈ s.contexts, ¬ NoneEmpty s.world c.tree.root := by
    intro s here
    obtain ⟨c, hc, answer⟩ := Option.map_eq_some_iff.mp here
    exact ⟨c, List.mem_of_getElem? hc, fun none => none ["b"] (List.cons_ne_nil _ _) answer⟩
  refine ⟨empty ?_, empty ?_⟩
  · decide +kernel
  · decide +kernel

end Sample

end NodeFuzzer
