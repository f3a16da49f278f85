import NodeFuzzer.Context.Lookup
import NodeFuzzer.Context.Quiet

/-!
# Invariants of nodes and store

Calls on working trees change the nodes in three ways: a node is made, the nodes of a
stored directory are made, and a loaded entry is written to its node.  A property that these
keep is kept by every call (`Steady`).  One that hashing and committing keep as well
holds in every state of a process (`SteadyStore`).

The nodes that are made are values and directories.  Which directories are put below
others depends on the caller, so that a property may ask for it (`P`).
-/

namespace NodeFuzzer

open KeyValueStoreBackend StoreView

variable {S : Type} [KeyValueStoreBackend S] [LawfulStore S]

/-- A node that is put in place: a value, or a directory of `P`. -/
inductive PutNode (P : Tree → Prop) (heap : Heap) : Node → Prop
  | leaf (value : ContextValue) : PutNode P heap (getLeaf (.blob value))
  | directory {tree : Tree} (within : Within heap tree) (put : P tree) :
      PutNode P heap (getNonLeaf (.tree tree))

section PutNode

variable {P : Tree → Prop} {heap heap' : Heap} {node : Node}

theorem PutNode.mono (h : PutNode P heap node) (next : heap.next ≤ heap'.next) :
    PutNode P heap' node := by
  cases h with
  | leaf value => exact .leaf value
  | directory within put => exact .directory (within.mono next) put

theorem PutNode.newNode (h : PutNode P heap node) : NewNode heap node := by
  cases h with
  | leaf value => exact .leaf heap value
  | directory within put => exact .nonLeaf within

theorem PutNode.toNode {tree : WorkingTree} (within : Within heap tree.root)
    (put : ∀ root, tree = .tree root → P root) : PutNode P heap tree.toNode := by
  cases tree with
  | tree root => exact .directory within (put root rfl)
  | value value => exact .leaf value

end PutNode

/-- What calls on working trees keep, when they put only directories of `P` below others. -/
structure Steady (P : Tree → Prop) (I : World S → Prop) : Prop where
  nonempty : ∀ {tree}, tree.isEmpty = false → P tree
  alloc : ∀ {w node}, Sound w → I w → PutNode P w.heap node →
    I { w with heap := w.heap.alloc node }
  load : ∀ {w id entries}, Sound w → I w → Live w.repo id →
    getValue id w.repo = .ok (some (.tree entries)) →
    I { w with heap := loadHeap w.heap entries }
  setEntry : ∀ {w a id entry value}, Sound w → I w → a < w.heap.next →
    (w.heap.node a).entry = none → (w.heap.node a).entryHash = some id → Live w.repo id →
    getValue id w.repo = .ok (some value) → EncodesEntry w.heap entry value →
    I { w with heap := w.heap.set a { w.heap.node a with entry := some entry } }

/-- The nodes of a directory that is loaded are new, all others are as before. -/
theorem loadHeap_cases (heap : Heap) (entries : OrdMap KeyFragment (NodeKind × HashId)) (a : Addr) :
    (loadHeap heap entries).node a = heap.node a ∨
      ∃ p ∈ entries.entries, (loadHeap heap entries).node a = storedNode p.2 := by
  by_cases hlt : a < heap.next
  · exact Or.inl (Heap.allocAll_node_of_lt hlt _)
  · obtain ⟨i, rfl⟩ := Nat.exists_eq_add_of_le (Nat.not_lt.mp hlt)
    by_cases hi : i < entries.entries.length
    · exact Or.inr ⟨_, List.getElem_mem hi, loadHeap_node (List.getElem?_eq_getElem hi)⟩
    · left
      show (if heap.next + i < heap.next then _ else _) = _
      rw [if_neg hlt, Nat.add_sub_cancel_left, List.getElem?_eq_none (by simpa using hi)]
      rfl

namespace Steady

variable {P : Tree → Prop} {I : World S → Prop} {w : World S}

/-! ## Reading -/

theorem findEntry {id : HashId} (steady : Steady P I) (sound : Sound w) (holds : I w)
    (live : Live w.repo id) : Exec.wp (TezedgeIndex.findEntry id) (fun _ => I) I w := by
  rw [TezedgeIndex.findEntry, Exec.wp_bind]
  refine Exec.wp_query _ ?_ fun _ _ => holds
  intro bytes found
  cases bytes with
  | none => exact holds
  | some value =>
      rw [Exec.wp_bind]
      cases value with
      | tree entries => exact steady.load sound holds live found
      | blob value => exact holds
      | commit commit => exact holds
      | invalid => exact holds

theorem nodeEntry {a : Addr} (steady : Steady P I) (sound : Sound w) (holds : I w)
    (ha : a < w.heap.next) : Exec.wp (TezedgeIndex.nodeEntry a) (fun _ => I) I w := by
  rw [TezedgeIndex.nodeEntry, Exec.wp_bind, Call.readNode, Exec.wp_gets]
  cases hentry : (w.heap.node a).entry with
  | some entry => exact holds
  | none =>
      obtain ⟨_, id, hid, known⟩ := (sound.nodes a).stored ha hentry
      have live := (sound.nodes a).live hid known
      rw [hid, Exec.wp_bind]
      show Exec.wp (TezedgeIndex.getEntry id >>= _) _ _ w
      rw [Exec.wp_bind]
      have loads : Exec.wp (TezedgeIndex.getEntry id) (fun _ => I) I w := by
        rw [TezedgeIndex.getEntry, Exec.wp_bind, Exec.wp_mapErr]
        refine Exec.wp_mono (steady.findEntry sound holds live) ?_ fun _ h => h
        intro e w' holds'
        exact Exec.wp_orFail _ _ (fun _ _ => holds') fun _ => holds'
      refine Exec.wp_mono (Exec.wp_and (getEntry_spec sound live) loads) ?_ fun _ h => h.2
      intro entry w' h
      obtain ⟨⟨grows, ⟨value, found, encodes⟩, same⟩, holds'⟩ := h
      rw [Exec.wp_bind, Call.updateNode, Exec.wp_modify, Exec.wp_pure]
      rw [← grows.repo] at found live
      rw [← same a ha] at hentry hid
      exact steady.setEntry grows.sound holds' (Nat.lt_of_lt_of_le ha grows.next) hentry hid live
        found encodes

theorem findRawTree {root : Tree} (steady : Steady P I) (sound : Sound w) (holds : I w)
    (within : Within w.heap root) (key : ContextKey) :
    Exec.wp (TezedgeIndex.findRawTree root key) (fun _ => I) I w := by
  induction key generalizing w root with
  | nil => exact holds
  | cons first rest ih =>
      rw [TezedgeIndex.findRawTree]
      cases hget : root.get first with
      | none => exact holds
      | some a =>
          have lt := within.get hget
          show Exec.wp (TezedgeIndex.nodeEntry a >>= _) _ _ w
          rw [Exec.wp_bind]
          refine Exec.wp_mono (Exec.wp_and (nodeEntry_spec sound lt)
            (steady.nodeEntry sound holds lt)) ?_ fun _ h => h.2
          intro entry w' h
          obtain ⟨⟨grows, hentry⟩, holds'⟩ := h
          cases entry with
          | tree tree => exact ih grows.sound holds' ((grows.sound.nodes a).within hentry)
          | blob value => exact holds'
          | commit commit => exact holds'

/-! ## Changing -/

/-- A directory that is not the root is only put in its place when it is not empty. -/
theorem computeNewRoot {root : Tree} (steady : Steady P I) (path : List KeyFragment)
    {node : Option Node} (sound : Sound w) (holds : I w) (within : Within w.heap root)
    (put : path ≠ [] → ∀ n, node = some n → PutNode P w.heap n) :
    Exec.wp (WorkingTree.computeNewRoot root path node) (fun _ => I) I w := by
  induction path generalizing w node with
  | nil =>
      cases node with
      | none => exact holds
      | some node => exact Exec.wp_orFail _ _ (fun _ _ => holds) fun _ => holds
  | cons last path ih =>
      have next : ∀ {tree : Tree} {w' : World S}, Grows w w' → I w' → Within w'.heap tree →
          Exec.wp (if tree.isEmpty then WorkingTree.computeNewRoot root path none
              else WorkingTree.computeNewRoot root path (some (getNonLeaf (.tree tree))))
            (fun _ => I) I w' := by
        intro tree w' grows holds' within'
        have root' := within.mono grows.next
        split
        next => exact ih grows.sound holds' root' (by simp)
        next hempty =>
          refine ih grows.sound holds' root' ?_
          intro _ n hn
          cases hn
          exact .directory within' (steady.nonempty (by simpa using hempty))
      rw [WorkingTree.computeNewRoot, Exec.wp_bind]
      refine Exec.wp_mono (Exec.wp_and (findRawTree_spec sound within _)
        (steady.findRawTree sound holds within _)) ?_ fun _ h => h.2
      intro tree w' h
      obtain ⟨⟨grows, within'⟩, holds'⟩ := h
      cases node with
      | none =>
          rw [Exec.wp_bind]
          exact next grows holds' (within'.remove last)
      | some node =>
          have put' := (put (List.cons_ne_nil last path) node rfl).mono grows.next
          have new := put'.newNode
          have made := Grows.alloc grows.sound new.commited new.noId new.hasEntry new.within new.plain
          rw [Exec.wp_bind]
          refine next (grows.trans made) (steady.alloc grows.sound holds' put')
            ((within'.mono made.next).insert ?_ last)
          exact Nat.lt_succ_self _

theorem changed {root : Tree} {path : List KeyFragment} {node : Option Node}
    (steady : Steady P I) (sound : Sound w) (holds : I w) (within : Within w.heap root)
    (put : path ≠ [] → ∀ n, node = some n → PutNode P w.heap n) :
    Exec.wp (do
        let entry ← WorkingTree.computeNewRoot root path node
        let tree ← entryTree entry
        pure (WorkingTree.tree tree) : Call S MerkleError WorkingTree) (fun _ => I) I w := by
  rw [Exec.wp_bind]
  refine Exec.wp_mono (steady.computeNewRoot path sound holds within put) ?_ fun _ h => h
  intro entry w' holds'
  cases entry <;> exact holds'

section Trees

variable {self : WorkingTree}

theorem add (steady : Steady P I) (sound : Sound w) (holds : I w)
    (within : Within w.heap self.root) (key : ContextKey) (value : ContextValue) :
    Exec.wp (self.add key value) (fun _ => I) I w := by
  refine steady.changed sound holds within ?_
  intro _ n hn
  cases hn
  exact .leaf value

theorem delete (steady : Steady P I) (sound : Sound w) (holds : I w)
    (within : Within w.heap self.root) (key : ContextKey) :
    Exec.wp (self.delete key) (fun _ => I) I w := by
  rw [WorkingTree.delete]
  split
  · exact holds
  · exact steady.changed sound holds within (by simp)

theorem addTree {tree : WorkingTree} {key : ContextKey} (steady : Steady P I) (sound : Sound w)
    (holds : I w) (within : Within w.heap self.root) (within' : Within w.heap tree.root)
    (put : key ≠ [] → ∀ root, tree = .tree root → P root) :
    Exec.wp (self.addTree key tree) (fun _ => I) I w := by
  refine steady.changed sound holds within ?_
  intro hkey n hn
  cases hn
  exact .toNode within' (put fun h => hkey (by rw [h]; rfl))

theorem copy {fromKey toKey : ContextKey} {Q : Tree → Prop} (steady : Steady P I)
    (sound : Sound w) (holds : I w) (within : Within w.heap self.root)
    (source : Exec.wp (TezedgeIndex.findRawTree self.root fromKey) (fun tree _ => Q tree)
      (fun _ => True) w) (put : toKey ≠ [] → ∀ tree, Q tree → P tree) :
    Exec.wp (self.copy fromKey toKey) (fun _ => I) I w := by
  rw [WorkingTree.copy, Exec.wp_bind]
  refine Exec.wp_handle (F := I) ?_ ?_ fun _ h => h
  · rw [Exec.wp_bind]
    refine Exec.wp_mono (Exec.wp_and source (Exec.wp_and (findRawTree_spec sound within fromKey)
      (steady.findRawTree sound holds within fromKey))) ?_ fun _ h => h.2.2
    intro tree w' h
    obtain ⟨found, ⟨grows, within'⟩, holds'⟩ := h
    show Exec.wp (self.computeNewRootWithChange toKey _ >>= _) _ _ w'
    rw [Exec.wp_bind]
    refine Exec.wp_mono (steady.computeNewRoot _ grows.sound holds' (within.mono grows.next) ?_)
      ?_ fun _ h => h
    · intro hkey n hn
      cases hn
      exact .directory within' (put (fun h => hkey (by rw [h]; rfl)) tree found)
    · intro entry w'' holds''
      cases entry <;> exact holds''
  · intro e w' holds'
    cases e <;> exact holds'

/-! ## Asking -/

theorem findTree (steady : Steady P I) (sound : Sound w) (holds : I w)
    (within : Within w.heap self.root) (key : ContextKey) :
    Exec.wp (self.findTree key) (fun _ => I) I w := by
  rw [WorkingTree.findTree, Exec.wp_bind]
  refine Exec.wp_mono (steady.findRawTree sound holds within key) ?_ fun _ h => h
  intro tree w' holds'
  split <;> exact holds'

theorem getFromTree {root : Tree} (steady : Steady P I) (sound : Sound w) (holds : I w)
    (within : Within w.heap root) (key : ContextKey) :
    Exec.wp (WorkingTree.getFromTree root key) (fun _ => I) I w := by
  rw [WorkingTree.getFromTree]
  cases key.getLast? with
  | none => exact holds
  | some file =>
      show Exec.wp (TezedgeIndex.findRawTree root key.dropLast >>= _) _ _ w
      rw [Exec.wp_bind]
      refine Exec.wp_mono (Exec.wp_and (findRawTree_spec sound within _)
        (steady.findRawTree sound holds within _)) ?_ fun _ h => h.2
      intro tree w' h
      obtain ⟨⟨grows, within'⟩, holds'⟩ := h
      rw [Exec.wp_bind]
      refine Exec.wp_orFail _ _ ?_ fun _ => holds'
      intro a ha
      rw [Exec.wp_bind]
      refine Exec.wp_mono (steady.nodeEntry grows.sound holds' (within'.get ha)) ?_ fun _ h => h
      intro entry w'' holds''
      cases entry <;> exact holds''

theorem find (steady : Steady P I) (sound : Sound w) (holds : I w)
    (within : Within w.heap self.root) (key : ContextKey) :
    Exec.wp (self.find key) (fun _ => I) I w := by
  rw [WorkingTree.find]
  refine Exec.wp_handle (F := I) ?_ ?_ fun _ h => h
  · rw [Exec.wp_bind]
    exact steady.getFromTree sound holds within key
  · intro e w' holds'
    cases e <;> exact holds'

theorem mem (steady : Steady P I) (sound : Sound w) (holds : I w)
    (within : Within w.heap self.root) (key : ContextKey) :
    Exec.wp (self.mem key) (fun _ => I) I w := by
  rw [WorkingTree.mem]
  cases key.getLast? with
  | none => exact holds
  | some file =>
      refine Exec.wp_handle (F := I) ?_ (fun _ _ h => h) fun _ h => h
      rw [Exec.wp_bind]
      exact steady.findRawTree sound holds within _

theorem memTree (steady : Steady P I) (sound : Sound w) (holds : I w)
    (within : Within w.heap self.root) (key : ContextKey) :
    Exec.wp (self.memTree key) (fun _ => I) I w := by
  rw [WorkingTree.memTree]
  refine Exec.wp_handle (F := I) ?_ (fun _ _ h => h) fun _ h => h
  rw [Exec.wp_bind]
  exact steady.findRawTree sound holds within key

/-- The children that `list` returns are trees of nodes that exist. -/
theorem list (steady : Steady P I) (sound : Sound w) (holds : I w)
    (within : Within w.heap self.root) (offset length : Option Nat) (key : ContextKey) :
    Exec.wp (self.list offset length key)
      (fun children w' => (Grows w w' ∧ I w') ∧ ∀ q ∈ children, Within w'.heap q.2.root)
      (fun w' => Grows w w' ∧ I w') w := by
  rw [WorkingTree.list, Exec.wp_bind]
  refine Exec.wp_mono (Exec.wp_and (findRawTree_spec sound within key)
    (steady.findRawTree sound holds within key)) ?_ fun _ h => h
  intro node w₁ h
  obtain ⟨⟨grows, within₁⟩, holds₁⟩ := h
  rw [Exec.wp_bind]
  refine Exec.wp_mono (Exec.wp_mapEach (E := fun w₂ => Grows w₁ w₂ ∧ I w₂)
    (I := fun _ children w₂ => (Grows w₁ w₂ ∧ I w₂) ∧
      ∀ q, some q ∈ children → Within w₂.heap q.2.root) ?_ ?_) ?_ ?_
  · exact ⟨⟨Grows.refl grows.sound, holds₁⟩, by simp⟩
  · intro done p children w₂ hp h
    obtain ⟨⟨grows₂, holds₂⟩, trees⟩ := h
    have lt : p.2 < w₁.heap.next := within₁ p (List.mem_of_mem_drop (List.mem_of_mem_take hp))
    have lt₂ := Nat.lt_of_lt_of_le lt grows₂.next
    rw [Exec.wp_bind]
    refine Exec.wp_mono (Exec.wp_and (nodeEntry_spec grows₂.sound lt₂)
      (steady.nodeEntry grows₂.sound holds₂ lt₂)) ?_ ?_
    · intro entry w₃ h
      obtain ⟨⟨grows₃, hentry⟩, holds₃⟩ := h
      refine ⟨⟨grows₂.trans grows₃, holds₃⟩, ?_⟩
      intro q hq
      rcases List.mem_append.mp hq with old | new
      · exact (trees q old).mono grows₃.next
      · have child := List.mem_singleton.mp new
        cases entry with
        | tree tree =>
            cases child
            exact (grows₃.sound.nodes p.2).within hentry
        | blob value =>
            cases child
            exact Within.empty _
        | commit commit => cases child
    · intro w₃ h
      rw [h.1]
      exact ⟨grows₂, holds₂⟩
  · intro children w₂ h
    refine ⟨⟨grows.trans h.1.1, h.1.2⟩, ?_⟩
    intro q hq
    exact h.2 q (List.reduceOption_mem_iff.mp hq)
  · exact fun w₂ h => ⟨grows.trans h.1, h.2⟩

end Trees

theorem checkout (steady : Steady P I) (sound : Sound w) (holds : I w)
    (contextHash : ContextHash) :
    Exec.wp (TezedgeIndex.checkout contextHash) (fun _ => I) I w := by
  rw [TezedgeIndex.checkout, Exec.wp_bind, Exec.wp_mapErr]
  refine Exec.wp_query _ ?_ fun _ _ => holds
  intro id hid
  cases id with
  | none => exact holds
  | some id =>
      obtain ⟨live, _⟩ := sound.closed.contexts hid
      show Exec.wp (Exec.mapErr _ (TezedgeIndex.findCommit id) >>= _) _ _ w
      rw [Exec.wp_bind, Exec.wp_mapErr, TezedgeIndex.findCommit, Exec.wp_bind]
      refine Exec.wp_mono (Exec.wp_and (findEntry_spec sound live)
        (steady.findEntry sound holds live)) ?_ fun _ h => h.2
      intro e w₁ h
      obtain ⟨spec, holds₁⟩ := h
      rcases spec with ⟨rfl, _, _⟩ | ⟨entry, rfl, grows, ⟨value, found, encodes⟩, _⟩
      · exact holds₁
      · cases encodes with
        | blob value => exact holds₁
        | tree nodes commited within => exact holds₁
        | commit commit =>
            have mem : commit.rootHash ∈ (Serialized.commit commit).references :=
              List.mem_singleton_self _
            obtain ⟨liveRoot, _⟩ := sound.closed.references live found mem
            rw [← grows.repo] at liveRoot
            show Exec.wp (Exec.mapErr _ (TezedgeIndex.findTree commit.rootHash) >>= _) _ _ w₁
            rw [Exec.wp_bind, Exec.wp_mapErr, TezedgeIndex.findTree, Exec.wp_bind]
            refine Exec.wp_mono (steady.findEntry grows.sound holds₁ liveRoot) ?_ fun _ h => h
            intro e w₂ holds₂
            rcases e with _ | (_ | _ | _) <;> exact holds₂

end Steady

/-! ## Hashing and committing -/

/-- What a serialized directory refers to is a node of its kind. -/
theorem Serializes.node {heap : Heap} {entry : Entry}
    {entries : OrdMap KeyFragment (NodeKind × HashId)} {p : KeyFragment × NodeKind × HashId}
    (serializes : Serializes heap entry (.tree entries)) (within : EntryWithin heap entry)
    (hp : p ∈ entries.entries) :
    ∃ a, a < heap.next ∧ (heap.node a).entryHash = some p.2.2 ∧ (heap.node a).nodeKind = p.2.1 := by
  cases serializes with
  | tree nodes =>
      obtain ⟨a, ha, _⟩ := serializeTree_mem nodes hp
      obtain ⟨id, hid, hentry⟩ := serializeTree_node nodes ha
      rw [OrdMap.mem_entries.mp hp] at hentry
      refine ⟨a, (within rfl).get ha, ?_, ?_⟩
      · rw [hid, Option.some.inj hentry]
      · rw [Option.some.inj hentry]

section Committing

variable [Digest]

/-- What is stored after a commit was stored before, or the commit wrote it. -/
theorem Collection.value {w w₁ w' : World System} {root : Tree} {commit : Commit} {id j : HashId}
    {batch : List (HashId × Serialized)} {h : ContextHash} {v : Serialized}
    (collection : Collection w w₁ root commit id batch) (wrote : Wrote w₁.repo w'.repo batch h id)
    (hv : getValue j w'.repo = .ok (some v)) :
    getValue j w.repo = .ok (some v) ∨ (j, v) ∈ batch := by
  rw [← collection.marks.repo]
  exact wrote.value hv

/-- A directory that a commit writes refers to nodes. -/
theorem Collection.node {w w₁ : World System} {root : Tree} {commit : Commit} {id j : HashId}
    {batch : List (HashId × Serialized)} {entries : OrdMap KeyFragment (NodeKind × HashId)}
    {p : KeyFragment × NodeKind × HashId} (collection : Collection w w₁ root commit id batch)
    (sound : Sound w) (within : Within w.heap root) (mem : (j, .tree entries) ∈ batch)
    (hp : p ∈ entries.entries) :
    ∃ a, a < w.heap.next ∧ (w.heap.node a).entryHash = some p.2.2 ∧
      (w.heap.node a).nodeKind = p.2.1 := by
  rcases collection.items _ mem with hcommit | ⟨_, serializes⟩ |
    ⟨b, entry, _, _, _, _, hentry, serializes⟩
  · cases hcommit
  · refine serializes.node ?_ hp
    intro tree htree
    cases htree
    exact within
  · refine serializes.node ?_ hp
    intro tree htree
    rw [htree] at hentry
    exact (sound.nodes b).within hentry

/-- A commit of the tree: its entries are collected and written. -/
structure Commits (w w₁ w' : World System) (root : Tree) (commit : Commit) (id : HashId)
    (batch : List (HashId × Serialized)) (h : ContextHash) : Prop where
  within : Within w.heap root
  collection : Collection w w₁ root commit id batch
  rootHash : ∃ r, TreeHashOf w root r ∧ getHash commit.rootHash w.repo = .ok (some r)
  heap : w'.heap = w₁.heap
  wrote : Wrote w₁.repo w'.repo batch h id
  hashes : ∀ j, getHash j w'.repo = getHash j w₁.repo

/-- What every call of a process with a store in memory keeps. -/
structure SteadyStore (P : Tree → Prop) (I : World System → Prop) : Prop extends Steady P I where
  /-- Hashing gives ids to nodes; what is stored at them comes later. -/
  step : ∀ {w w'}, Sound w → I w → Step (fun _ => True) w w' → I w'
  marks : ∀ {w w'}, Sound w → I w → Marks w w' → I w'
  commits : ∀ {w w₁ w' : World System} {root commit id batch h}, Sound w → I w →
    Commits w w₁ w' root commit id batch h → I w'
  /-- A cycle start takes ids out of use. -/
  cycle : ∀ {w : World System}, I w →
    I { w with repo := w.repo.withStore w.repo.store.newCycleStarted }

namespace SteadyStore

variable {P : Tree → Prop} {I : World System → Prop} {w w' w₁ : World System} {c : TezedgeContext}
variable {author message : String} {date : Int64}

theorem prepared {store : Bool} {root : Tree} {commit : Commit} {id : HashId}
    {data : SerializingData} (steady : SteadyStore P I) (sound : Sound w) (holds : I w)
    (prepared : Prepared (fun _ => True) store w w₁ root commit id data) : I w₁ := by
  obtain ⟨w₀, _, _, _, step, _, _, _, _, _, _, entered, _⟩ := prepared.parts
  obtain ⟨_, _, _, walk, _, _⟩ := entered.parts
  exact steady.marks (step.sound sound) (steady.step sound holds step) walk.marks

theorem commit (steady : SteadyStore P I) (sound : Sound w) (holds : I w) (ok : ContextOk w c) :
    Exec.wp (c.commit author message date) (fun _ => I) I w := by
  refine Exec.wp_mono (commit_wrote sound ok) ?_ ?_
  · intro h w' wrote
    obtain ⟨w₁, commit, id, data, prepared, heap, wrote, hashes⟩ := wrote
    obtain ⟨w₀, step, collection, rootHash⟩ := prepared.collection
    exact steady.commits (step.sound sound) (steady.step sound holds step)
      ⟨ok.within.mono step.next.ge, collection, rootHash, heap, wrote, hashes⟩
  · exact fun w' step => steady.step sound holds step

theorem hash (steady : SteadyStore P I) (sound : Sound w) (holds : I w) (ok : ContextOk w c) :
    Exec.wp (c.hash author message date) (fun _ => I) I w := by
  refine Exec.wp_mono (hash_marked sound ok) ?_ ?_
  · intro h w' marked
    obtain ⟨commit, id, data, prepared⟩ := marked
    exact steady.prepared sound holds prepared
  · exact fun w' step => steady.step sound holds step

theorem getMerkleRoot (steady : SteadyStore P I) (sound : Sound w) (holds : I w)
    (ok : ContextOk w c) : Exec.wp c.getMerkleRoot (fun _ => I) I w := by
  refine Exec.wp_mono (getMerkleRoot_spec sound.good (region_all w) ok.within
    fun _ _ => trivial) ?_ ?_
  · exact fun _ w' h => steady.step sound holds h.1
  · exact fun w' h => steady.step sound holds h.1

end SteadyStore

end Committing

end NodeFuzzer
