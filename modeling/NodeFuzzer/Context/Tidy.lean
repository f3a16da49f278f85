import NodeFuzzer.Context.Reachable

/-!
# Nodes while cycles start

An id that a node keeps may be given to another entry once its cycle has ended, so that
nothing is said here of the hashes and values of nodes.  What every call keeps all the same:

* a node without an entry came out of the store, and one that is not marked was made by the
  process (`Tidy`);
* the store hands out ids, and its thread makes steps (`Onto`).
-/

namespace NodeFuzzer

/-! ## Nodes of a process -/

/-- A node that has an id and no entry came out of the store, and is marked.  Commits are only
read. -/
structure TidyNode (node : Node) : Prop where
  stored : node.entryHash ≠ none → node.entry = none → node.commited = true
  plain : ∀ commit, node.commited = false → node.entry ≠ some (.commit commit)

/-- All nodes are so, and those that were not made are blank. -/
structure Tidy (heap : Heap) : Prop where
  nodes : ∀ a, TidyNode (heap.node a)
  beyond : ∀ a, heap.next ≤ a → (heap.node a).entryHash = none ∧ (heap.node a).entry = none

theorem tidy_empty : Tidy .empty := by
  refine ⟨fun a => ⟨fun h => absurd rfl h, fun commit _ h => ?_⟩, fun a _ => ⟨rfl, rfl⟩⟩
  cases h

/-- A node made for an entry of a directory that was loaded. -/
theorem tidyNode_stored (p : NodeKind × HashId) : TidyNode (storedNode p) :=
  ⟨fun _ _ => rfl, fun _ h => Bool.noConfusion h⟩

theorem tidyNode_nonLeaf (tree : Tree) : TidyNode (getNonLeaf (.tree tree)) := by
  refine ⟨fun h => absurd rfl h, fun commit _ h => ?_⟩
  cases h

theorem tidyNode_leaf (value : ContextValue) : TidyNode (getLeaf (.blob value)) := by
  refine ⟨fun h => absurd rfl h, fun commit _ h => ?_⟩
  cases h

/-- The node a tree is grafted as. -/
theorem tidyNode_toNode (tree : WorkingTree) : TidyNode tree.toNode := by
  cases tree with
  | tree root => exact tidyNode_nonLeaf root
  | value value => exact tidyNode_leaf value

/-- A change brings at most one node. -/
theorem one_node {P : Node → Prop} {node : Node} (h : P node) : ∀ n ∈ some node, P n := by
  intro n mem
  cases mem
  exact h

namespace Tidy

variable {heap : Heap}

/-- Only nodes that were made have ids. -/
theorem lt (tidy : Tidy heap) {a : Addr} (h : (heap.node a).entryHash ≠ none) : a < heap.next := by
  by_contra out
  exact h (tidy.beyond a (Nat.not_lt.mp out)).1

/-- A new node. -/
theorem alloc (tidy : Tidy heap) {node : Node} (new : TidyNode node) : Tidy (heap.alloc node) := by
  constructor
  · intro a
    by_cases ha : a = heap.next
    · rw [ha, Heap.alloc_node_self]
      exact new
    · rw [Heap.alloc_node_of_ne ha]
      exact tidy.nodes a
  · intro a beyond
    rw [Heap.alloc_next] at beyond
    rw [Heap.alloc_node_of_ne (Nat.ne_of_gt beyond)]
    exact tidy.beyond a (Nat.le_of_succ_le beyond)

/-- The nodes of a directory that was loaded. -/
theorem allocAll (tidy : Tidy heap) {nodes : List Node} (new : ∀ node ∈ nodes, TidyNode node) :
    Tidy (heap.allocAll nodes) := by
  constructor
  · intro a
    by_cases old : a < heap.next
    · rw [Heap.allocAll_node_of_lt old]
      exact tidy.nodes a
    · show TidyNode (if a < heap.next then _ else _)
      rw [if_neg old]
      cases at_ : nodes[a - heap.next]? with
      | none => exact tidy.nodes a
      | some node => exact new node (List.mem_of_getElem? at_)
  · intro a beyond
    rw [Heap.allocAll_next] at beyond
    have old : heap.next ≤ a := Nat.le_of_add_right_le beyond
    have out : nodes[a - heap.next]? = none := List.getElem?_eq_none (Nat.le_sub_of_add_le' beyond)
    have same : (heap.allocAll nodes).node a = heap.node a := by
      show (if a < heap.next then _ else _) = _
      rw [if_neg (Nat.not_lt.mpr old), out]
      rfl
    rw [same]
    exact tidy.beyond a old

/-- A node that is written over. -/
theorem set (tidy : Tidy heap) {a : Addr} {node : Node} (new : TidyNode node)
    (beyond : heap.next ≤ a → node.entryHash = none ∧ node.entry = none) :
    Tidy (heap.set a node) := by
  constructor
  · intro b
    by_cases hb : b = a
    · rw [hb, Heap.set_node_self]
      exact new
    · rw [Heap.set_node_of_ne hb]
      exact tidy.nodes b
  · intro b hle
    by_cases hb : b = a
    · rw [hb] at hle ⊢
      rw [Heap.set_node_self]
      exact beyond hle
    · rw [Heap.set_node_of_ne hb]
      exact tidy.beyond b hle

end Tidy

/-! ## What every call does -/

/-- Ids were handed out, and nodes were made and marked. -/
structure Went (w w' : World System) : Prop where
  tidy : Tidy w'.heap
  next : w.heap.next ≤ w'.heap.next
  kept : ∀ a, a < w.heap.next → (w.heap.node a).commited = true → (w'.heap.node a).commited = true
  handing : ∃ ids, System.Handing w.repo ids w'.repo

/-- So far as all was well before. -/
def Onto (w w' : World System) : Prop := Tidy w.heap → System.Placed w.repo → Went w w'

/-- Ids are only handed out to a store whose ids are placed. -/
theorem Went.placed {w w' : World System} (went : Went w w') : System.Placed w'.repo := by
  obtain ⟨ids, handing⟩ := went.handing
  exact handing.placed

theorem Went.trans {w w' w'' : World System} (h : Went w w') (h' : Went w' w'') : Went w w'' := by
  obtain ⟨ids, handing⟩ := h.handing
  obtain ⟨ids', handing'⟩ := h'.handing
  refine ⟨h'.tidy, h.next.trans h'.next, ?_, ids' ++ ids, handing.trans handing'⟩
  intro a ha marked
  exact h'.kept a (Nat.lt_of_lt_of_le ha h.next) (h.kept a ha marked)

instance : Std.Refl Onto :=
  ⟨fun _ tidy placed => ⟨tidy, le_refl _, fun _ _ h => h, [], .refl placed⟩⟩

instance : IsTrans (World System) Onto := by
  refine ⟨fun w w' w'' h h' tidy placed => ?_⟩
  have went := h tidy placed
  exact went.trans (h' went.tidy went.placed)

/-- Loading a directory makes its nodes. -/
theorem steps_deserialize {ε : Type} (error : ε) (value : Serialized) :
    Exec.Steps Onto (deserialize error value : Call System ε Entry) := by
  cases value with
  | tree entries =>
      intro w tidy placed
      refine ⟨tidy.allocAll ?_, Nat.le_add_right _ _, ?_, [], .refl placed⟩
      · intro node mem
        obtain ⟨p, _, rfl⟩ := List.mem_map.mp mem
        exact tidyNode_stored p.2
      · intro a ha marked
        exact (congrArg Node.commited (Heap.allocAll_node_of_lt ha _)).trans marked
  | blob value => exact Exec.steps_pure _
  | commit commit => exact Exec.steps_pure _
  | invalid => exact Exec.steps_fail _

theorem steps_newNode {node : Node} (new : TidyNode node) :
    Exec.Steps Onto (Call.newNode node : Call System MerkleError Addr) := by
  intro w tidy placed
  refine ⟨tidy.alloc new, Nat.le_succ _, ?_, [], .refl placed⟩
  intro a ha marked
  exact (congrArg Node.commited (Heap.alloc_node_of_lt ha node)).trans marked

section Steps

variable [Digest]

theorem steps_findEntry (id : HashId) :
    Exec.Steps Onto (TezedgeIndex.findEntry id : Call System DBError (Option Entry)) := by
  refine (Exec.steps_query _).bind fun bytes => ?_
  cases bytes with
  | none => exact Exec.steps_pure _
  | some value => exact (steps_deserialize _ value).bind fun _ => Exec.steps_pure _

theorem steps_getEntry (id : HashId) :
    Exec.Steps Onto (TezedgeIndex.getEntry id : Call System MerkleError Entry) :=
  (steps_findEntry id).mapErr.bind fun entry => Exec.steps_orFail _ entry

/-- An entry that was loaded stays with its node, which is marked. -/
theorem steps_nodeEntry (a : Addr) :
    Exec.Steps Onto (TezedgeIndex.nodeEntry a : Call System MerkleError Entry) := by
  refine Exec.steps_of_wp fun w => ?_
  rw [TezedgeIndex.nodeEntry, Exec.wp_bind, Call.readNode, Exec.wp_gets]
  cases hentry : (w.heap.node a).entry with
  | some entry => exact Std.Refl.refl (r := Onto) w
  | none =>
      show Exec.wp (_ >>= _) _ _ w
      rw [Exec.wp_bind]
      refine Exec.wp_orFail _ _ ?_ fun _ => Std.Refl.refl (r := Onto) w
      intro id hid
      rw [Exec.wp_bind]
      refine Exec.wp_mono ((steps_getEntry id).wp w) ?_ fun _ h => h
      intro entry w' step
      rw [Exec.wp_bind, Call.updateNode, Exec.wp_modify]
      intro tidy placed
      have went := step tidy placed
      -- The node came out of the store, and has kept its mark.
      have hsome : (w.heap.node a).entryHash ≠ none := by
        rw [hid]
        exact Option.some_ne_none id
      have lt := tidy.lt hsome
      have marked := went.kept a lt ((tidy.nodes a).stored hsome hentry)
      refine went.trans ⟨went.tidy.set ⟨?_, ?_⟩ ?_, le_refl _, ?_, [], .refl went.placed⟩
      · intro _ h
        cases h
      · intro commit unmarked
        rw [marked] at unmarked
        cases unmarked
      · exact fun out => absurd (Nat.lt_of_lt_of_le lt went.next) (Nat.not_lt.mpr out)
      · intro b _ hb
        by_cases same : b = a
        · rw [same, Heap.set_node_self]
          exact marked
        · rw [Heap.set_node_of_ne same]
          exact hb

/-- Every directory on the way is loaded, and nothing else is done. -/
theorem steps_findRawTree (root : Tree) (key : ContextKey) :
    Exec.Steps Onto (TezedgeIndex.findRawTree root key : Call System MerkleError Tree) := by
  induction key generalizing root with
  | nil => exact Exec.steps_pure root
  | cons first rest ih =>
      rw [TezedgeIndex.findRawTree]
      cases root.get first with
      | none => exact Exec.steps_pure _
      | some a =>
          refine (steps_nodeEntry a).bind fun entry => ?_
          cases entry with
          | tree tree => exact ih tree
          | blob value => exact Exec.steps_pure _
          | commit commit => exact Exec.steps_fail _

/-- Each directory on the way is made anew. -/
theorem steps_computeNewRoot (root : Tree) (path : List KeyFragment) {node : Option Node}
    (new : ∀ n ∈ node, TidyNode n) :
    Exec.Steps Onto (WorkingTree.computeNewRoot root path node : Call System MerkleError Entry) := by
  induction path generalizing node with
  | nil =>
      cases node with
      | none => exact Exec.steps_pure _
      | some n => exact Exec.steps_orFail _ _
  | cons last path ih =>
      rw [WorkingTree.computeNewRoot]
      refine (steps_findRawTree root _).bind fun tree => ?_
      have go : ∀ tree : Tree, Exec.Steps Onto (if tree.isEmpty then WorkingTree.computeNewRoot root path none
          else WorkingTree.computeNewRoot root path (some (getNonLeaf (.tree tree))) :
            Call System MerkleError Entry) := by
        intro tree
        split
        · exact ih fun _ h => absurd h (Option.not_mem_none _)
        · refine ih fun n h => ?_
          cases h
          exact tidyNode_nonLeaf tree
      cases node with
      | none => exact (Exec.steps_pure _).bind go
      | some n =>
          exact ((steps_newNode (new n rfl)).bind fun _ => Exec.steps_pure _).bind go

omit [Digest] in
theorem steps_entryTree (entry : Entry) :
    Exec.Steps Onto (entryTree entry : Call System MerkleError Tree) := by
  cases entry with
  | tree tree => exact Exec.steps_pure tree
  | blob value => exact Exec.steps_fail _
  | commit commit => exact Exec.steps_fail _

/-- A changed tree: the root is computed, and has to be a directory. -/
theorem steps_changed (root : Tree) (path : List KeyFragment) {node : Option Node}
    (new : ∀ n ∈ node, TidyNode n) {α : Type} (f : Tree → α) :
    Exec.Steps Onto (do
      let entry ← WorkingTree.computeNewRoot root path node
      let tree ← entryTree entry
      pure (f tree) : Call System MerkleError α) :=
  (steps_computeNewRoot root path new).bind fun entry =>
    (steps_entryTree entry).bind fun _ => Exec.steps_pure _

namespace WorkingTree

variable (self : WorkingTree)

theorem steps_add (key : ContextKey) (value : ContextValue) :
    Exec.Steps Onto (self.add key value : Call System MerkleError WorkingTree) :=
  steps_changed self.root key.reverse (one_node (tidyNode_leaf value)) WorkingTree.tree

theorem steps_addTree (key : ContextKey) (tree : WorkingTree) :
    Exec.Steps Onto (self.addTree key tree : Call System MerkleError WorkingTree) :=
  steps_changed self.root key.reverse (one_node (tidyNode_toNode tree)) WorkingTree.tree

theorem steps_delete (key : ContextKey) :
    Exec.Steps Onto (self.delete key : Call System MerkleError WorkingTree) := by
  rw [WorkingTree.delete]
  split
  · exact (Exec.steps_pure _).bind fun entry =>
      (steps_entryTree entry).bind fun _ => Exec.steps_pure _
  · exact steps_changed self.root key.reverse (fun _ h => absurd h (Option.not_mem_none _))
      WorkingTree.tree

theorem steps_copy (fromKey toKey : ContextKey) :
    Exec.Steps Onto (self.copy fromKey toKey : Call System MerkleError (Option WorkingTree)) := by
  refine Exec.Steps.bind (Exec.Steps.handle ?_ fun e => ?_) fun source => ?_
  · exact (steps_findRawTree self.root fromKey).bind fun _ => Exec.steps_pure _
  · cases e <;> first | exact Exec.steps_pure _ | exact Exec.steps_fail _
  · cases source with
    | none => exact Exec.steps_pure _
    | some tree =>
        exact steps_changed self.root toKey.reverse (one_node (tidyNode_nonLeaf tree))
          fun tree => some (WorkingTree.tree tree)

theorem steps_findTree (key : ContextKey) :
    Exec.Steps Onto (self.findTree key : Call System MerkleError (Option WorkingTree)) := by
  refine (steps_findRawTree _ _).bind fun tree => ?_
  split <;> exact Exec.steps_pure _

/-- Looking up a value loads the directories above it. -/
theorem steps_getFromTree (root : Tree) (key : ContextKey) :
    Exec.Steps Onto (getFromTree root key : Call System MerkleError ContextValue) := by
  rw [getFromTree]
  cases key.getLast? with
  | none => exact Exec.steps_fail _
  | some file =>
      refine (steps_findRawTree _ _).bind fun tree => ?_
      refine (Exec.steps_orFail _ _).bind fun a => ?_
      refine (steps_nodeEntry a).bind fun entry => ?_
      cases entry with
      | tree tree => exact Exec.steps_fail _
      | blob value => exact Exec.steps_pure _
      | commit commit => exact Exec.steps_fail _

theorem steps_find (key : ContextKey) :
    Exec.Steps Onto (self.find key : Call System MerkleError (Option ContextValue)) := by
  refine ((steps_getFromTree _ _).bind fun _ => Exec.steps_pure _).handle fun e => ?_
  cases e <;> first | exact Exec.steps_pure _ | exact Exec.steps_fail _

theorem steps_mem (key : ContextKey) :
    Exec.Steps Onto (self.mem key : Call System MerkleError Bool) := by
  rw [mem]
  cases key.getLast? with
  | none => exact Exec.steps_fail _
  | some file =>
      exact ((steps_findRawTree _ _).bind fun _ => Exec.steps_pure _).handle fun _ =>
        Exec.steps_pure _

theorem steps_memTree (key : ContextKey) :
    Exec.Steps Onto (self.memTree key : Call System MerkleError Bool) :=
  ((steps_findRawTree _ _).bind fun _ => Exec.steps_pure _).handle fun _ => Exec.steps_pure _

end WorkingTree

theorem steps_findCommit (id : HashId) :
    Exec.Steps Onto (TezedgeIndex.findCommit id : Call System DBError (Option Commit)) := by
  refine (steps_findEntry id).bind fun entry => ?_
  rcases entry with _ | _ | _ | _
  · exact Exec.steps_pure _
  · exact Exec.steps_fail _
  · exact Exec.steps_fail _
  · exact Exec.steps_pure _

/-- A tree of the store is made of nodes that came out of it. -/
theorem steps_storedTree (id : HashId) :
    Exec.Steps Onto (TezedgeIndex.findTree id : Call System DBError (Option Tree)) := by
  refine (steps_findEntry id).bind fun entry => ?_
  rcases entry with _ | _ | _ | _
  · exact Exec.steps_pure _
  · exact Exec.steps_pure _
  · exact Exec.steps_fail _
  · exact Exec.steps_fail _

theorem steps_checkout (contextHash : ContextHash) :
    Exec.Steps Onto (TezedgeIndex.checkout contextHash :
      Call System ContextError (Option TezedgeContext)) := by
  refine (Exec.steps_query _).mapErr.bind fun id => ?_
  cases id with
  | none => exact Exec.steps_pure _
  | some id =>
      refine (steps_findCommit id).mapErr.bind fun commit => ?_
      cases commit with
      | none => exact Exec.steps_pure _
      | some commit =>
          refine (steps_storedTree _).mapErr.bind fun tree => ?_
          cases tree <;> exact Exec.steps_pure _

end Steps

end NodeFuzzer
