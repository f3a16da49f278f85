import NodeFuzzer.Context.Lookup
import NodeFuzzer.Library.NameTree

/-!
# Trees as finite trees of names

A tree in memory and store is given by its answers.  Where all its entries are there and it
is finite, it is a `NameTree`: `Shows` says which.  `find_raw_tree` then finds what
the `NameTree` has at the path.

A node says of what kind its entry is, and so does the serialized form of a directory; in
`Kinded` both are right.
-/

namespace NodeFuzzer

open KeyValueStoreBackend

/-- What a tree holds. -/
abbrev Contents : Type := NameTree KeyFragment ContextValue

/-- What a path leads to, from what is at its end. -/
def answerOf : Option Contents → Answer
  | none => .absent
  | some (.value v) => .value v
  | some (.directory names _) => .directory (decide (names = ∅))

variable {S : Type} [KeyValueStoreBackend S] {w w' : World S}

/-- Every path leads to what the tree of names has there. -/
def Shows (w : World S) (x : Content) (c : Contents) : Prop :=
  ∀ key, answerIn w x key = answerOf (c.get key)

theorem answerOf_ne_broken (c : Option Contents) : answerOf c ≠ .broken := by
  rcases c with _ | (_ | _) <;> exact nofun

theorem answerOf_eq_absent {c : Option Contents} : answerOf c = .absent ↔ c = none := by
  rcases c with _ | (_ | _) <;> simp [answerOf]

theorem answerOf_eq_value {c : Option Contents} {v : ContextValue} :
    answerOf c = .value v ↔ c = some (.value v) := by
  rcases c with _ | (_ | _) <;> simp [answerOf]

theorem answerIn_nil_ne_absent (w : World S) (x : Content) : answerIn w x [] ≠ .absent := by
  cases x <;> exact nofun

namespace Shows

theorem nil {x : Content} {c : Contents} (h : Shows w x c) :
    answerIn w x [] = answerOf (some c) := by
  rw [h [], NameTree.get_nil]

theorem present {tree : Tree} {c : Contents} (h : Shows w (treeContent tree) c) :
    Present w tree := by
  intro key
  rw [treeAnswer, h]
  exact answerOf_ne_broken _

theorem value (w : World S) (v : ContextValue) : Shows w (.value v) (.value v) := by
  intro key
  cases key <;> rfl

/-- A directory shows the names it has, each with what its node shows. -/
theorem directory {tree : Tree} {names : Finset KeyFragment} {child : KeyFragment → Contents}
    (keys : tree.keys.toFinset = names)
    (below : ∀ p ∈ tree.entries, Shows w (content w (.node p.2)) (child p.1)) :
    Shows w (treeContent tree) (.directory names child) := by
  have empty : tree.isEmpty = decide (names = ∅) := by
    rw [← keys, Bool.eq_iff_iff, decide_eq_true_iff, List.toFinset_eq_empty_iff]
    simp [OrdMap.isEmpty, OrdMap.keys]
  intro key
  cases key with
  | nil => exact congrArg Answer.directory empty
  | cons name key =>
      show treeAnswer w tree (name :: key) = _
      have mem : name ∈ names ↔ ∃ a, tree.get name = some a := by
        rw [← keys, List.mem_toFinset, OrdMap.mem_keys]
      rw [NameTree.get_directory_cons]
      cases get : tree.get name with
      | none =>
          rw [treeAnswer_none w get, if_neg (by simp [mem, get])]
          rfl
      | some a =>
          rw [treeAnswer_some w get, if_pos (mem.mpr ⟨a, get⟩)]
          exact below (name, a) (OrdMap.mem_entries.mpr get) key

theorem directory_keys {tree : Tree} {names : Finset KeyFragment} {child : KeyFragment → Contents}
    (h : Shows w (treeContent tree) (.directory names child)) :
    tree.keys = names.sort (· ≤ ·) := by
  have mem : ∀ name, name ∈ tree.keys ↔ name ∈ names := by
    intro name
    have here := h [name]
    change treeAnswer w tree [name] = _ at here
    rw [NameTree.get_directory_cons, NameTree.get_nil] at here
    rw [OrdMap.mem_keys]
    cases ha : tree.get name with
    | none =>
        rw [treeAnswer_none w ha, eq_comm, answerOf_eq_absent] at here
        simpa using here
    | some a =>
        rw [treeAnswer_some w ha] at here
        constructor
        · intro _
          by_contra hname
          rw [if_neg hname] at here
          exact answerIn_nil_ne_absent _ _ here
        · exact fun _ => ⟨a, rfl⟩
  refine List.Perm.eq_of_pairwise ?_ ?_ (Finset.sortedLT_sort names).pairwise ?_
  · intro a b _ _ hab hba
    exact absurd (lt_trans hab hba) (lt_irrefl a)
  · rw [OrdMap.keys, List.pairwise_map]
    exact tree.sorted
  · rw [List.perm_ext_iff_of_nodup tree.keys_nodup (Finset.sort_nodup _ _)]
    intro name
    rw [mem, Finset.mem_sort]

theorem directory_child {tree : Tree} {names : Finset KeyFragment} {child : KeyFragment → Contents}
    (h : Shows w (treeContent tree) (.directory names child)) {name : KeyFragment} {a : Addr}
    (ha : tree.get name = some a) : Shows w (content w (.node a)) (child name) := by
  have mem : name ∈ names := by
    rw [← Finset.mem_sort (· ≤ ·), ← h.directory_keys]
    exact OrdMap.mem_keys.mpr ⟨a, ha⟩
  intro key
  rw [← treeAnswer_some w ha, treeAnswer, h, NameTree.get_directory_cons, if_pos mem]

/-- A directory shows as one. -/
theorem exists_directory {tree : Tree} {c : Contents} (h : Shows w (treeContent tree) c) :
    ∃ names child, c = .directory names child ∧ tree.isEmpty = decide (names = ∅) := by
  have here := h.nil
  cases c with
  | value v => cases here
  | directory names child => exact ⟨names, child, rfl, Answer.directory.inj here⟩

/-- The part of a tree that is at a path. -/
theorem part {root tree : Tree} {c s : Contents} {path : ContextKey}
    (h : Shows w (treeContent root) c) (hs : c.get path = some s)
    (same : ∀ key, treeAnswer w' tree key = treeAnswer w root (path ++ key)) :
    Shows w' (treeContent tree) s := by
  intro key
  change treeAnswer w' tree key = _
  rw [same, treeAnswer, h, NameTree.get_append, hs]
  rfl

end Shows

theorem Reads.shows {a : Addr} {c : Contents} (reads : Reads w w') (ha : a < w.heap.next)
    (h : Shows w (content w (.node a)) c) : Shows w' (content w' (.node a)) c := by
  intro key
  rw [reads.answer a ha]
  exact h key

theorem Reads.showsTree {tree : Tree} {c : Contents} (reads : Reads w w')
    (within : Within w.heap tree) (h : Shows w (treeContent tree) c) :
    Shows w' (treeContent tree) c := by
  intro key
  change NodeFuzzer.treeAnswer w' tree key = _
  rw [reads.treeAnswer within]
  exact h key

/-! ## The directory at a path -/

theorem empty_of_absent {tree : Tree} (h : ∀ name, treeAnswer w tree [name] = .absent) :
    tree = .empty := by
  have empty : tree.isEmpty = true := by
    rw [OrdMap.isEmpty_iff]
    intro name
    have here := h name
    cases ha : tree.get name with
    | none => rfl
    | some a =>
        rw [treeAnswer_some w ha] at here
        exact absurd here (answerIn_nil_ne_absent _ _)
  exact OrdMap.ext_entries (List.isEmpty_iff.mp empty)

/-- `find_raw_tree` returns the directory at the path, or an empty one when there is none. -/
theorem findRawTree_shows {root : Tree} {c : Contents} (tight : Tight w.heap)
    (within : Within w.heap root) (shows : Shows w (treeContent root) c) (path : ContextKey) :
    ∃ tree w', TezedgeIndex.findRawTree root path w = (.ok tree, w') ∧ Reads w w' ∧
      Within w'.heap tree ∧
      ((∃ names child, c.get path = some (.directory names child) ∧
          Shows w' (treeContent tree) (.directory names child)) ∨
        (∀ names child, c.get path ≠ some (.directory names child)) ∧ tree = .empty) := by
  have spec := findRawTree_reads tight within path
  obtain ⟨tree, w', found, reads, within', here, below⟩ := Exec.wp_returns
    (Exec.wp_mono spec (fun _ _ h => h) fun _ h =>
      h.elim fun key broken => shows.present key broken)
  refine ⟨tree, w', found, reads, within', ?_⟩
  have answer : ∀ key, treeAnswer w root key = answerOf (c.get key) := shows
  -- Where no directory is, nothing is below.
  have none (h : ∀ names child, c.get path ≠ some (.directory names child)) : tree = .empty := by
    refine @empty_of_absent _ _ w' _ ?_
    intro name
    rw [below, answer, NameTree.get_append]
    rcases hs : c.get path with _ | (v | ⟨names, child⟩)
    · rfl
    · rfl
    · exact absurd hs (h names child)
  by_cases directory : ∃ names child, c.get path = some (.directory names child)
  · obtain ⟨names, child, hs⟩ := directory
    refine Or.inl ⟨names, child, hs, shows.part hs ?_⟩
    intro key
    cases key with
    | cons name key => exact below name key
    | nil =>
        rw [List.append_nil]
        rcases here with here | rfl
        · exact here.symm
        · -- Nothing is below an empty directory.
          rw [answer, hs, treeAnswer_nil]
          refine congrArg Answer.directory (decide_eq_true ?_).symm
          rw [Finset.eq_empty_iff_forall_notMem]
          intro name mem
          have gone := below name []
          rw [answer, NameTree.get_append, hs, Option.bind_some, NameTree.get_directory_cons,
            if_pos mem, NameTree.get_nil] at gone
          exact absurd gone.symm (fun h => nomatch answerOf_eq_absent.mp h)
  · have h : ∀ names child, c.get path ≠ some (.directory names child) :=
      fun names child hs => directory ⟨names, child, hs⟩
    exact Or.inr ⟨h, none h⟩

/-! ## Kinds -/

/-- The kind of what is at the end of a path. -/
def Suits (kind : NodeKind) : Answer → Prop
  | .value _ => kind = .leaf
  | .directory _ => kind = .nonLeaf
  | _ => True

/-- An id that can come up in a tree: a node has it, or a stored directory refers to it. -/
inductive Named (w : World S) : HashId → Prop
  | node {a : Addr} {id : HashId} (lt : a < w.heap.next)
      (hasId : (w.heap.node a).entryHash = some id) : Named w id
  | reference {id : HashId} {entries : OrdMap KeyFragment (NodeKind × HashId)}
      {p : KeyFragment × NodeKind × HashId} (named : Named w id)
      (found : getValue id w.repo = .ok (some (.tree entries))) (mem : p ∈ entries.entries) :
      Named w p.2.2

/-- Nodes and stored directories say of what kind their entries are. -/
structure Kinded (w : World S) : Prop where
  nodes : ∀ {a}, a < w.heap.next →
    Suits (w.heap.node a).nodeKind (answerIn w (content w (.node a)) [])
  stored : ∀ {id entries p}, Named w id → getValue id w.repo = .ok (some (.tree entries)) →
    p ∈ entries.entries → Suits p.2.1 (answerIn w (storedContent w.repo p.2.2) [])

theorem suits_storedNode {w : World S} {p : NodeKind × HashId}
    (h : Suits p.1 (answerIn w (storedContent w.repo p.2) [])) {heap : Heap} {a : Addr}
    (node : heap.node a = storedNode p) :
    Suits (heap.node a).nodeKind
      (answerIn { w with heap := heap } (content { w with heap := heap } (.node a)) []) := by
  rw [content_unloaded { w with heap := heap } (by rw [node]; rfl) (by rw [node]; rfl), node,
    answerIn_nil w]
  exact h

/-- Where answers and kinds of the nodes are as before and the new nodes are right. -/
theorem Kinded.reads (kinded : Kinded w) (reads : Reads w w')
    (names : ∀ {id}, Named w' id → Named w id)
    (kinds : ∀ a, a < w.heap.next → (w'.heap.node a).nodeKind = (w.heap.node a).nodeKind)
    (new : ∀ a, w.heap.next ≤ a → a < w'.heap.next →
      Suits (w'.heap.node a).nodeKind (answerIn w' (content w' (.node a)) [])) : Kinded w' where
  nodes := by
    intro a ha
    by_cases old : a < w.heap.next
    · rw [kinds a old, reads.answer a old]
      exact kinded.nodes old
    · exact new a (Nat.not_lt.mp old) ha
  stored := by
    intro id entries p named hvalue hp
    rw [reads.repo] at hvalue ⊢
    rw [answerIn_nil w]
    exact kinded.stored (names named) hvalue hp

/-- The nodes that `node_entry` makes are those of a stored directory. -/
structure Unpacks (w w' : World S) : Prop where
  repo : w'.repo = w.repo
  kinds : ∀ a, a < w.heap.next → (w'.heap.node a).nodeKind = (w.heap.node a).nodeKind
  ids : ∀ a, a < w.heap.next → (w'.heap.node a).entryHash = (w.heap.node a).entryHash
  new : ∀ a, w.heap.next ≤ a → a < w'.heap.next → ∃ id entries p, Named w id ∧
    getValue id w.repo = .ok (some (.tree entries)) ∧ p ∈ entries.entries ∧
      w'.heap.node a = storedNode p.2

namespace Unpacks

theorem refl (w : World S) : Unpacks w w :=
  ⟨rfl, fun _ _ => rfl, fun _ _ => rfl, fun _ old new => absurd new (Nat.not_lt.mpr old)⟩

theorem setEntry {a : Addr} {entry : Option Entry} (h : Unpacks w w') (ha : a < w.heap.next) :
    Unpacks w { w' with heap := w'.heap.set a { w'.heap.node a with entry := entry } } where
  repo := h.repo
  kinds := by
    intro b hb
    by_cases hba : b = a
    · rw [hba, Heap.set_node_self]
      exact h.kinds a ha
    · rw [Heap.set_node_of_ne hba]
      exact h.kinds b hb
  ids := by
    intro b hb
    by_cases hba : b = a
    · rw [hba, Heap.set_node_self]
      exact h.ids a ha
    · rw [Heap.set_node_of_ne hba]
      exact h.ids b hb
  new := by
    intro b old hb
    rw [Heap.set_node_of_ne (Nat.ne_of_gt (Nat.lt_of_lt_of_le ha old))]
    exact h.new b old hb

theorem load {id : HashId} {entries : OrdMap KeyFragment (NodeKind × HashId)} (named : Named w id)
    (found : getValue id w.repo = .ok (some (.tree entries))) :
    Unpacks w { w with heap := loadHeap w.heap entries } where
  repo := rfl
  kinds := by
    intro a ha
    rw [loadHeap, Heap.allocAll_node_of_lt ha]
  ids := by
    intro a ha
    rw [loadHeap, Heap.allocAll_node_of_lt ha]
  new := by
    intro a old ha
    obtain ⟨i, rfl⟩ := Nat.exists_eq_add_of_le old
    have hi : i < entries.entries.length := by simpa [loadHeap] using ha
    exact ⟨id, entries, _, named, found, List.getElem_mem hi,
      loadHeap_node (List.getElem?_eq_getElem hi)⟩

/-- No id comes up that could not come up before. -/
theorem names (h : Unpacks w w') {id : HashId} (named : Named w' id) : Named w id := by
  induction named with
  | @node a id lt hasId =>
      by_cases old : a < w.heap.next
      · rw [h.ids a old] at hasId
        exact .node old hasId
      · obtain ⟨j, entries, p, named, found, hp, node⟩ := h.new a (Nat.not_lt.mp old) lt
        rw [node] at hasId
        cases hasId
        exact .reference named found hp
  | reference _ found mem ih =>
      rw [h.repo] at found
      exact .reference ih found mem

end Unpacks

theorem nodeEntry_unpacks {a : Addr} (ha : a < w.heap.next) :
    Exec.wp (TezedgeIndex.nodeEntry a) (fun _ w' => Unpacks w w') (fun _ => True) w := by
  rw [TezedgeIndex.nodeEntry, Exec.wp_bind, Call.readNode, Exec.wp_gets]
  cases (w.heap.node a).entry with
  | some entry => exact Unpacks.refl w
  | none =>
      cases hid : (w.heap.node a).entryHash with
      | none => trivial
      | some id =>
          show Exec.wp (TezedgeIndex.getEntry id >>= _) _ _ w
          rw [Exec.wp_bind, TezedgeIndex.getEntry, Exec.wp_bind, Exec.wp_mapErr,
            TezedgeIndex.findEntry, Exec.wp_bind]
          refine Exec.wp_query _ ?_ fun _ _ => trivial
          intro bytes found
          cases bytes with
          | none => trivial
          | some value =>
              rw [Exec.wp_bind]
              cases value with
              | tree entries => exact (Unpacks.load (.node ha hid) found).setEntry ha
              | blob value => exact (Unpacks.refl w).setEntry ha
              | commit commit => exact (Unpacks.refl w).setEntry ha
              | invalid => trivial

theorem Unpacks.kinded (h : Unpacks w w') (reads : Reads w w') (kinded : Kinded w) :
    Kinded w' := by
  refine kinded.reads reads h.names h.kinds ?_
  intro a old new
  obtain ⟨id, entries, p, named, found, hp, node⟩ := h.new a old new
  have suits := kinded.stored named found hp
  rw [← reads.repo] at suits
  have here := suits_storedNode (answerIn_nil w w' _ ▸ suits) node
  exact here

theorem findRawTree_kinded {root : Tree} (tight : Tight w.heap) (kinded : Kinded w)
    (within : Within w.heap root) (path : ContextKey) :
    Exec.wp (TezedgeIndex.findRawTree root path) (fun _ w' => Kinded w') (fun _ => True) w := by
  induction path generalizing w root with
  | nil => exact kinded
  | cons first rest ih =>
      rw [TezedgeIndex.findRawTree]
      cases ha : root.get first with
      | none => exact kinded
      | some a =>
          have lt := within.get ha
          show Exec.wp (TezedgeIndex.nodeEntry a >>= _) _ _ w
          rw [Exec.wp_bind]
          refine Exec.wp_mono (Exec.wp_and (nodeEntry_reads tight lt) (nodeEntry_unpacks lt)) ?_
            fun _ _ => trivial
          intro entry w' h
          obtain ⟨⟨reads, within', _⟩, unpacks⟩ := h
          have kinded' := unpacks.kinded reads kinded
          cases entry with
          | tree tree => exact ih reads.tight kinded' (within' rfl)
          | blob value => exact kinded'
          | commit commit => trivial

end NodeFuzzer
