import NodeFuzzer.Context.Sound

/-!
# What a tree holds

A path leads through nodes in memory and, below nodes that are not loaded, through
values of the store.  `treeAnswer` follows it in both and says what stands at its end.
The calls of a working tree load entries on their way; this moves a part of the tree from
the store to memory and changes no answer (`Reads`).
-/

namespace NodeFuzzer

open KeyValueStoreBackend

/-! ## Answers -/

/-- A child of a directory: a node, or a value of the store that is not loaded. -/
inductive Ref where
  | node (a : Addr)
  | stored (id : HashId)

/-- What a child holds. -/
inductive Content where
  | value (value : ContextValue)
  | directory (empty : Bool) (child : KeyFragment → Option Ref)
  | broken

/-- What stands at the end of a path.  It is `broken` when the path runs into an entry
that is not there or cannot be read. -/
inductive Answer where
  | value (value : ContextValue)
  | directory (empty : Bool)
  | absent
  | broken
deriving DecidableEq

variable {S : Type} [KeyValueStoreBackend S]

/-- A value of the store. -/
def storedContent (repo : S) (id : HashId) : Content :=
  match getValue id repo with
  | .ok (some (.blob value)) => .value value
  | .ok (some (.tree entries)) =>
      .directory entries.isEmpty fun name => (entries.get name).map fun p => .stored p.2
  | _ => .broken

/-- A directory in memory. -/
def treeContent (tree : Tree) : Content :=
  .directory tree.isEmpty fun name => (tree.get name).map .node

/-- An entry in memory. -/
def entryContent : Entry → Content
  | .tree tree => treeContent tree
  | .blob value => .value value
  | .commit _ => .broken

/-- A child. -/
def content (w : World S) : Ref → Content
  | .stored id => storedContent w.repo id
  | .node a =>
      match (w.heap.node a).entry with
      | some entry => entryContent entry
      | none =>
          match (w.heap.node a).entryHash with
          | some id => storedContent w.repo id
          | none => .broken

/-- Follow a path. -/
def answerIn (w : World S) : Content → ContextKey → Answer
  | .broken, _ => .broken
  | .value value, [] => .value value
  | .value _, _ :: _ => .absent
  | .directory empty _, [] => .directory empty
  | .directory _ child, name :: key =>
      match child name with
      | none => .absent
      | some ref => answerIn w (content w ref) key

/-- What a path leads to from a directory. -/
def treeAnswer (w : World S) (tree : Tree) (key : ContextKey) : Answer :=
  answerIn w (treeContent tree) key

section Equations

variable (w : World S)

@[simp] theorem answerIn_broken (key : ContextKey) : answerIn w .broken key = .broken := by
  cases key <;> rfl

@[simp] theorem answerIn_value_nil (value : ContextValue) :
    answerIn w (.value value) [] = .value value := rfl

@[simp] theorem answerIn_value_cons (value : ContextValue) (name : KeyFragment)
    (key : ContextKey) : answerIn w (.value value) (name :: key) = .absent := rfl

@[simp] theorem answerIn_directory_nil (empty : Bool) (child : KeyFragment → Option Ref) :
    answerIn w (.directory empty child) [] = .directory empty := rfl

@[simp] theorem treeAnswer_nil (tree : Tree) :
    treeAnswer w tree [] = .directory tree.isEmpty := rfl

theorem treeAnswer_cons (tree : Tree) (name : KeyFragment) (key : ContextKey) :
    treeAnswer w tree (name :: key) =
      match tree.get name with
      | none => .absent
      | some a => answerIn w (content w (.node a)) key := by
  show (match (tree.get name).map Ref.node with | none => _ | some ref => _) = _
  cases tree.get name <;> rfl

theorem treeAnswer_none {tree : Tree} {name : KeyFragment} (h : tree.get name = none)
    (key : ContextKey) : treeAnswer w tree (name :: key) = .absent := by
  rw [treeAnswer_cons, h]

theorem treeAnswer_some {tree : Tree} {name : KeyFragment} {a : Addr}
    (h : tree.get name = some a) (key : ContextKey) :
    treeAnswer w tree (name :: key) = answerIn w (content w (.node a)) key := by
  rw [treeAnswer_cons, h]

theorem content_entry {a : Addr} {entry : Entry} (h : (w.heap.node a).entry = some entry) :
    content w (.node a) = entryContent entry := by
  simp only [content, h]

theorem content_unloaded {a : Addr} {id : HashId} (noEntry : (w.heap.node a).entry = none)
    (hasId : (w.heap.node a).entryHash = some id) :
    content w (.node a) = storedContent w.repo id := by
  simp only [content, noEntry, hasId]

end Equations

/-! ## Reading -/

/-- Directories in memory have nodes that have been made. -/
def Tight (heap : Heap) : Prop :=
  ∀ {a tree}, a < heap.next → (heap.node a).entry = some (.tree tree) → Within heap tree

/-- A later state in which nothing was lost and every answer is the same. -/
structure Reads (w w' : World S) : Prop where
  tight : Tight w'.heap
  next : w.heap.next ≤ w'.heap.next
  repo : w'.repo = w.repo
  answer : ∀ a, a < w.heap.next → ∀ key,
    answerIn w' (content w' (.node a)) key = answerIn w (content w (.node a)) key

/-- Answers from a value of the store are about the store only. -/
theorem answerIn_stored {w w' : World S} (repo : w'.repo = w.repo) (id : HashId)
    (key : ContextKey) :
    answerIn w' (storedContent w.repo id) key = answerIn w (storedContent w.repo id) key := by
  induction key generalizing id with
  | nil =>
      unfold storedContent
      split <;> simp
  | cons name key ih =>
      unfold storedContent
      split
      · simp
      next entries _ =>
        simp only [answerIn]
        cases entries.get name with
        | none => rfl
        | some p =>
            show answerIn w' (storedContent w'.repo p.2) key = _
            rw [repo]
            exact ih p.2
      · simp

/-- Contents whose nodes have been made. -/
inductive OldContent (w : World S) : Content → Prop
  | entry {entry : Entry} (within : EntryWithin w.heap entry) : OldContent w (entryContent entry)
  | stored (id : HashId) : OldContent w (storedContent w.repo id)
  | broken : OldContent w .broken

theorem Tight.oldContent {w : World S} (tight : Tight w.heap) {a : Addr} (ha : a < w.heap.next) :
    OldContent w (content w (.node a)) := by
  cases hentry : (w.heap.node a).entry with
  | some entry =>
      rw [content_entry w hentry]
      refine .entry ?_
      intro tree htree
      rw [htree] at hentry
      exact tight ha hentry
  | none =>
      cases hid : (w.heap.node a).entryHash with
      | some id =>
          rw [content_unloaded w hentry hid]
          exact .stored id
      | none =>
          have : content w (.node a) = .broken := by simp [content, hentry, hid]
          rw [this]
          exact .broken

theorem answerIn_nil (w w' : World S) (c : Content) : answerIn w' c [] = answerIn w c [] := by
  cases c <;> rfl

/-- When the nodes of a directory answer the same, it does. -/
theorem OldContent.step {w : World S} {heap : Heap} {c : Content} (old : OldContent w c)
    {key : ContextKey}
    (nodes : ∀ a, a < w.heap.next →
      answerIn { w with heap := heap } (content { w with heap := heap } (.node a)) key =
        answerIn w (content w (.node a)) key)
    (name : KeyFragment) :
    answerIn { w with heap := heap } c (name :: key) = answerIn w c (name :: key) := by
  cases old with
  | stored id =>
      have repo : World.repo { w with heap := heap } = w.repo := rfl
      exact answerIn_stored repo id (name :: key)
  | broken => simp
  | @entry entry within =>
      cases entry with
      | blob value => rfl
      | commit commit => simp [entryContent]
      | tree tree =>
          show treeAnswer { w with heap := heap } tree (name :: key) = treeAnswer w tree (name :: key)
          cases ha : tree.get name with
          | none => rw [treeAnswer_none _ ha, treeAnswer_none w ha]
          | some a =>
              rw [treeAnswer_some _ ha, treeAnswer_some w ha]
              exact nodes a ((within rfl).get ha)

/-- Every node answers the same when what it holds does. -/
theorem answerIn_congr {w : World S} {heap : Heap}
    (same : ∀ a, a < w.heap.next → OldContent w (content { w with heap := heap } (.node a)) ∧
      ∀ key, answerIn w (content { w with heap := heap } (.node a)) key =
        answerIn w (content w (.node a)) key)
    (key : ContextKey) : ∀ a, a < w.heap.next →
      answerIn { w with heap := heap } (content { w with heap := heap } (.node a)) key =
        answerIn w (content w (.node a)) key := by
  induction key with
  | nil =>
      intro a ha
      rw [answerIn_nil w]
      exact (same a ha).2 []
  | cons name key ih =>
      intro a ha
      rw [(same a ha).1.step ih name]
      exact (same a ha).2 (name :: key)

namespace Reads

variable {w w' w'' : World S}

theorem refl (tight : Tight w.heap) : Reads w w :=
  ⟨tight, le_refl _, rfl, fun _ _ _ => rfl⟩

theorem trans (h : Reads w w') (h' : Reads w' w'') : Reads w w'' where
  tight := h'.tight
  next := h.next.trans h'.next
  repo := h'.repo.trans h.repo
  answer := by
    intro a ha key
    rw [h'.answer a (Nat.lt_of_lt_of_le ha h.next), h.answer a ha]

theorem treeAnswer (h : Reads w w') {tree : Tree} (within : Within w.heap tree)
    (key : ContextKey) : treeAnswer w' tree key = NodeFuzzer.treeAnswer w tree key := by
  cases key with
  | nil => rfl
  | cons name key =>
      cases ha : tree.get name with
      | none => rw [treeAnswer_none w' ha, treeAnswer_none w ha]
      | some a =>
          rw [treeAnswer_some w' ha, treeAnswer_some w ha]
          exact h.answer a (within.get ha) key

theorem entryAnswer (h : Reads w w') {entry : Entry} (within : EntryWithin w.heap entry)
    (key : ContextKey) :
    answerIn w' (entryContent entry) key = answerIn w (entryContent entry) key := by
  cases entry with
  | tree tree => exact h.treeAnswer (within rfl) key
  | blob value => cases key <;> rfl
  | commit commit => simp [entryContent]

/-- A node is made. -/
theorem alloc {node : Node} (tight : Tight w.heap)
    (within : ∀ {tree}, node.entry = some (.tree tree) → Within w.heap tree) :
    Reads w { w with heap := w.heap.alloc node } where
  tight := by
    intro a tree ha hentry
    have next : w.heap.next ≤ (w.heap.alloc node).next := Nat.le_succ _
    rcases Nat.lt_succ_iff_lt_or_eq.mp ha with hlt | heq
    · rw [Heap.alloc_node_of_lt hlt] at hentry
      exact (tight hlt hentry).mono next
    · rw [heq, Heap.alloc_node_self] at hentry
      exact (within hentry).mono next
  next := Nat.le_succ _
  repo := rfl
  answer := by
    intro a ha key
    refine answerIn_congr ?_ key a ha
    intro b hb
    have same : content { w with heap := w.heap.alloc node } (.node b) = content w (.node b) := by
      simp only [content, Heap.alloc_node_of_lt hb]
    rw [same]
    exact ⟨tight.oldContent hb, fun _ => rfl⟩

/-- Nodes that are not loaded are made. -/
theorem allocAll {nodes : List Node} (tight : Tight w.heap) (unloaded : ∀ n ∈ nodes, n.entry = none) :
    Reads w { w with heap := w.heap.allocAll nodes } where
  tight := by
    intro a tree ha hentry
    by_cases hlt : a < w.heap.next
    · rw [show World.heap _ = w.heap.allocAll nodes from rfl, Heap.allocAll_node_of_lt hlt] at hentry
      exact (tight hlt hentry).mono (Nat.le_add_right _ _)
    · obtain ⟨i, rfl⟩ := Nat.exists_eq_add_of_le (Nat.not_lt.mp hlt)
      have hi : i < nodes.length := Nat.lt_of_add_lt_add_left ha
      rw [Heap.allocAll_node_add (List.getElem?_eq_getElem hi),
        unloaded _ (List.getElem_mem hi)] at hentry
      cases hentry
  next := Nat.le_add_right _ _
  repo := rfl
  answer := by
    intro a ha key
    refine answerIn_congr ?_ key a ha
    intro b hb
    have same : content { w with heap := w.heap.allocAll nodes } (.node b) = content w (.node b) := by
      simp only [content, Heap.allocAll_node_of_lt hb]
    rw [same]
    exact ⟨tight.oldContent hb, fun _ => rfl⟩

/-- An entry is put into a node that answered the same before. -/
theorem setEntry {a : Addr} {entry : Entry} (tight : Tight w.heap)
    (within : EntryWithin w.heap entry)
    (same : ∀ key, answerIn w (entryContent entry) key = answerIn w (content w (.node a)) key) :
    Reads w { w with heap := w.heap.set a { w.heap.node a with entry := some entry } } where
  tight := by
    intro b tree hb hentry
    by_cases hne : b = a
    · rw [hne, Heap.set_node_self] at hentry
      exact within (Option.some.inj hentry)
    · rw [Heap.set_node_of_ne hne] at hentry
      exact tight hb hentry
  next := le_refl _
  repo := rfl
  answer := by
    intro b hb key
    refine answerIn_congr ?_ key b hb
    intro c hc
    by_cases hne : c = a
    · have hentry : ((w.heap.set a { w.heap.node a with entry := some entry }).node c).entry =
          some entry := by
        rw [hne, Heap.set_node_self]
      rw [content_entry { w with heap := w.heap.set a _ } hentry, hne]
      exact ⟨.entry within, same⟩
    · have same : content { w with heap := w.heap.set a { w.heap.node a with entry := some entry } }
          (.node c) = content w (.node c) := by
        simp only [content, Heap.set_node_of_ne hne]
      rw [same]
      exact ⟨tight.oldContent hc, fun _ => rfl⟩

end Reads

section Calls

variable {w : World S}

/-- A directory that comes out of the store answers as its value does there. -/
theorem treeAnswer_load {entries : OrdMap KeyFragment (NodeKind × HashId)} {id : HashId}
    (found : getValue id w.repo = .ok (some (.tree entries))) (key : ContextKey) :
    treeAnswer { w with heap := loadHeap w.heap entries }
        (entries.mapPosition fun i => w.heap.next + i) key =
      answerIn w (storedContent w.repo id) key := by
  have hcontent : storedContent w.repo id =
      .directory entries.isEmpty fun name => (entries.get name).map fun p => .stored p.2 := by
    simp only [storedContent, found]
  rw [hcontent]
  cases key with
  | nil =>
      have same : (entries.mapPosition fun i => w.heap.next + i).isEmpty = entries.isEmpty := by
        simp only [OrdMap.isEmpty, OrdMap.mapPosition]
        cases entries.entries <;> simp
      rw [treeAnswer_nil, same]
      rfl
  | cons name key =>
      have encodes := encodes_loadHeap w.heap entries
      cases encodes with
      | tree nodes _ _ =>
          have names := serializeTree_get nodes name
          rw [treeAnswer_cons, answerIn]
          cases ha : (entries.mapPosition fun i => w.heap.next + i).get name with
          | none =>
              rw [ha] at names
              cases hp : entries.get name with
              | none => rfl
              | some p => simp [hp] at names
          | some a =>
              obtain ⟨i, v, hi, rfl⟩ := OrdMap.mem_mapPosition.mp (OrdMap.mem_entries.mpr ha)
              have hnode := @loadHeap_node w.heap entries i _ hi
              cases hp : entries.get name with
              | none => simp [hp, ha] at names
              | some p =>
                  rw [hp, ha, Option.map_some, Option.map_some, hnode] at names
                  have hv : p = v := Option.some.inj (Option.some.inj names)
                  subst hv
                  have unloaded : content { w with heap := loadHeap w.heap entries }
                      (.node (w.heap.next + i)) = storedContent w.repo p.2 :=
                    content_unloaded { w with heap := loadHeap w.heap entries }
                      (by rw [hnode]; rfl) (by rw [hnode]; rfl)
                  simp only [Option.map_some, unloaded]
                  have repo : World.repo { w with heap := loadHeap w.heap entries } = w.repo := rfl
                  exact answerIn_stored repo p.2 key

/-- What `node_entry` returns answers as the node does. -/
theorem nodeEntry_reads {a : Addr} (tight : Tight w.heap) (ha : a < w.heap.next) :
    Exec.wp (TezedgeIndex.nodeEntry a)
      (fun entry w' => Reads w w' ∧ EntryWithin w'.heap entry ∧
        ∀ key, answerIn w' (entryContent entry) key = answerIn w (content w (.node a)) key)
      (fun _ => content w (.node a) = .broken) w := by
  rw [TezedgeIndex.nodeEntry, Exec.wp_bind, Call.readNode, Exec.wp_gets]
  cases hentry : (w.heap.node a).entry with
  | some entry =>
      rw [content_entry w hentry]
      refine ⟨Reads.refl tight, ?_, fun _ => rfl⟩
      intro tree htree
      rw [htree] at hentry
      exact tight ha hentry
  | none =>
      cases hid : (w.heap.node a).entryHash with
      | none =>
          show content w (.node a) = .broken
          simp [content, hentry, hid]
      | some id =>
          rw [content_unloaded w hentry hid]
          show Exec.wp (TezedgeIndex.getEntry id >>= _) _ _ w
          rw [Exec.wp_bind, TezedgeIndex.getEntry, Exec.wp_bind, Exec.wp_mapErr,
            TezedgeIndex.findEntry, Exec.wp_bind]
          refine Exec.wp_query _ ?_ ?_
          · intro bytes found
            cases bytes with
            | none => simp only [storedContent, found, Exec.wp_pure, Exec.orFail, Exec.wp_fail]
            | some value =>
                rw [Exec.wp_bind]
                cases value with
                | invalid => simp only [storedContent, found, deserialize, Exec.wp_fail]
                | blob value =>
                    have same : storedContent w.repo id = .value value := by
                      simp only [storedContent, found]
                    rw [same]
                    refine ⟨Reads.setEntry tight (entryWithin_blob _ _) ?_, entryWithin_blob _ _, ?_⟩
                    · intro key
                      rw [content_unloaded w hentry hid, same]
                      rfl
                    · intro key
                      cases key <;> rfl
                | commit commit =>
                    have same : storedContent w.repo id = .broken := by
                      simp only [storedContent, found]
                    rw [same]
                    refine ⟨Reads.setEntry tight (entryWithin_commit _ _) ?_, entryWithin_commit _ _, ?_⟩
                    · intro key
                      rw [content_unloaded w hentry hid, same]
                      rfl
                    · intro key
                      simp [entryContent]
                | tree entries =>
                    have loaded : Reads w { w with heap := loadHeap w.heap entries } := by
                      refine Reads.allocAll tight ?_
                      intro n hn
                      obtain ⟨p, _, rfl⟩ := List.mem_map.mp hn
                      rfl
                    have within : Within (loadHeap w.heap entries)
                        (entries.mapPosition fun i => w.heap.next + i) := by
                      cases encodes_loadHeap w.heap entries with
                      | tree _ _ within => exact within
                    have same := treeAnswer_load found
                    have answers : ∀ key,
                        treeAnswer { w with heap := loadHeap w.heap entries }
                            (entries.mapPosition fun i => w.heap.next + i) key =
                          answerIn { w with heap := loadHeap w.heap entries }
                            (content { w with heap := loadHeap w.heap entries } (.node a)) key := by
                      intro key
                      rw [loaded.answer a ha key, content_unloaded w hentry hid]
                      exact same key
                    have put := @Reads.setEntry S _ _ a
                      (.tree (entries.mapPosition fun i => w.heap.next + i)) loaded.tight
                      (fun h => by cases h; exact within) answers
                    refine ⟨loaded.trans put, ?_, ?_⟩
                    · intro tree htree
                      cases htree
                      exact within
                    · intro key
                      exact (put.treeAnswer within key).trans (same key)
          · intro e he
            simp only [storedContent, he]

/-- What `find_raw_tree` returns answers as the directory at the path does. -/
theorem findRawTree_reads {root : Tree} (tight : Tight w.heap) (within : Within w.heap root)
    (path : ContextKey) :
    Exec.wp (TezedgeIndex.findRawTree root path)
      (fun tree w' => Reads w w' ∧ Within w'.heap tree ∧
        (treeAnswer w root path = .directory tree.isEmpty ∨ tree = .empty) ∧
        ∀ name key, treeAnswer w' tree (name :: key) = treeAnswer w root (path ++ name :: key))
      (fun _ => ∃ key, treeAnswer w root key = .broken) w := by
  induction path generalizing root w with
  | nil => exact ⟨Reads.refl tight, within, Or.inl rfl, fun _ _ => rfl⟩
  | cons first rest ih =>
      rw [TezedgeIndex.findRawTree]
      cases ha : root.get first with
      | none =>
          refine ⟨Reads.refl tight, Within.empty _, Or.inr rfl, ?_⟩
          intro name key
          exact (treeAnswer_none w ha _).symm
      | some a =>
          show Exec.wp (TezedgeIndex.nodeEntry a >>= _) _ _ w
          rw [Exec.wp_bind]
          refine Exec.wp_mono (nodeEntry_reads tight (within.get ha)) ?_ ?_
          · intro entry w' h
            obtain ⟨reads, within', same⟩ := h
            cases entry with
            | tree tree =>
                refine Exec.wp_mono (ih reads.tight (within' rfl)) ?_ ?_
                · intro found w'' h
                  obtain ⟨reads', within'', here, below⟩ := h
                  refine ⟨reads.trans reads', within'', here.imp_left ?_, ?_⟩
                  · intro here
                    rw [treeAnswer_some w ha, ← same]
                    exact here
                  · intro name key
                    rw [below, List.cons_append, treeAnswer_some w ha, ← same]
                    rfl
                · intro w'' h
                  obtain ⟨key, hkey⟩ := h
                  refine ⟨first :: key, ?_⟩
                  rw [treeAnswer_some w ha, ← same]
                  exact hkey
            | blob value =>
                refine ⟨reads, Within.empty _, Or.inr rfl, ?_⟩
                intro name key
                rw [List.cons_append, treeAnswer_some w ha, ← same]
                cases rest <;> rfl
            | commit commit =>
                refine ⟨[first], ?_⟩
                rw [treeAnswer_some w ha, ← same]
                simp [entryContent]
          · intro w' broken
            refine ⟨[first], ?_⟩
            rw [treeAnswer_some w ha, broken]
            simp

/-- Every entry the tree refers to is there. -/
def Present (w : World S) (root : Tree) : Prop := ∀ key, treeAnswer w root key ≠ .broken

/-- What the entry refers to is in the list. -/
def Entry.Inside (l : List Addr) : Entry → Prop
  | .tree t => ∀ p ∈ t.entries, p.2 ∈ l
  | .blob _ => True
  | .commit _ => False

instance (l : List Addr) : (entry : Entry) → Decidable (entry.Inside l)
  | .tree t => inferInstanceAs (Decidable (∀ p ∈ t.entries, p.2 ∈ l))
  | .blob _ => inferInstanceAs (Decidable True)
  | .commit _ => inferInstanceAs (Decidable False)

/-- Nothing is missing from a tree in memory. -/
theorem present_of_inside {w : World S} {root : Tree} {l : List Addr}
    (start : (Entry.tree root).Inside l)
    (next : ∀ a ∈ l, ∃ entry ∈ (w.heap.node a).entry, entry.Inside l) : Present w root := by
  intro key
  induction key generalizing root with
  | nil => simp [treeAnswer, treeContent]
  | cons name key ih =>
      cases ha : root.get name with
      | none => simp [treeAnswer_none w ha]
      | some a =>
          obtain ⟨entry, he, inside⟩ := next a (start _ (OrdMap.mem_entries.mpr ha))
          rw [treeAnswer_some w ha, content_entry w he]
          cases entry with
          | tree tree => exact ih inside
          | blob value => cases key <;> simp [entryContent]
          | commit commit => exact absurd inside id

/-- What `get_from_tree` returns for an answer. -/
def getOutcome (key : ContextKey) : Answer → Outcome MerkleError ContextValue
  | .value value => .ok value
  | .absent => .err (.valueNotFound (TezedgeIndex.keyToString key))
  | _ => .err (.valueIsNotABlob (TezedgeIndex.keyToString key))

/-- What `find` returns for an answer. -/
def findOutcome (key : ContextKey) : Answer → Outcome MerkleError (Option ContextValue)
  | .value value => .ok (some value)
  | .absent => .ok none
  | _ => .err (.valueIsNotABlob (TezedgeIndex.keyToString key))

theorem getFromTree_reads {root : Tree} (tight : Tight w.heap) (within : Within w.heap root)
    (present : Present w root) (path : ContextKey) (file : KeyFragment) :
    ∃ w', Reads w w' ∧ WorkingTree.getFromTree root (path ++ [file]) w =
      (getOutcome (path ++ [file]) (treeAnswer w root (path ++ [file])), w') := by
  have spec := findRawTree_reads tight within path
  obtain ⟨tree, w₁, found, reads, within₁, _, below⟩ := Exec.wp_returns
    (Exec.wp_mono spec (fun _ _ h => h) fun _ h => h.elim fun key broken => present key broken)
  rw [← below file [], WorkingTree.getFromTree, List.getLast?_concat, List.dropLast_concat]
  show ∃ w', Reads w w' ∧ (TezedgeIndex.findRawTree root path >>= _) w = _
  rw [Exec.bind_ok found]
  cases ha : tree.get file with
  | none =>
      rw [treeAnswer_none w₁ ha]
      exact ⟨w₁, reads, rfl⟩
  | some a =>
      rw [treeAnswer_some w₁ ha]
      have unbroken : content w₁ (.node a) ≠ .broken := by
        intro broken
        have here := below file []
        rw [treeAnswer_some w₁ ha, broken] at here
        exact present _ here.symm
      obtain ⟨entry, w₂, loaded, reads', _, same⟩ := Exec.wp_returns
        (Exec.wp_mono (nodeEntry_reads reads.tight (within₁.get ha)) (fun _ _ h => h)
          fun _ h => unbroken h)
      refine ⟨w₂, reads.trans reads', ?_⟩
      show (TezedgeIndex.nodeEntry a >>= _) w₁ = _
      rw [Exec.bind_ok loaded, ← same []]
      cases entry <;> rfl

/-- `find` returns what is there. -/
theorem find_reads {t : WorkingTree} (tight : Tight w.heap) (within : Within w.heap t.root)
    (present : Present w t.root) {key : ContextKey} (hkey : key ≠ []) :
    (t.find key w).1 = findOutcome key (treeAnswer w t.root key) ∧ Reads w (t.find key w).2 := by
  have split : key = key.dropLast ++ [key.getLast hkey] :=
    (List.dropLast_append_getLast hkey).symm
  obtain ⟨w', reads, get⟩ := getFromTree_reads tight within present key.dropLast (key.getLast hkey)
  rw [← split] at get
  simp only [WorkingTree.find, Exec.handle, bind, Exec.bind, get]
  cases treeAnswer w t.root key <;> exact ⟨rfl, reads⟩

end Calls

end NodeFuzzer
