import NodeFuzzer.Context.Committing
import NodeFuzzer.Context.InMemory

/-!
# The root hash depends on the contents only

Trees that are built from the empty one by `add` and `delete` have one form for their
contents: no directory below the root is empty, and an id that a node keeps is one of the
hash of its entry.  So trees with the same bindings have the same hash, whatever was
hashed on the way.
-/

namespace NodeFuzzer

open KeyValueStoreBackend StoreView

/-! ## Looking up values -/

/-- The value at a path below a node. -/
def valueAt (heap : Heap) : Addr → ContextKey → Option ContextValue
  | a, [] =>
      match (heap.node a).entry with
      | some (.blob value) => some value
      | _ => none
  | a, name :: key =>
      match (heap.node a).entry with
      | some (.tree tree) => (tree.get name).bind fun b => valueAt heap b key
      | _ => none

/-- The value at a path in a directory. -/
def treeValueAt (heap : Heap) (tree : Tree) : ContextKey → Option ContextValue
  | [] => none
  | name :: key => (tree.get name).bind fun b => valueAt heap b key

/-- The directory at a path. -/
def rawTree (heap : Heap) : Tree → ContextKey → Tree
  | root, [] => root
  | root, first :: rest =>
      match root.get first with
      | none => .empty
      | some a =>
          match (heap.node a).entry with
          | some (.tree tree) => rawTree heap tree rest
          | _ => .empty

theorem valueAt_concat (heap : Heap) (a : Addr) (path : ContextKey) (file : KeyFragment) :
    valueAt heap a (path ++ [file]) =
      match (heap.node a).entry with
      | some (.tree tree) => treeValueAt heap tree (path ++ [file])
      | _ => none := by
  cases path with
  | nil => rfl
  | cons name path => rfl

theorem treeValueAt_concat (heap : Heap) (root : Tree) (path : ContextKey) (file : KeyFragment) :
    treeValueAt heap root (path ++ [file]) =
      ((rawTree heap root path).get file).bind fun a => valueAt heap a [] := by
  induction path generalizing root with
  | nil => rfl
  | cons name path ih =>
      show (root.get name).bind (fun b => valueAt heap b (path ++ [file])) = _
      rw [rawTree]
      cases root.get name with
      | none => rfl
      | some a =>
          show valueAt heap a (path ++ [file]) = _
          rw [valueAt_concat]
          rcases hentry : (heap.node a).entry with _ | (tree | value | commit) <;>
            simp only [hentry]
          · rfl
          · exact ih tree
          · rfl
          · rfl

/-! ## Trees of one form -/

/-- A value, or a directory that is not empty. -/
inductive CanonicalNode (heap : Heap) (a : Addr) : Prop
  | leaf {value : ContextValue} (kind : (heap.node a).nodeKind = .leaf)
      (entry : (heap.node a).entry = some (.blob value))
  | directory {tree : Tree} (kind : (heap.node a).nodeKind = .nonLeaf)
      (entry : (heap.node a).entry = some (.tree tree)) (nonempty : tree.isEmpty = false)
      (older : ∀ p ∈ tree.entries, p.2 < a)

/-- All nodes have one form. -/
structure Canonical (heap : Heap) : Prop where
  nodes : ∀ a, a < heap.next → CanonicalNode heap a
  blank : ∀ a, heap.next ≤ a → (heap.node a).entryHash = none ∧ (heap.node a).entry = none

namespace Canonical

variable {heap : Heap}

theorem older (canonical : Canonical heap) {a : Addr} {tree : Tree} {p : KeyFragment × Addr}
    (hentry : (heap.node a).entry = some (.tree tree)) (hp : p ∈ tree.entries) : p.2 < a := by
  by_cases ha : a < heap.next
  · cases canonical.nodes a ha with
    | leaf kind entry =>
        rw [hentry] at entry
        cases entry
    | directory kind entry nonempty older =>
        rw [hentry] at entry
        cases entry
        exact older p hp
  · rw [(canonical.blank a (Nat.not_lt.mp ha)).2] at hentry
    cases hentry

theorem lt_next (canonical : Canonical heap) {a : Addr} {entry : Entry}
    (hentry : (heap.node a).entry = some entry) : a < heap.next := by
  by_contra ha
  rw [(canonical.blank a (Nat.not_lt.mp ha)).2] at hentry
  cases hentry

theorem within (canonical : Canonical heap) {a : Addr} {tree : Tree}
    (hentry : (heap.node a).entry = some (.tree tree)) : Within heap tree :=
  fun _ hp => (canonical.older hentry hp).trans (canonical.lt_next hentry)

/-- There is a value below every node. -/
theorem exists_valueAt (canonical : Canonical heap) {a : Addr} (ha : a < heap.next) :
    ∃ key value, valueAt heap a key = some value := by
  induction a using Nat.strong_induction_on with
  | _ a ih =>
      cases canonical.nodes a ha with
      | @leaf value kind entry =>
          refine ⟨[], value, ?_⟩
          rw [valueAt, entry]
      | @directory tree kind entry nonempty older =>
          obtain ⟨name, b, hb⟩ := OrdMap.isEmpty_eq_false_iff.mp nonempty
          have hlt := older (name, b) (OrdMap.mem_entries.mpr hb)
          obtain ⟨key, value, hvalue⟩ := ih b hlt (hlt.trans ha)
          refine ⟨name :: key, value, ?_⟩
          rw [valueAt, entry]
          show (tree.get name).bind _ = _
          rw [hb]
          exact hvalue

end Canonical

section Hashing

variable {S : Type} [KeyValueStoreBackend S] [LawfulStore S] [Digest] {w : World S}

/-- Directories whose nodes agree, name by name. -/
theorem bindings_congr {t₁ t₂ : Tree}
    (same : ∀ name, (t₁.get name).map (label w) = (t₂.get name).map (label w)) :
    bindings w t₁.entries = bindings w t₂.entries := by
  have hmap : t₁.mapValues (label w) = t₂.mapValues (label w) := by
    refine OrdMap.ext_get ?_
    intro name
    rw [OrdMap.get_mapValues, OrdMap.get_mapValues]
    exact same name
  exact congrArg OrdMap.entries hmap

/-- Two directories with the same values below the same names. -/
theorem treeHashOf_of_same {t₁ t₂ : Tree} (canonical : Canonical w.heap)
    (within₁ : Within w.heap t₁) (within₂ : Within w.heap t₂)
    (same : ∀ name key, (t₁.get name).bind (fun a => valueAt w.heap a key) =
      (t₂.get name).bind fun a => valueAt w.heap a key)
    (nodes : ∀ name a b, t₁.get name = some a → t₂.get name = some b →
      (∀ key, valueAt w.heap a key = valueAt w.heap b key) →
      (w.heap.node a).nodeKind = (w.heap.node b).nodeKind ∧
        ∀ h, HashOf w a h ↔ HashOf w b h) {h : EntryHash} :
    TreeHashOf w t₁ h ↔ TreeHashOf w t₂ h := by
  -- A name of one is a name of the other, as there is a value below it.
  have named : ∀ {t t' : Tree} {name : KeyFragment} {a : Addr}, Within w.heap t →
      (∀ name key, (t.get name).bind (fun a => valueAt w.heap a key) =
        (t'.get name).bind fun a => valueAt w.heap a key) →
      t.get name = some a → ∃ b, t'.get name = some b := by
    intro t t' name a within same ha
    obtain ⟨key, value, hvalue⟩ := canonical.exists_valueAt (within.get ha)
    have hsame := same name key
    rw [ha, Option.bind_some, hvalue] at hsame
    obtain ⟨b, hb, _⟩ := Option.bind_eq_some_iff.mp hsame.symm
    exact ⟨b, hb⟩
  have pair : ∀ {name a b}, t₁.get name = some a → t₂.get name = some b →
      (w.heap.node a).nodeKind = (w.heap.node b).nodeKind ∧ ∀ h, HashOf w a h ↔ HashOf w b h := by
    intro name a b ha hb
    refine nodes name a b ha hb ?_
    intro key
    have hsame := same name key
    rw [ha, hb] at hsame
    exact hsame
  have labels : ∀ name, (t₁.get name).map (label w) = (t₂.get name).map (label w) := by
    intro name
    cases ha : t₁.get name with
    | none =>
        cases hb : t₂.get name with
        | none => rfl
        | some b =>
            obtain ⟨a, ha'⟩ := named within₂ (fun name key => (same name key).symm) hb
            rw [ha] at ha'
            cases ha'
    | some a =>
        obtain ⟨b, hb⟩ := named within₁ same ha
        obtain ⟨kind, hash⟩ := pair ha hb
        have hsame : HashOf w a = HashOf w b := funext fun k => propext (hash k)
        rw [hb, Option.map_some, Option.map_some, label, label, hashAt, hashAt, kind, hsame]
  have hashed : Hashed w t₁.entries ↔ Hashed w t₂.entries := by
    constructor
    · rintro hashed ⟨name, b⟩ hb
      obtain ⟨a, ha⟩ := named within₂ (fun name key => (same name key).symm)
        (OrdMap.mem_entries.mp hb)
      obtain ⟨k, hk⟩ := hashed (name, a) (OrdMap.mem_entries.mpr ha)
      exact ⟨k, ((pair ha (OrdMap.mem_entries.mp hb)).2 k).mp hk⟩
    · rintro hashed ⟨name, a⟩ ha
      obtain ⟨b, hb⟩ := named within₁ same (OrdMap.mem_entries.mp ha)
      obtain ⟨k, hk⟩ := hashed (name, b) (OrdMap.mem_entries.mpr hb)
      exact ⟨k, ((pair (OrdMap.mem_entries.mp ha) hb).2 k).mpr hk⟩
  rw [TreeHashOf, TreeHashOf, hashed, bindings_congr labels]

/-- Nodes with the same values below them have the same kind and hash, when the hash is
that of the entry. -/
theorem hashOf_of_same (canonical : Canonical w.heap) (unknown : ∀ a, Unknown w a) {a b : Addr}
    (ha : a < w.heap.next) (hb : b < w.heap.next)
    (same : ∀ key, valueAt w.heap a key = valueAt w.heap b key) :
    (w.heap.node a).nodeKind = (w.heap.node b).nodeKind ∧ ∀ h, HashOf w a h ↔ HashOf w b h := by
  induction a using Nat.strong_induction_on generalizing b with
  | _ a ih =>
      cases canonical.nodes a ha with
      | @leaf value kind entry =>
          have here := same []
          rw [valueAt, entry, valueAt] at here
          cases canonical.nodes b hb with
          | @leaf value' kind' entry' =>
              rw [entry'] at here
              cases here
              have blob : ∀ {c : Addr} {h : EntryHash},
                  (w.heap.node c).entry = some (.blob value) →
                  (HashOf w c h ↔ h = Digest.blake2b (blobString value)) := by
                intro c h hentry
                constructor
                · intro hash
                  exact hash.unique (.blob (unknown c) hentry)
                · rintro rfl
                  exact .blob (unknown c) hentry
              exact ⟨kind.trans kind'.symm, fun h => (blob entry).trans (blob entry').symm⟩
          | directory kind' entry' =>
              rw [entry'] at here
              cases here
      | @directory tree kind entry nonempty older =>
          obtain ⟨key, value, hvalue⟩ := canonical.exists_valueAt ha
          cases canonical.nodes b hb with
          | @leaf value' kind' entry' =>
              -- The value of `b` is not one of a directory.
              have here := same []
              rw [valueAt, entry, valueAt, entry'] at here
              cases here
          | @directory tree' kind' entry' nonempty' older' =>
              refine ⟨kind.trans kind'.symm, ?_⟩
              intro h
              rw [hashOf_tree_iff (unknown a) entry, hashOf_tree_iff (unknown b) entry']
              refine treeHashOf_of_same canonical (canonical.within entry)
                (canonical.within entry') ?_ ?_
              · intro name key
                have hsame := same (name :: key)
                rw [valueAt, valueAt, entry, entry'] at hsame
                exact hsame
              · intro name c d hc hd hsame
                have hlt := older (name, c) (OrdMap.mem_entries.mpr hc)
                exact ih c hlt (hlt.trans ha) ((canonical.within entry').get hd) hsame

/-- Directories with the same bindings have the same hash. -/
theorem treeHashOf_of_bindings {t₁ t₂ : Tree} (canonical : Canonical w.heap)
    (unknown : ∀ a, Unknown w a) (within₁ : Within w.heap t₁) (within₂ : Within w.heap t₂)
    (same : ∀ key, treeValueAt w.heap t₁ key = treeValueAt w.heap t₂ key) {h : EntryHash} :
    TreeHashOf w t₁ h ↔ TreeHashOf w t₂ h := by
  refine treeHashOf_of_same canonical within₁ within₂ ?_ ?_
  · intro name key
    exact same (name :: key)
  · intro name a b ha hb hsame
    exact hashOf_of_same canonical unknown (within₁.get ha) (within₂.get hb) hsame

end Hashing

/-! ## States -/

section States

variable {S : Type} [KeyValueStoreBackend S] [LawfulStore S] [Digest] {w w' w'' : World S}

/-- What holds of nodes and store while trees are built: an id that a node keeps has the
hash of the node.  No id is `Known`, so that this is the hash of its entry. -/
structure Built (w : World S) : Prop where
  inv : Inv w.repo
  unknown : ∀ id, ¬ Known S id
  canonical : Canonical w.heap
  held : ∀ {a id}, (w.heap.node a).entryHash = some id →
    Live w.repo id ∧ ∃ h, HashOf w a h ∧ getHash id w.repo = .ok (some h)

namespace Built

theorem good (built : Built w) : Good w where
  inv := built.inv
  live := fun _ known => absurd known (built.unknown _)
  older := fun _ hentry hp => built.canonical.older hentry hp
  notCommit := by
    intro a commit _ hentry
    cases built.canonical.nodes a (built.canonical.lt_next hentry) with
    | leaf kind entry =>
        rw [hentry] at entry
        cases entry
    | directory kind entry =>
        rw [hentry] at entry
        cases entry

theorem region (built : Built w) : Region (fun a => a < w.heap.next) w where
  closed := fun ha _ hentry hp => (built.canonical.older hentry hp).trans ha
  held := fun _ hid _ => built.held hid

end Built

/-- A later state. -/
structure BuiltLater (w w' : World S) : Prop where
  built : Built w'
  next : w.heap.next ≤ w'.heap.next
  kind : ∀ a, a < w.heap.next → (w'.heap.node a).nodeKind = (w.heap.node a).nodeKind
  entry : ∀ a, a < w.heap.next → (w'.heap.node a).entry = (w.heap.node a).entry
  hashOf : ∀ a, a < w.heap.next → ∀ h, HashOf w' a h ↔ HashOf w a h

namespace BuiltLater

theorem refl (built : Built w) : BuiltLater w w :=
  ⟨built, le_refl _, fun _ _ => rfl, fun _ _ => rfl, fun _ _ _ => Iff.rfl⟩

theorem trans (h : BuiltLater w w') (h' : BuiltLater w' w'') : BuiltLater w w'' := by
  have lt : ∀ {a}, a < w.heap.next → a < w'.heap.next := fun ha => Nat.lt_of_lt_of_le ha h.next
  exact ⟨h'.built, h.next.trans h'.next, fun a ha => (h'.kind a (lt ha)).trans (h.kind a ha),
    fun a ha => (h'.entry a (lt ha)).trans (h.entry a ha),
    fun a ha k => (h'.hashOf a (lt ha) k).trans (h.hashOf a ha k)⟩

theorem ofStep (built : Built w) (step : Step (fun a => a < w.heap.next) w w') :
    BuiltLater w w' where
  built := by
    refine ⟨step.good.inv, built.unknown, ⟨?_, ?_⟩, ?_⟩
    · intro a ha
      rw [step.next] at ha
      cases built.canonical.nodes a ha with
      | leaf kind entry =>
          exact .leaf ((step.nodeKind a).trans kind) ((step.entry a).trans entry)
      | directory kind entry nonempty older =>
          exact .directory ((step.nodeKind a).trans kind) ((step.entry a).trans entry) nonempty older
    · intro a ha
      rw [step.next] at ha
      rw [step.outside a (Nat.not_lt.mpr ha)]
      exact built.canonical.blank a ha
    · intro a id hid
      by_cases ha : a < w.heap.next
      · exact step.region.held ha hid (built.unknown id)
      · rw [step.outside a ha, (built.canonical.blank a (Nat.not_lt.mp ha)).1] at hid
        cases hid
  next := step.next.ge
  kind := fun a _ => step.nodeKind a
  entry := fun a _ => step.entry a
  hashOf := fun a _ => step.hashOf a

/-- Making a node. -/
theorem alloc {node : Node} (built : Built w) (noId : node.entryHash = none)
    (canonical : CanonicalNode (w.heap.alloc node) w.heap.next) :
    BuiltLater w { w with heap := w.heap.alloc node } := by
  have old : ∀ a, a < w.heap.next → (w.heap.alloc node).node a = w.heap.node a :=
    fun a ha => Heap.alloc_node_of_lt ha node
  have hashOf : ∀ a, a < w.heap.next → ∀ h,
      HashOf { w with heap := w.heap.alloc node } a h ↔ HashOf w a h := by
    intro a ha h
    constructor
    · intro of
      refine Later.hashOf_mono ?_ ?_ ?_ ?_ ?_ of ha
      · intro b tree p hb _ hentry hp
        rw [show World.heap _ = w.heap.alloc node from rfl, old b hb] at hentry
        exact (built.canonical.older hentry hp).trans hb
      · exact fun b hb => by rw [old b hb]
      · exact fun b hb => by rw [old b hb]
      · exact fun b hb _ => by rw [old b hb]
      · exact fun _ _ _ _ _ => rfl
    · intro of
      refine Later.hashOf_mono ?_ ?_ ?_ ?_ ?_ of ha
      · exact fun hb _ hentry hp => (built.canonical.older hentry hp).trans hb
      · exact fun b hb => by rw [old b hb]
      · exact fun b hb => by rw [old b hb]
      · exact fun b hb _ => by rw [old b hb]
      · exact fun _ _ _ _ _ => rfl
  refine ⟨⟨built.inv, built.unknown, ⟨?_, ?_⟩, ?_⟩, Nat.le_succ _, fun a ha => by rw [old a ha],
    fun a ha => by rw [old a ha], hashOf⟩
  · intro a ha
    rcases Nat.lt_succ_iff_lt_or_eq.mp ha with hlt | rfl
    · cases built.canonical.nodes a hlt with
      | leaf kind entry =>
          exact .leaf (by rw [old a hlt]; exact kind) (by rw [old a hlt]; exact entry)
      | directory kind entry nonempty older =>
          exact .directory (by rw [old a hlt]; exact kind) (by rw [old a hlt]; exact entry)
            nonempty older
    · exact canonical
  · intro a ha
    rw [Heap.alloc_node_of_ne (Nat.ne_of_gt ha)]
    exact built.canonical.blank a (Nat.le_of_succ_le ha)
  · intro a id hid
    by_cases ha : a < w.heap.next
    · rw [old a ha] at hid
      obtain ⟨live, h, hash, hh⟩ := built.held hid
      exact ⟨live, h, (hashOf a ha h).mpr hash, hh⟩
    · by_cases hnext : a = w.heap.next
      · rw [hnext, Heap.alloc_node_self, noId] at hid
        cases hid
      · rw [Heap.alloc_node_of_ne hnext, (built.canonical.blank a (Nat.not_lt.mp ha)).1] at hid
        cases hid

/-- The hash of a directory stays. -/
theorem treeHashOf (h : BuiltLater w w') {tree : Tree} (within : Within w.heap tree)
    (k : EntryHash) : TreeHashOf w' tree k ↔ TreeHashOf w tree k := by
  have same : ∀ p ∈ tree.entries, HashOf w' p.2 = HashOf w p.2 := fun p hp =>
    funext fun k => propext (h.hashOf p.2 (within p hp) k)
  have hashed : Hashed w' tree.entries ↔ Hashed w tree.entries := by
    constructor
    · intro hashed p hp
      rw [← same p hp]
      exact hashed p hp
    · intro hashed p hp
      rw [same p hp]
      exact hashed p hp
  have hbindings : bindings w' tree.entries = bindings w tree.entries := by
    apply List.map_congr_left
    intro p hp
    rw [label, label, hashAt, hashAt, same p hp, h.kind p.2 (within p hp)]
  rw [TreeHashOf, TreeHashOf, hashed, hbindings]

end BuiltLater

/-! ## Building trees -/

/-- Every node has its entry, so that nothing is loaded. -/
theorem Built.findRawTree (built : Built w) {root : Tree} (within : Within w.heap root)
    (key : ContextKey) :
    TezedgeIndex.findRawTree root key w = (.ok (rawTree w.heap root key), w) ∧
      Within w.heap (rawTree w.heap root key) := by
  induction key generalizing root with
  | nil => exact ⟨rfl, within⟩
  | cons first rest ih =>
      rw [TezedgeIndex.findRawTree, rawTree]
      cases ha : root.get first with
      | none => exact ⟨rfl, Within.empty _⟩
      | some a =>
          show (TezedgeIndex.nodeEntry a >>= _) w = _ ∧ _
          cases built.canonical.nodes a (within.get ha) with
          | leaf kind entry =>
              rw [Exec.bind_ok (nodeEntry_loaded entry)]
              simp only [entry]
              exact ⟨rfl, Within.empty _⟩
          | directory kind entry =>
              rw [Exec.bind_ok (nodeEntry_loaded entry)]
              simp only [entry]
              exact ih (built.canonical.within entry)

theorem Built.getFromTree (built : Built w) {root : Tree} (within : Within w.heap root)
    (path : ContextKey) (file : KeyFragment) (value : ContextValue) :
    (WorkingTree.getFromTree root (path ++ [file]) w).1 = .ok value ↔
      treeValueAt w.heap root (path ++ [file]) = some value := by
  obtain ⟨found, within'⟩ := built.findRawTree within path
  rw [treeValueAt_concat, WorkingTree.getFromTree, List.getLast?_concat, List.dropLast_concat]
  show ((TezedgeIndex.findRawTree root path >>= _) w).1 = _ ↔ _
  rw [Exec.bind_ok found]
  cases ha : (rawTree w.heap root path).get file with
  | none => constructor <;> intro h <;> cases h
  | some a =>
      show ((TezedgeIndex.nodeEntry a >>= _) w).1 = _ ↔ valueAt w.heap a [] = _
      cases built.canonical.nodes a (within'.get ha) with
      | leaf kind entry =>
          rw [Exec.bind_ok (nodeEntry_loaded entry), valueAt, entry]
          exact ⟨fun h => by cases h; rfl, fun h => by cases h; rfl⟩
      | directory kind entry =>
          rw [Exec.bind_ok (nodeEntry_loaded entry), valueAt, entry]
          constructor <;> intro h <;> cases h

/-- What `find` answers is what is there. -/
theorem Built.find (built : Built w) {t : WorkingTree} (within : Within w.heap t.root)
    (key : ContextKey) (value : ContextValue) :
    (t.find key w).1 = .ok (some value) ↔ treeValueAt w.heap t.root key = some value := by
  have same : (t.find key w).1 = .ok (some value) ↔
      (WorkingTree.getFromTree t.root key w).1 = .ok value := by
    simp only [WorkingTree.find, Exec.handle, bind, Exec.bind]
    rcases WorkingTree.getFromTree t.root key w with ⟨v | e | _, w'⟩
    · exact ⟨fun h => by cases h; rfl, fun h => by cases h; rfl⟩
    · cases e <;> constructor <;> intro h <;> cases h
    · constructor <;> intro h <;> cases h
  rw [same]
  rcases List.eq_nil_or_concat key with rfl | ⟨path, file, rfl⟩
  · constructor <;> intro h <;> cases h
  · rw [List.concat_eq_append]
    exact built.getFromTree within path file value

theorem Built.wp_findRawTree (built : Built w) {root : Tree} (within : Within w.heap root)
    (key : ContextKey) :
    Exec.wp (TezedgeIndex.findRawTree root key) (fun t w' => w' = w ∧ Within w.heap t)
      (fun _ => False) w := by
  obtain ⟨found, within'⟩ := built.findRawTree within key
  rw [Exec.wp, found]
  exact ⟨rfl, within'⟩

theorem Built.wp_nodeEntry (built : Built w) {a : Addr} (ha : a < w.heap.next) :
    Exec.wp (TezedgeIndex.nodeEntry a) (fun _ w' => w' = w) (fun _ => False) w := by
  cases built.canonical.nodes a ha with
  | leaf kind entry =>
      rw [Exec.wp, nodeEntry_loaded entry]
  | directory kind entry =>
      rw [Exec.wp, nodeEntry_loaded entry]

/-- A node that may be put into a tree of the form. -/
inductive CanonicalNew (heap : Heap) : Node → Prop
  | leaf (value : ContextValue) : CanonicalNew heap (getLeaf (.blob value))
  | directory {tree : Tree} (within : Within heap tree) (nonempty : tree.isEmpty = false) :
      CanonicalNew heap (getNonLeaf (.tree tree))

namespace CanonicalNew

variable {heap heap' : Heap} {node : Node}

omit [Digest] in
theorem mono (new : CanonicalNew heap node) (next : heap.next ≤ heap'.next) :
    CanonicalNew heap' node := by
  cases new with
  | leaf value => exact .leaf value
  | directory within nonempty => exact .directory (within.mono next) nonempty

omit [Digest] in
theorem entryWithin (new : CanonicalNew heap node) {entry : Entry}
    (h : node.entry = some entry) : EntryWithin heap entry := by
  intro tree htree
  cases new with
  | leaf value =>
      cases h
      cases htree
  | directory within nonempty =>
      cases h
      cases htree
      exact within

theorem alloc (new : CanonicalNew w.heap node) (built : Built w) :
    BuiltLater w { w with heap := w.heap.alloc node } := by
  cases new with
  | leaf value =>
      have entry : ((w.heap.alloc (getLeaf (.blob value))).node w.heap.next).entry =
          some (.blob value) := by
        rw [Heap.alloc_node_self]
        rfl
      refine BuiltLater.alloc built rfl (.leaf ?_ entry)
      rw [Heap.alloc_node_self]
      rfl
  | @directory tree within nonempty =>
      refine BuiltLater.alloc built rfl (.directory ?_ ?_ nonempty within)
      · rw [Heap.alloc_node_self]
        rfl
      · rw [Heap.alloc_node_self]
        rfl

end CanonicalNew

theorem Built.computeNewRoot {root : Tree} (path : List KeyFragment) {node : Option Node}
    (built : Built w) (within : Within w.heap root)
    (new : ∀ n, node = some n → CanonicalNew w.heap n) :
    Exec.wp (WorkingTree.computeNewRoot root path node)
      (fun e w' => BuiltLater w w' ∧ EntryWithin w'.heap e) (fun w' => BuiltLater w w') w := by
  induction path generalizing w node with
  | nil =>
      cases node with
      | none =>
          refine ⟨BuiltLater.refl built, ?_⟩
          intro tree h
          cases h
          exact Within.empty _
      | some node =>
          refine Exec.wp_orFail _ _ ?_ fun _ => BuiltLater.refl built
          exact fun entry hentry => ⟨BuiltLater.refl built, (new node rfl).entryWithin hentry⟩
  | cons last path ih =>
      -- An empty directory is not put in its place: it is deleted there.
      have next : ∀ {tree : Tree} {w' : World S}, BuiltLater w w' → Within w'.heap tree →
          Exec.wp (if tree.isEmpty then WorkingTree.computeNewRoot root path none
              else WorkingTree.computeNewRoot root path (some (getNonLeaf (.tree tree))))
            (fun e w' => BuiltLater w w' ∧ EntryWithin w'.heap e)
            (fun w' => BuiltLater w w') w' := by
        intro tree w' later within'
        have root' := within.mono later.next
        split
        next =>
          refine Exec.wp_mono (ih later.built root' fun n h => nomatch h) ?_ ?_
          · exact fun e w'' h => ⟨later.trans h.1, h.2⟩
          · exact fun w'' h => later.trans h
        next nonempty =>
          refine Exec.wp_mono (ih later.built root' ?_) ?_ ?_
          · rintro n ⟨⟩
            exact .directory within' (Bool.eq_false_iff.mpr nonempty)
          · exact fun e w'' h => ⟨later.trans h.1, h.2⟩
          · exact fun w'' h => later.trans h
      rw [WorkingTree.computeNewRoot, Exec.wp_bind]
      refine Exec.wp_mono (built.wp_findRawTree within _) ?_ fun _ h => h.elim
      rintro tree _ ⟨rfl, within'⟩
      cases node with
      | none =>
          rw [Exec.wp_bind]
          exact next (BuiltLater.refl built) (within'.remove last)
      | some node =>
          have made := (new node rfl).alloc built
          rw [Exec.wp_bind]
          refine next made ((within'.mono made.next).insert ?_ last)
          exact Nat.lt_succ_self _

theorem Built.changed {root : Tree} {path : List KeyFragment} {node : Option Node}
    (built : Built w) (within : Within w.heap root)
    (new : ∀ n, node = some n → CanonicalNew w.heap n) :
    Exec.wp (do
        let entry ← WorkingTree.computeNewRoot root path node
        let tree ← entryTree entry
        pure (WorkingTree.tree tree) : Call S MerkleError WorkingTree)
      (fun tree w' => BuiltLater w w' ∧ Within w'.heap tree.root) (fun w' => BuiltLater w w') w := by
  rw [Exec.wp_bind]
  refine Exec.wp_mono (built.computeNewRoot path within new) ?_ fun _ h => h
  rintro entry w' ⟨later, within'⟩
  cases entry with
  | tree tree => exact ⟨later, within' rfl⟩
  | blob value => exact later
  | commit commit => exact later

/-! ## Whole runs -/

/-- What holds of a process that builds trees. -/
structure BuiltSession (s : Session S) : Prop where
  built : Built s.world
  contexts : ∀ c ∈ s.contexts, Within s.world.heap c.tree.root
  trees : ∀ t ∈ s.trees, CanonicalNew s.world.heap t.toNode

/-- A later state of such a process. -/
structure SessionBuilt (s s' : Session S) : Prop where
  session : BuiltSession s'
  later : BuiltLater s.world s'.world
  contexts : ∃ new, s'.contexts = s.contexts ++ new

namespace SessionBuilt

variable {s s' s'' : Session S}

theorem refl (session : BuiltSession s) : SessionBuilt s s :=
  ⟨session, BuiltLater.refl session.built, [], (List.append_nil _).symm⟩

theorem trans (h : SessionBuilt s s') (h' : SessionBuilt s' s'') : SessionBuilt s s'' := by
  obtain ⟨new, hnew⟩ := h.contexts
  obtain ⟨new', hnew'⟩ := h'.contexts
  exact ⟨h'.session, h.later.trans h'.later, new ++ new', by rw [hnew', hnew, List.append_assoc]⟩

theorem ofWorld {w : World S} (session : BuiltSession s) (later : BuiltLater s.world w) :
    SessionBuilt s { s with world := w } where
  session := ⟨later.built, fun c hc => (session.contexts c hc).mono later.next,
    fun t ht => (session.trees t ht).mono later.next⟩
  later := later
  contexts := ⟨[], (List.append_nil _).symm⟩

theorem keepContext {c : TezedgeContext} (session : BuiltSession s)
    (within : Within s.world.heap c.tree.root) :
    SessionBuilt s { s with contexts := s.contexts ++ [c] } where
  session := by
    refine ⟨session.built, ?_, session.trees⟩
    intro c' hc
    rcases List.mem_append.mp hc with hc | hc
    · exact session.contexts c' hc
    · rw [List.mem_singleton.mp hc]
      exact within
  later := BuiltLater.refl session.built
  contexts := ⟨[c], rfl⟩

theorem keepTree {t : WorkingTree} (session : BuiltSession s)
    (new : CanonicalNew s.world.heap t.toNode) :
    SessionBuilt s { s with trees := s.trees ++ [t] } where
  session := by
    refine ⟨session.built, session.contexts, ?_⟩
    intro t' ht
    rcases List.mem_append.mp ht with ht | ht
    · exact session.trees t' ht
    · rw [List.mem_singleton.mp ht]
      exact new
  later := BuiltLater.refl session.built
  contexts := ⟨[], (List.append_nil _).symm⟩

theorem context (h : SessionBuilt s s') {i : Nat} {c : TezedgeContext}
    (hc : s.contexts[i]? = some c) : s'.contexts[i]? = some c := by
  obtain ⟨new, hnew⟩ := h.contexts
  obtain ⟨hi, _⟩ := List.getElem?_eq_some_iff.mp hc
  rw [hnew, List.getElem?_append_left hi, hc]

end SessionBuilt

/-- Calls that build trees by adding and deleting, read them and hash them. -/
def Op.Builds : Op → Prop
  | .checkout _ | .copy .. | .hash .. | .commit .. | .cycleStarted => False
  | _ => True

variable {s : Session S}

theorem wp_buildTree {c : TezedgeContext} {x : Call S MerkleError WorkingTree}
    (session : BuiltSession s)
    (spec : Exec.wp x (fun t w => BuiltLater s.world w ∧ Within w.heap t.root)
      (fun w => BuiltLater s.world w) s.world) :
    Exec.wp (do
        let c ← Session.onWorld (do
          let tree ← Exec.mapErr ContextError.merkleStorageError x
          pure (c.withTree tree))
        Session.keepContext c) (fun _ s' => SessionBuilt s s') (fun s' => SessionBuilt s s') s := by
  rw [Exec.wp_bind, wp_onWorld, Exec.wp_bind, Exec.wp_mapErr]
  refine Exec.wp_mono spec ?_ fun w later => SessionBuilt.ofWorld session later
  rintro t w ⟨later, within⟩
  have made := SessionBuilt.ofWorld session later
  exact made.trans (SessionBuilt.keepContext made.session within)

/-- Reading changes nothing. -/
theorem wp_read {α : Type} {x : Call S MerkleError α} {reply : α → Reply}
    (session : BuiltSession s)
    (spec : Exec.wp x (fun _ w => w = s.world) (fun w => w = s.world) s.world) :
    Exec.wp (do
        let a ← Session.onWorld (Exec.mapErr ContextError.merkleStorageError x)
        pure (reply a)) (fun _ s' => SessionBuilt s s') (fun s' => SessionBuilt s s') s := by
  rw [Exec.wp_bind, wp_onWorld, Exec.wp_mapErr]
  refine Exec.wp_mono spec ?_ ?_
  · rintro a _ rfl
    exact SessionBuilt.refl session
  · rintro _ rfl
    exact SessionBuilt.refl session

theorem Built.wp_find (built : Built w) {t : WorkingTree} (within : Within w.heap t.root)
    (key : ContextKey) : Exec.wp (t.find key) (fun _ w' => w' = w) (fun w' => w' = w) w := by
  rw [WorkingTree.find]
  refine Exec.wp_handle (F := fun w' => w' = w) ?_ ?_ fun _ h => h
  · rw [Exec.wp_bind, WorkingTree.getFromTree]
    cases key.getLast? with
    | none => rfl
    | some file =>
        show Exec.wp (TezedgeIndex.findRawTree t.root key.dropLast >>= _) _ _ w
        rw [Exec.wp_bind]
        refine Exec.wp_mono (built.wp_findRawTree within _) ?_ fun _ h => h.elim
        rintro tree _ ⟨rfl, within'⟩
        rw [Exec.wp_bind]
        refine Exec.wp_orFail _ _ ?_ fun _ => rfl
        intro a ha
        rw [Exec.wp_bind]
        refine Exec.wp_mono (built.wp_nodeEntry (within'.get ha)) ?_ fun _ h => h.elim
        rintro entry _ rfl
        cases entry <;> rfl
  · rintro e _ rfl
    cases e <;> rfl

theorem Built.wp_mem (built : Built w) {t : WorkingTree} (within : Within w.heap t.root)
    (key : ContextKey) : Exec.wp (t.mem key) (fun _ w' => w' = w) (fun w' => w' = w) w := by
  rw [WorkingTree.mem]
  cases key.getLast? with
  | none => rfl
  | some file =>
      refine Exec.wp_handle (F := fun w' => w' = w) ?_ (fun _ _ h => h) fun _ h => h
      rw [Exec.wp_bind]
      exact Exec.wp_mono (built.wp_findRawTree within _) (fun _ _ h => h.1) fun _ h => h.elim

theorem Built.wp_memTree (built : Built w) {t : WorkingTree} (within : Within w.heap t.root)
    (key : ContextKey) : Exec.wp (t.memTree key) (fun _ w' => w' = w) (fun w' => w' = w) w := by
  rw [WorkingTree.memTree]
  refine Exec.wp_handle (F := fun w' => w' = w) ?_ (fun _ _ h => h) fun _ h => h
  rw [Exec.wp_bind]
  exact Exec.wp_mono (built.wp_findRawTree within key) (fun _ _ h => h.1) fun _ h => h.elim

/-- Hashing a tree gives the hash of what is there. -/
theorem Built.getMerkleRoot (built : Built w) {c : TezedgeContext}
    (within : Within w.heap c.tree.root) :
    Exec.wp c.getMerkleRoot (fun h w' => BuiltLater w w' ∧ TreeHashOf w c.tree.root h)
      (fun w' => BuiltLater w w') w := by
  refine Exec.wp_mono (getMerkleRoot_spec built.good built.region within within) ?_ ?_
  · exact fun h w' hh => ⟨BuiltLater.ofStep built hh.1, hh.2⟩
  · exact fun w' hh => BuiltLater.ofStep built hh.1

theorem perform_built {op : Op} (session : BuiltSession s) (builds : op.Builds) :
    Exec.wp (Session.perform op) (fun _ s' => SessionBuilt s s')
      (fun s' => SessionBuilt s s') s := by
  have absent := SessionBuilt.refl session
  have within : ∀ {i : Nat} {c : TezedgeContext}, s.contexts[i]? = some c →
      Within s.world.heap c.tree.root := fun hc => session.contexts _ (List.mem_of_getElem? hc)
  cases op with
  | new => exact SessionBuilt.keepContext session (Within.empty _)
  | checkout contextHash => exact builds.elim
  | add i key value =>
      refine wp_withContext (fun _ => absent) fun c hc => wp_buildTree session ?_
      refine session.built.changed (within hc) ?_
      rintro n ⟨⟩
      exact .leaf value
  | delete i key =>
      refine wp_withContext (fun _ => absent) fun c hc => wp_buildTree session ?_
      rw [WorkingTree.delete]
      split
      · exact ⟨BuiltLater.refl session.built, within hc⟩
      · exact session.built.changed (within hc) (by simp)
  | copy i fromKey toKey => exact builds.elim
  | addTree i key t =>
      refine wp_withContext (fun _ => absent) fun c hc => ?_
      rw [Exec.wp_bind, Exec.wp_gets]
      cases ht : s.trees[t]? with
      | none => exact absent
      | some tree =>
          refine wp_buildTree session (session.built.changed (within hc) ?_)
          rintro n ⟨⟩
          exact session.trees tree (List.mem_of_getElem? ht)
  | findTree i key =>
      refine wp_withContext (fun _ => absent) fun c hc => ?_
      rw [Exec.wp_bind, wp_onWorld, TezedgeContext.findTree, Exec.wp_mapErr, WorkingTree.findTree,
        Exec.wp_bind]
      refine Exec.wp_mono (session.built.wp_findRawTree (within hc) key) ?_ fun _ h => h.elim
      rintro tree _ ⟨rfl, within'⟩
      split
      next => exact absent
      next nonempty =>
        exact SessionBuilt.keepTree session (.directory within' (Bool.eq_false_iff.mpr nonempty))
  | find i key =>
      exact wp_withContext (fun _ => absent) fun c hc =>
        wp_read session (session.built.wp_find (within hc) key)
  | mem i key =>
      exact wp_withContext (fun _ => absent) fun c hc =>
        wp_read session (session.built.wp_mem (within hc) key)
  | memTree i key =>
      exact wp_withContext (fun _ => absent) fun c hc =>
        wp_read session (session.built.wp_memTree (within hc) key)
  | getMerkleRoot i =>
      refine wp_withContext (fun _ => absent) fun c hc => ?_
      rw [Exec.wp_bind, wp_onWorld]
      refine Exec.wp_mono (session.built.getMerkleRoot (within hc)) ?_ ?_
      · exact fun h w later => SessionBuilt.ofWorld session later.1
      · exact fun w later => SessionBuilt.ofWorld session later
  | hash i author message date => exact builds.elim
  | commit i author message date => exact builds.elim
  | cycleStarted => exact builds.elim

theorem Runs.built {s' : Session S} (run : Runs Op.Builds s s') (session : BuiltSession s) :
    SessionBuilt s s' := by
  induction run with
  | refl => exact SessionBuilt.refl session
  | tail _ step ih =>
      obtain ⟨op, builds, rfl⟩ := step
      exact ih.trans (Exec.wp_state (perform_built ih.session builds))

/-- A process that has made no node yet. -/
theorem builtSession_new {repo : S} (inv : Inv repo) (unknown : ∀ id, ¬ Known S id) :
    BuiltSession ⟨⟨.empty, repo⟩, [], []⟩ where
  built := by
    refine ⟨inv, unknown, ⟨?_, fun _ _ => ⟨rfl, rfl⟩⟩, ?_⟩
    · exact fun a ha => absurd ha (Nat.not_lt_zero a)
    · intro a id hid
      cases hid
  contexts := fun _ h => absurd h List.not_mem_nil
  trees := fun _ h => absurd h List.not_mem_nil

/-- What `find` answers after a run is what is there. -/
theorem Runs.find_iff {repo : S} {i : Nat} {c : TezedgeContext} (inv : Inv repo)
    (forgets : ∀ id, ¬ Known S id) (run : Runs Op.Builds ⟨⟨.empty, repo⟩, [], []⟩ s)
    (hi : s.contexts[i]? = some c) (key : ContextKey) (value : ContextValue) :
    (c.tree.find key s.world).1 = .ok (some value) ↔
      treeValueAt s.world.heap c.tree.root key = some value := by
  have session := (run.built (builtSession_new inv forgets)).session
  exact session.built.find (session.contexts c (List.mem_of_getElem? hi)) key value

/-- Trees with the same bindings have the same hash, then and later. -/
theorem Runs.hash_eq {repo : S} {s s₁ s₂ : Session S} {i j : Nat} {c₁ c₂ : TezedgeContext}
    {h₁ h₂ : EntryHash} (inv : Inv repo) (forgets : ∀ id, ¬ Known S id)
    (run : Runs Op.Builds ⟨⟨.empty, repo⟩, [], []⟩ s) (hi : s.contexts[i]? = some c₁)
    (hj : s.contexts[j]? = some c₂)
    (same : ∀ key value, (c₁.tree.find key s.world).1 = .ok (some value) ↔
      (c₂.tree.find key s.world).1 = .ok (some value))
    (run₁ : Runs Op.Builds s s₁) (hash₁ : (c₁.tree.hash s₁.world).1 = .ok h₁)
    (run₂ : Runs Op.Builds s s₂) (hash₂ : (c₂.tree.hash s₂.world).1 = .ok h₂) : h₁ = h₂ := by
  have session := (run.built (builtSession_new inv forgets)).session
  have within₁ := session.contexts c₁ (List.mem_of_getElem? hi)
  have within₂ := session.contexts c₂ (List.mem_of_getElem? hj)
  have values : ∀ key, treeValueAt s.world.heap c₁.tree.root key =
      treeValueAt s.world.heap c₂.tree.root key := by
    intro key
    refine Option.ext fun value => ?_
    rw [← run.find_iff inv forgets hi, ← run.find_iff inv forgets hj]
    exact same key value
  -- The hash a tree has in a later state is the one it has here.
  have answer : ∀ {s' : Session S} {c : TezedgeContext} {h : EntryHash}, Runs Op.Builds s s' →
      Within s.world.heap c.tree.root → (c.tree.hash s'.world).1 = .ok h →
      TreeHashOf s.world c.tree.root h := by
    intro s' c h run within hash
    have later := (run.built session).later
    have spec := later.built.getMerkleRoot (c := c) (within.mono later.next)
    have call : c.getMerkleRoot s'.world = (.ok h, (c.tree.hash s'.world).2) := by
      rw [TezedgeContext.getMerkleRoot, Exec.mapErr]
      rcases hrun : c.tree.hash s'.world with ⟨outcome, w'⟩
      rw [hrun] at hash
      rw [show outcome = .ok h from hash]
    exact (later.treeHashOf within h).mp (Exec.wp_ok spec call).2
  have treeHash₁ := answer run₁ within₁ hash₁
  have treeHash₂ := answer run₂ within₂ hash₂
  have unknown : ∀ a, Unknown s.world a := fun a id _ => session.built.unknown id
  have same₁ := (treeHashOf_of_bindings session.built.canonical unknown within₁ within₂
    values).mp treeHash₁
  exact same₁.2.unique treeHash₂.2

end States

/-- `Keeps` is about the ids in use only. -/
theorem Keeps.ofLive {S : Type} [KeyValueStoreBackend S] {v v' : StoreView S} {s s' : S}
    (live : v.Live = v'.Live) (h : @Keeps S _ v s s') : @Keeps S _ v' s s' := by
  obtain ⟨old, blank, contexts⟩ := h
  rw [live] at old blank
  exact @Keeps.mk _ _ v' _ _ old blank contexts

/-- A store, looked at as one whose ids do not stay. -/
@[reducible] def forgetful {S : Type} [KeyValueStoreBackend S] (store : LawfulStore S) :
    LawfulStore S where
  Inv := store.Inv
  Live := store.Live
  Known := fun _ => False
  Exhausted := store.Exhausted
  vacant := by
    intro h s inv
    refine Exec.wp_mono (store.vacant h s inv) ?_ ?_
    · rintro id s' ⟨inv', fresh, live, hash, value, keeps⟩
      exact ⟨inv', fresh, live, hash, value, keeps.ofLive (v := store.toStoreView) rfl⟩
    · rintro s' ⟨inv', exhausted, keeps⟩
      exact ⟨inv', exhausted, keeps.ofLive (v := store.toStoreView) rfl⟩

/-- Two trees that were built from the empty one by adding and deleting, in any order and
from any trees that were there, have the same hash when they have the same bindings. -/
theorem hash_history_independent {S : Type} [KeyValueStoreBackend S] [LawfulStore S] [Digest]
    {repo : S} {s s₁ s₂ : Session S} {i j : Nat} {c₁ c₂ : TezedgeContext} {h₁ h₂ : EntryHash}
    (inv : Inv repo) (run : Runs Op.Builds ⟨⟨.empty, repo⟩, [], []⟩ s)
    (hi : s.contexts[i]? = some c₁) (hj : s.contexts[j]? = some c₂)
    (same : ∀ key value, (c₁.tree.find key s.world).1 = .ok (some value) ↔
      (c₂.tree.find key s.world).1 = .ok (some value))
    (run₁ : Runs Op.Builds s s₁) (hash₁ : (c₁.tree.hash s₁.world).1 = .ok h₁)
    (run₂ : Runs Op.Builds s s₂) (hash₂ : (c₂.tree.hash s₂.world).1 = .ok h₂) : h₁ = h₂ := by
  exact @Runs.hash_eq S _ (forgetful ‹_›) _ repo s s₁ s₂ i j c₁ c₂ h₁ h₂ inv (fun _ h => h) run
    hi hj same run₁ hash₁ run₂ hash₂

section Sample

local instance historyDigest : Digest := sampleDigest

/-- A value that was added at once, and one that replaced another. -/
def rewritten : Session System :=
  Session.after ⟨⟨.empty, .new false []⟩, [], []⟩
    [.new, .add 0 ["a"] [1], .add 0 ["a"] [2], .getMerkleRoot 2, .add 2 ["a"] [1]]

/-- A tree with one node. -/
def oneNode (a : Addr) : TezedgeContext := ⟨none, .tree (OrdMap.empty.insert "a" a)⟩

theorem treeValueAt_oneNode {heap : Heap} {a : Addr} {value : ContextValue}
    (hentry : (heap.node a).entry = some (.blob value)) (key : ContextKey) :
    treeValueAt heap (oneNode a).tree.root key = if key = ["a"] then some value else none := by
  cases key with
  | nil => rfl
  | cons name key =>
      show ((OrdMap.empty.insert "a" a).get name).bind _ = _
      rw [OrdMap.get_insert, OrdMap.get_empty]
      by_cases hname : name = "a"
      · subst hname
        rw [if_pos rfl, Option.bind_some]
        cases key with
        | nil => rw [valueAt, hentry, if_pos rfl]
        | cons name key => rw [valueAt, hentry, if_neg (by simp)]
      · rw [if_neg (Ne.symm hname), if_neg (by simp [hname])]
        rfl

theorem hash_history_independent_rewritten :
    ∃ h, ((oneNode 0).tree.hash rewritten.world).1 = .ok h ∧
      ((oneNode 2).tree.hash rewritten.world).1 = .ok h := by
  have run : Runs Op.Builds ⟨⟨.empty, .new false []⟩, [], []⟩ rewritten := by
    refine runs_after ?_
    simp [Op.Builds]
  have inv : Inv (System.new false []) := System.inv_new false []
  obtain ⟨h₁, hash₁⟩ : ∃ h, ((oneNode 0).tree.hash rewritten.world).1 = .ok h :=
    Outcome.exists_of_isOk (by decide +kernel)
  obtain ⟨h₂, hash₂⟩ : ∃ h, ((oneNode 2).tree.hash rewritten.world).1 = .ok h :=
    Outcome.exists_of_isOk (by decide +kernel)
  have hi : rewritten.contexts[1]? = some (oneNode 0) := by decide +kernel
  have hj : rewritten.contexts[3]? = some (oneNode 2) := by decide +kernel
  have same := hash_history_independent inv run hi hj ?_ .refl hash₁ .refl hash₂
  · exact ⟨h₁, hash₁, by rw [same]; exact hash₂⟩
  · intro key value
    have found : ∀ {i : Nat} {a : Addr}, rewritten.contexts[i]? = some (oneNode a) →
        (rewritten.world.heap.node a).entry = some (.blob [1]) →
        (((oneNode a).tree.find key rewritten.world).1 = .ok (some value) ↔
          (if key = ["a"] then some [1] else none) = some value) := by
      intro i a hi hentry
      rw [← treeValueAt_oneNode hentry key]
      exact @Runs.find_iff System _ (forgetful inferInstance) _ _ _ _ _ inv (fun _ h => h) run
        hi key value
    rw [found hi (by decide +kernel), found hj (by decide +kernel)]

end Sample

end NodeFuzzer
