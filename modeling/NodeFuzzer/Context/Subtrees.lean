import NodeFuzzer.Context.Durable
import NodeFuzzer.Context.Grafting
import NodeFuzzer.Context.History
import NodeFuzzer.Context.Honest
import NodeFuzzer.Context.Listing
import NodeFuzzer.Context.Regular

/-!
# Adding a subtree

`add_tree` puts a directory in place, and `find_tree` of the key then returns the very tree
that was added.  When it is what was there before, the nodes on the path are made anew: they
have lost their ids, but have the hashes they had, as the ids of the old ones are right
(`Honest`).
-/

namespace NodeFuzzer

open KeyValueStoreBackend StoreView

/-! ## Directories that are loaded -/

/-- The directory at a path, where all nodes on the path have their entries. -/
inductive LoadedAt (heap : Heap) : Tree → ContextKey → Tree → Prop
  | here (tree : Tree) : LoadedAt heap tree [] tree
  | step {root tree found : Tree} {name : KeyFragment} {key : ContextKey} {a : Addr}
      (get : root.get name = some a) (entry : (heap.node a).entry = some (.tree tree))
      (rest : LoadedAt heap tree key found) : LoadedAt heap root (name :: key) found

namespace LoadedAt

theorem concat {heap : Heap} {root found : Tree} {key : ContextKey} {name : KeyFragment}
    (h : LoadedAt heap root (key ++ [name]) found) :
    ∃ tree a, LoadedAt heap root key tree ∧ tree.get name = some a ∧
      (heap.node a).entry = some (.tree found) := by
  induction key generalizing root with
  | nil =>
      cases h with
      | step get entry rest =>
          cases rest
          exact ⟨root, _, .here root, get, entry⟩
  | cons first key ih =>
      cases h with
      | step get entry rest =>
          obtain ⟨tree, a, loaded, here, last⟩ := ih rest
          exact ⟨tree, a, .step get entry loaded, here, last⟩

theorem snoc {heap : Heap} {root tree found : Tree} {key : ContextKey} {name : KeyFragment}
    {a : Addr} (h : LoadedAt heap root key tree) (get : tree.get name = some a)
    (entry : (heap.node a).entry = some (.tree found)) :
    LoadedAt heap root (key ++ [name]) found := by
  induction h with
  | here tree => exact .step get entry (.here found)
  | step get' entry' _ ih => exact .step get' entry' (ih get)

variable {S : Type} {w w' : World S}

theorem within {root found : Tree} {key : ContextKey} (h : LoadedAt w.heap root key found)
    (tight : Tight w.heap) (within : Within w.heap root) : Within w.heap found := by
  induction h with
  | here tree => exact within
  | step get entry _ ih => exact ih (tight (within.get get) entry)

theorem keep {root found : Tree} {key : ContextKey} (h : LoadedAt w.heap root key found)
    (tight : Tight w.heap) (within : Within w.heap root) (keeping : Keeping w w') :
    LoadedAt w'.heap root key found := by
  induction h with
  | here tree => exact .here tree
  | step get entry _ ih =>
      have lt := within.get get
      exact .step get (keeping.entry lt entry) (ih (tight lt entry))

variable [KeyValueStoreBackend S]

/-- It is found without loading anything. -/
theorem find {root found : Tree} {key : ContextKey} (h : LoadedAt w.heap root key found) :
    TezedgeIndex.findRawTree root key w = (.ok found, w) := by
  induction h with
  | here tree => rfl
  | step get entry _ ih =>
      simp only [TezedgeIndex.findRawTree, get]
      exact (Exec.bind_ok (nodeEntry_loaded entry)).trans ih

end LoadedAt

section Loading

variable {S : Type} [KeyValueStoreBackend S] {w w' : World S}

/-- The nodes of a directory that `node_entry` loads are new. -/
theorem nodeEntry_new {a : Addr} (unloaded : (w.heap.node a).entry = none) :
    Exec.wp (TezedgeIndex.nodeEntry a)
      (fun entry _ => ∀ tree, entry = .tree tree → ∀ p ∈ tree.entries, w.heap.next ≤ p.2)
      (fun _ => True) w := by
  rw [TezedgeIndex.nodeEntry, Exec.wp_bind, Call.readNode, Exec.wp_gets, unloaded]
  cases (w.heap.node a).entryHash with
  | none => trivial
  | some id =>
      show Exec.wp (TezedgeIndex.getEntry id >>= _) _ _ w
      rw [Exec.wp_bind, TezedgeIndex.getEntry, Exec.wp_bind, Exec.wp_mapErr,
        TezedgeIndex.findEntry, Exec.wp_bind]
      refine Exec.wp_query _ ?_ fun _ _ => trivial
      intro bytes _
      cases bytes with
      | none => trivial
      | some value =>
          rw [Exec.wp_bind]
          cases value with
          | tree entries =>
              intro tree htree p hp
              cases htree
              obtain ⟨i, _, _, hi⟩ := OrdMap.mem_mapPosition.mp hp
              rw [hi]
              exact Nat.le_add_right _ i
          | blob value =>
              intro tree h
              cases h
          | commit commit =>
              intro tree h
              cases h
          | invalid => trivial

/-- Below nodes that are not loaded only newer ones are found. -/
theorem findRawTree_new {root found : Tree} {key : ContextKey} {n : Addr}
    (tight : Tight w.heap) (within : Within w.heap root)
    (unloaded : ∀ b, n ≤ b → b < w.heap.next → (w.heap.node b).entry = none)
    (new : ∀ p ∈ root.entries, n ≤ p.2)
    (run : TezedgeIndex.findRawTree root key w = (.ok found, w')) :
    ∀ p ∈ found.entries, n ≤ p.2 := by
  induction key generalizing w root n with
  | nil =>
      cases run
      exact new
  | cons first rest ih =>
      rw [TezedgeIndex.findRawTree] at run
      cases ha : root.get first with
      | none =>
          rw [ha] at run
          cases run
          intro p hp
          cases hp
      | some a =>
          rw [ha] at run
          have lt := within.get ha
          have old := new _ (OrdMap.mem_entries.mpr ha)
          obtain ⟨entry, w₁, load, goOn⟩ := Exec.of_bind_ok run
          have fresh := Exec.wp_ok (nodeEntry_new (unloaded a old lt)) load
          have unpacks := Exec.wp_ok (nodeEntry_unpacks lt) load
          obtain ⟨reads, within₁, _⟩ := Exec.wp_ok (nodeEntry_reads tight lt) load
          cases entry with
          | tree tree =>
              have below := @ih w₁ tree w.heap.next reads.tight (within₁ rfl) ?_
                (fresh tree rfl) goOn
              · exact fun p hp => (Nat.le_of_lt (Nat.lt_of_le_of_lt old lt)).trans (below p hp)
              · intro b hb hlt
                obtain ⟨_, _, p, _, _, _, node⟩ := unpacks.new b hb hlt
                rw [node]
                rfl
          | blob value =>
              cases goOn
              intro p hp
              cases hp
          | commit commit => cases goOn

/-- A directory of nodes that exist is found where it is loaded. -/
theorem loadedAt_of_find {root found : Tree} {key : ContextKey} (tight : Tight w.heap)
    (within : Within w.heap root) (nonempty : found.isEmpty = false)
    (old : Within w.heap found) (run : TezedgeIndex.findRawTree root key w = (.ok found, w')) :
    LoadedAt w.heap root key found := by
  induction key generalizing root with
  | nil =>
      cases run
      exact .here _
  | cons first rest ih =>
      rw [TezedgeIndex.findRawTree] at run
      cases ha : root.get first with
      | none =>
          rw [ha] at run
          cases run
          cases nonempty
      | some a =>
          rw [ha] at run
          have lt := within.get ha
          obtain ⟨entry, w₁, load, goOn⟩ := Exec.of_bind_ok run
          cases he : (w.heap.node a).entry with
          | some _ =>
              rw [nodeEntry_loaded he] at load
              cases load
              cases entry with
              | tree tree => exact .step ha he (ih (tight lt he) goOn)
              | blob value =>
                  cases goOn
                  cases nonempty
              | commit commit => cases goOn
          | none =>
              -- What is loaded now is newer than the nodes that were found.
              have fresh := Exec.wp_ok (nodeEntry_new he) load
              have unpacks := Exec.wp_ok (nodeEntry_unpacks lt) load
              obtain ⟨reads, within₁, _⟩ := Exec.wp_ok (nodeEntry_reads tight lt) load
              cases entry with
              | tree tree =>
                  have new := findRawTree_new reads.tight (within₁ rfl) ?_ (fresh tree rfl) goOn
                  · obtain ⟨name, b, hb⟩ := OrdMap.isEmpty_eq_false_iff.mp nonempty
                    have mem := OrdMap.mem_entries.mpr hb
                    exact absurd (old _ mem) (Nat.not_lt.mpr (new _ mem))
                  · intro b hb hlt
                    obtain ⟨_, _, p, _, _, _, node⟩ := unpacks.new b hb hlt
                    rw [node]
                    rfl
              | blob value =>
                  cases goOn
                  cases nonempty
              | commit commit => cases goOn

omit [KeyValueStoreBackend S] in
theorem Keeping.alloc (w : World S) (node : Node) :
    Keeping w { w with heap := w.heap.alloc node } where
  next := Nat.le_succ _
  entry := by
    intro a e ha he
    rw [Heap.alloc_node_of_lt ha]
    exact he

/-- The directory that was put in place is found there. -/
theorem computeNewRoot_finds {root found : Tree} (path : List KeyFragment) {node : Node}
    (tight : Tight w.heap) (within : Within w.heap root)
    (hentry : node.entry = some (.tree found)) (hfound : Within w.heap found) :
    Exec.wp (WorkingTree.computeNewRoot root path (some node))
      (fun entry w' => Keeping w w' ∧ ∃ tree, entry = .tree tree ∧
        LoadedAt w'.heap tree path.reverse found)
      (fun _ => True) w := by
  induction path generalizing w node found with
  | nil =>
      rw [WorkingTree.computeNewRoot, hentry]
      exact ⟨Keeping.refl w, found, rfl, .here found⟩
  | cons last path ih =>
      rw [WorkingTree.computeNewRoot, Exec.wp_bind]
      refine Exec.wp_mono (Exec.wp_and (findRawTree_reads tight within path.reverse)
        (findRawTree_again tight within path.reverse)) ?_ fun _ _ => trivial
      intro tree w₁ h
      obtain ⟨⟨reads, within₁, _, _⟩, keeping, _⟩ := h
      rw [Exec.wp_bind]
      show Exec.wp (if (tree.insert last w₁.heap.next).isEmpty then _ else _) _ _
        { w₁ with heap := w₁.heap.alloc node }
      rw [insert_isEmpty, if_neg Bool.false_ne_true]
      have made : Reads w₁ { w₁ with heap := w₁.heap.alloc node } := by
        refine Reads.alloc reads.tight ?_
        intro tree htree
        rw [hentry] at htree
        cases htree
        exact hfound.mono reads.next
      have within₂ : Within (w₁.heap.alloc node) (tree.insert last w₁.heap.next) :=
        (within₁.mono made.next).insert (Nat.lt_succ_self _) last
      refine Exec.wp_mono (ih made.tight (within.mono (reads.next.trans made.next)) rfl
        within₂) ?_ fun _ h => h
      intro entry w₃ h
      obtain ⟨keeping₃, root', hroot, loaded⟩ := h
      refine ⟨(keeping.trans (.alloc w₁ node)).trans keeping₃, root', hroot, ?_⟩
      rw [List.reverse_cons]
      refine loaded.snoc (OrdMap.get_insert_self tree last w₁.heap.next) ?_
      refine keeping₃.entry (Nat.lt_succ_self _) ?_
      rw [← hentry, Heap.alloc_node_self]

end Loading

/-! ## Directories with the same hash -/

section Hashes

variable {S : Type} [KeyValueStoreBackend S] [LawfulStore S] [Digest] {w w' : World S}

/-- The directories have the same hash, or none. -/
def SameHash (w : World S) (tree tree' : Tree) : Prop :=
  ∀ h, TreeHashOf w tree h ↔ TreeHashOf w tree' h

theorem SameHash.later {tree tree' : Tree} (same : SameHash w tree tree') (later : Later w w')
    (within : Within w.heap tree) (within' : Within w.heap tree') : SameHash w' tree tree' := by
  intro h
  rw [later.treeHashOf within, later.treeHashOf within']
  exact same h

/-- A node is replaced by one of its kind and hash. -/
theorem SameHash.insert {tree : Tree} {name : KeyFragment} {a b : Addr}
    (ha : tree.get name = some a) (kind : (w.heap.node b).nodeKind = (w.heap.node a).nodeKind)
    (hash : ∀ h, HashOf w b h ↔ HashOf w a h) : SameHash w tree (tree.insert name b) := by
  have same : HashOf w b = HashOf w a := funext fun h => propext (hash h)
  have labels : ∀ other, (tree.get other).map (label w) =
      ((tree.insert name b).get other).map (label w) := by
    intro other
    rw [OrdMap.get_insert]
    by_cases h : name = other
    · rw [if_pos h, ← h, ha, Option.map_some, Option.map_some, label, label, kind, hashAt, hashAt,
        same]
    · rw [if_neg h]
  have hashed : Hashed w tree.entries ↔ Hashed w (tree.insert name b).entries := by
    constructor
    · intro hashed p hp
      have get := OrdMap.mem_entries.mp hp
      rw [OrdMap.get_insert] at get
      by_cases h : name = p.1
      · rw [if_pos h] at get
        cases get
        rw [same]
        exact hashed (name, a) (OrdMap.mem_entries.mpr ha)
      · rw [if_neg h] at get
        exact hashed p (OrdMap.mem_entries.mpr get)
    · intro hashed p hp
      have get := OrdMap.mem_entries.mp hp
      by_cases h : name = p.1
      · rw [← h, ha] at get
        obtain ⟨k, hk⟩ := hashed (name, b)
          (OrdMap.mem_entries.mpr (OrdMap.get_insert_self tree name b))
        rw [← Option.some.inj get]
        exact ⟨k, (hash k).mp hk⟩
      · refine hashed p (OrdMap.mem_entries.mpr ?_)
        rw [OrdMap.get_insert, if_neg h]
        exact get
  intro h
  rw [TreeHashOf, TreeHashOf, hashed, bindings_congr labels]

/-- The hash of a node with an entry is the one of the entry, with or without an id. -/
theorem Honest.hashOf_iff (honest : Honest w) (sound : Sound w)
    (hashes : ∀ {id}, Live w.repo id → ∃ h, getHash id w.repo = .ok (some h)) {a : Addr}
    {tree : Tree} (ha : a < w.heap.next) (he : (w.heap.node a).entry = some (.tree tree))
    (h : EntryHash) : HashOf w a h ↔ TreeHashOf w tree h := by
  have right : ∀ {k}, HashOf w a k → TreeHashOf w tree k := by
    intro k hash
    cases honest.node ha he hash with
    | tree treeHash => exact treeHash
  refine ⟨right, ?_⟩
  intro treeHash
  by_cases unknown : Unknown w a
  · exact (hashOf_tree_iff unknown he).mpr treeHash
  · obtain ⟨id, hid, known⟩ : ∃ id, (w.heap.node a).entryHash = some id ∧ Known S id := by
      simpa [Unknown] using unknown
    obtain ⟨k, hk⟩ := hashes ((sound.nodes a).live hid known)
    have hash : HashOf w a k := .known hid known hk
    rw [treeHash.2.unique (right hash).2]
    exact hash

/-- A directory is replaced by one with its hash. -/
theorem computeNewRoot_sameHash {root tree tree' : Tree} (path : List KeyFragment)
    {rank : HashId → Nat} (sound : Sound w) (honest : Honest w) (ranked : Ranked w rank)
    (known : ∀ id, Known S id)
    (hashes : ∀ {id}, Live w.repo id → ∃ h, getHash id w.repo = .ok (some h))
    (within : Within w.heap root) (loaded : LoadedAt w.heap root path.reverse tree)
    (within' : Within w.heap tree') (same : SameHash w tree tree') :
    Exec.wp (WorkingTree.computeNewRoot root path (some (getNonLeaf (.tree tree'))))
      (fun entry w' => Later w w' ∧ ∃ root', entry = .tree root' ∧ SameHash w' root root')
      (fun _ => False) w := by
  induction path generalizing w tree tree' with
  | nil =>
      cases loaded
      exact ⟨Later.refl sound, tree', rfl, same⟩
  | cons last path ih =>
      rw [List.reverse_cons] at loaded
      obtain ⟨parent, a, above, ha, he⟩ := loaded.concat
      have tight : Tight w.heap := fun _ hentry => (sound.nodes _).within hentry
      have withinParent := above.within tight within
      have lt := withinParent.get ha
      have find : Exec.wp (TezedgeIndex.findRawTree root path.reverse)
          (fun found w' => found = parent ∧ w' = w) (fun _ => False) w := by
        rw [Exec.wp, above.find]
        exact ⟨rfl, rfl⟩
      rw [WorkingTree.computeNewRoot, Exec.wp_bind]
      refine Exec.wp_mono find ?_ fun _ h => h
      intro found w₀ h
      obtain ⟨rfl, rfl⟩ := h
      rw [Exec.wp_bind]
      show Exec.wp (if (found.insert last w₀.heap.next).isEmpty then _ else _) _ _
        { w₀ with heap := w₀.heap.alloc (getNonLeaf (.tree tree')) }
      rw [insert_isEmpty, if_neg Bool.false_ne_true]
      obtain ⟨w₁, hw₁⟩ : ∃ w₁ : World S,
        w₁ = { w₀ with heap := w₀.heap.alloc (getNonLeaf (.tree tree')) } := ⟨_, rfl⟩
      have new : NewNode w₀.heap (getNonLeaf (.tree tree')) := .nonLeaf within'
      have grows : Grows w₀ w₁ :=
        hw₁ ▸ Grows.alloc sound new.commited new.noId new.hasEntry new.within new.plain
      have later := Later.ofGrows sound grows
      have honest₁ := honest.grows sound known grows
      have ranked₁ : Ranked w₁ rank := hw₁ ▸ ranked.alloc (.directory within' trivial)
      have hashes₁ : ∀ {id}, Live w₁.repo id → ∃ h, getHash id w₁.repo = .ok (some h) := by
        rw [grows.repo]
        exact hashes
      have put : w₁.heap.node w₀.heap.next = getNonLeaf (.tree tree') := by
        rw [hw₁, Heap.alloc_node_self]
      have made : w₀.heap.next < w₁.heap.next := by
        rw [hw₁]
        exact Nat.lt_succ_self _
      rw [← hw₁]
      have he₁ := grows.entry a lt _ he
      -- The node that is made has the kind and the hash of the one it replaces.
      have same₁ : SameHash w₁ found (found.insert last w₀.heap.next) := by
        refine .insert ha ?_ ?_
        · have kind : (w₁.heap.node a).nodeKind = .nonLeaf := ranked₁.fits he₁
          rw [kind, put]
          rfl
        · intro h
          rw [honest₁.hashOf_iff grows.sound hashes₁ (Nat.lt_of_lt_of_le lt grows.next) he₁,
            honest₁.hashOf_iff grows.sound hashes₁ made (by rw [put]; rfl)]
          exact (same.later later (loaded.within tight within) within' h).symm
      have above₁ : LoadedAt w₁.heap root path.reverse found :=
        above.keep tight within (hw₁ ▸ Keeping.alloc w₀ _)
      refine Exec.wp_mono (ih grows.sound honest₁ ranked₁ hashes₁ (within.mono grows.next) above₁
        ((withinParent.mono grows.next).insert made last) same₁) ?_ fun _ h => h
      intro entry w' h
      obtain ⟨later', root', hroot, same'⟩ := h
      exact ⟨later.trans later', root', hroot, same'⟩

/-- What `hash` returns is the hash of the tree. -/
theorem hash_treeHashOf {R : Addr → Prop} {t : WorkingTree} {h : EntryHash} (good : Good w)
    (region : Region R w) (within : Within w.heap t.root) (mem : ∀ p ∈ t.root.entries, R p.2)
    (run : (t.hash w).1 = .ok h) : TreeHashOf w t.root h := by
  have spec := @getMerkleRoot_spec S _ _ R w _ ⟨none, t⟩ good region within mem
  have call : (TezedgeContext.mk none t).getMerkleRoot w = (.ok h, (t.hash w).2) := by
    rw [TezedgeContext.getMerkleRoot, Exec.mapErr]
    rcases hrun : t.hash w with ⟨outcome, w'⟩
    rw [hrun] at run
    rw [show outcome = .ok h from run]
  exact (Exec.wp_ok spec call).2

/-- `hash` returns the hash, unless no id can be handed out any more. -/
def WorkingTree.HashesTo (t : WorkingTree) (w : World S) (h : EntryHash) : Prop :=
  (t.hash w).1 = .ok h ∨ (∀ h', (t.hash w).1 ≠ .ok h') ∧ Exhausted (t.hash w).2.repo

/-- A tree that has a hash is hashed to it. -/
theorem hashesTo_of_treeHashOf {R : Addr → Prop} {t : WorkingTree} {h : EntryHash} (good : Good w)
    (region : Region R w) (within : Within w.heap t.root) (mem : ∀ p ∈ t.root.entries, R p.2)
    (treeHash : TreeHashOf w t.root h) : t.HashesTo w h := by
  have spec := @getMerkleRoot_spec S _ _ R w _ ⟨none, t⟩ good region within mem
  rw [TezedgeContext.getMerkleRoot, Exec.wp_mapErr, Exec.wp] at spec
  have excuse : ∀ w' : World S, Step R w w' ∧ (Exhausted w'.repo ∨
      ¬ ∃ h, TreeHashOf w t.root h) → Exhausted w'.repo :=
    fun w' failed => failed.2.resolve_right fun none => none ⟨h, treeHash⟩
  rw [WorkingTree.HashesTo]
  rcases hrun : t.hash w with ⟨outcome, w'⟩
  rw [hrun] at spec
  cases outcome with
  | ok h' => exact Or.inl (congrArg Outcome.ok (spec.2.2.unique treeHash.2))
  | err e =>
      refine Or.inr ⟨fun h' same => ?_, excuse w' spec⟩
      cases same
  | panic =>
      refine Or.inr ⟨fun h' same => ?_, excuse w' spec⟩
      cases same

/-- A directory that is put back where it was leaves the hash of the tree. -/
theorem addTree_sameHash {t : WorkingTree} {key : ContextKey} {root : Tree} {rank : HashId → Nat}
    (sound : Sound w) (honest : Honest w) (ranked : Ranked w rank) (known : ∀ id, Known S id)
    (hashes : ∀ {id}, Live w.repo id → ∃ h, getHash id w.repo = .ok (some h))
    (within : Within w.heap t.root) (loaded : LoadedAt w.heap t.root key root) :
    Exec.wp (t.addTree key (.tree root))
      (fun t' w' => Later w w' ∧ SameHash w' t.root t'.root) (fun _ => False) w := by
  have tight : Tight w.heap := fun _ hentry => (sound.nodes _).within hentry
  have path : LoadedAt w.heap t.root key.reverse.reverse root := by
    rw [List.reverse_reverse]
    exact loaded
  rw [WorkingTree.addTree, Exec.wp_bind]
  refine Exec.wp_mono (computeNewRoot_sameHash key.reverse sound honest ranked known hashes within
    path (loaded.within tight within) fun _ => Iff.rfl) ?_ fun _ h => h
  intro entry w' h
  obtain ⟨later, root', rfl, same⟩ := h
  exact ⟨later, same⟩

end Hashes

/-! ## The law -/

section Contents

variable {S : Type} [KeyValueStoreBackend S] {w : World S}

/-- `add_tree` of a directory with something in it. -/
theorem addTree_changed {t : WorkingTree} {key : ContextKey} {root : Tree} (tight : Tight w.heap)
    (within : Within w.heap t.root) (present : Present w t.root) (within' : Within w.heap root)
    (hkey : key ≠ []) :
    ∃ t' w', t.addTree key (.tree root) w = (.ok t', w') ∧
      Changed w (putAnswer key (treeAnswer w root) (treeAnswer w t.root)) t' w' ∧
      LoadedAt w'.heap t'.root key root := by
  have hentry : (WorkingTree.tree root).toNode.entry = some (.tree root) := rfl
  obtain ⟨tree, w', run, changed⟩ := changed_put tight within present hkey hentry
    (fun h => by cases h; exact within')
  have finds := Exec.wp_ok (computeNewRoot_finds key.reverse tight within hentry within') run
  obtain ⟨_, tree', same, loaded⟩ := finds
  cases same
  rw [List.reverse_reverse] at loaded
  exact ⟨.tree tree, w', Exec.bind_ok run, changed, loaded⟩

/-- Keys below see what was put in place. -/
theorem Changed.find_below {key : ContextKey} {new old : ContextKey → Answer} {t' : WorkingTree}
    {w' : World S} (changed : Changed w (putAnswer key new old) t' w')
    (unbroken : ∀ q, putAnswer key new old q ≠ .broken) {t : WorkingTree} (tight : Tight w.heap)
    (within : Within w.heap t.root) (present : Present w t.root)
    (same : new = treeAnswer w t.root) {q : ContextKey} (hq : q ≠ [])
    (found : Option ContextValue) :
    (t'.find (key ++ q) w').1 = .ok found ↔ (t.find q w).1 = .ok found := by
  rw [changed.find unbroken (List.append_ne_nil_of_right_ne_nil key hq), putAnswer_append, same,
    (find_reads tight within present hq).1, findOutcome_ok_iff, findOutcome_ok_iff]

/-- `find_tree` returns what `find_raw_tree` finds. -/
theorem found_of_findTree {t : WorkingTree} {key : ContextKey} {root : Tree}
    (h : (t.findTree key w).1 = .ok (some (.tree root))) :
    ∃ w', TezedgeIndex.findRawTree t.root key w = (.ok root, w') := by
  rcases hrun : TezedgeIndex.findRawTree t.root key w with ⟨outcome, w'⟩
  simp only [WorkingTree.findTree, bind, Exec.bind, hrun] at h
  cases outcome with
  | ok tree =>
      cases empty : tree.isEmpty with
      | true =>
          simp only [empty] at h
          cases h
      | false =>
          simp only [empty] at h
          cases h
          exact ⟨w', rfl⟩
  | err error => cases h
  | panic => cases h

/-- What is below the root has its answers in later states. -/
theorem Reads.find {w' : World S} (reads : Reads w w') {t : WorkingTree} (tight : Tight w.heap)
    (within : Within w.heap t.root) (present : Present w t.root) (q : ContextKey) :
    (t.find q w').1 = (t.find q w).1 := by
  by_cases hq : q = []
  · rw [hq]
    rfl
  · rw [(find_reads tight within present hq).1,
      (find_reads reads.tight (within.mono reads.next) (present.reads reads within) hq).1,
      reads.treeAnswer within]

/-- `add_tree` of a directory with something in it: `find_tree` returns what was added, keys
beside see what they saw, and keys below see what was added. -/
theorem addTree_contents {t : WorkingTree} {key : ContextKey} {root : Tree} (tight : Tight w.heap)
    (within : Within w.heap t.root) (present : Present w t.root) (within' : Within w.heap root)
    (present' : Present w root) (nonempty : root.isEmpty = false) (hkey : key ≠ []) :
    ∃ t' w', t.addTree key (.tree root) w = (.ok t', w') ∧
      t'.findTree key w' = (.ok (some (.tree root)), w') ∧
      (∀ q, ((WorkingTree.tree root).find q w').1 = ((WorkingTree.tree root).find q w).1) ∧
      (∀ q, ¬ q <+: key → ¬ key <+: q → (t'.find q w').1 = (t.find q w).1) ∧
      ∀ q found, q ≠ [] → ((t'.find (key ++ q) w').1 = .ok found ↔
        ((WorkingTree.tree root).find q w).1 = .ok found) := by
  obtain ⟨t', w', call, changed, loaded⟩ := addTree_changed tight within present within' hkey
  have unbroken := @putAnswer_ne_broken key _ _ present' present
  refine ⟨t', w', call, ?_, ?_, ?_, ?_⟩
  · rw [WorkingTree.findTree, Exec.bind_ok loaded.find, nonempty]
    rfl
  · exact changed.reads.find tight within' present'
  · intro q above below
    have hq : q ≠ [] := fun nil => above (nil ▸ List.nil_prefix)
    rw [changed.find unbroken hq, putAnswer_beside _ _ above below,
      (find_reads tight within present hq).1]
  · intro q found hq
    exact changed.find_below (t := .tree root) unbroken tight within' present' rfl hq found

end Contents

section Runs

variable [Digest] {s : Session System}

/-- Ids in use have hashes. -/
theorem System.hash_of_live {s : System} {id : HashId} (live : Live s id) :
    ∃ h, getHash id s = .ok (some h) :=
  ⟨_, congrArg Except.ok (List.getElem?_eq_getElem live.1)⟩

/-- The contents and the hashes of `add_tree`, as long as no cycle start frees an id that
something keeps.  What was added keeps its hash, and so does the tree when what was added is
what was there before. -/
theorem addTree_law {disabled : Bool} {schedule : List Nat}
    (run : TreeRuns (fun s op => op.Releases s) (.start disabled schedule) s)
    {t : WorkingTree} {root : Tree} {key : ContextKey}
    (reached : t ∈ s.trees ∨ ∃ c ∈ s.contexts, c.tree = t)
    (reached' : .tree root ∈ s.trees ∨ ∃ c ∈ s.contexts, c.tree = .tree root)
    (present : Present s.world t.root) (present' : Present s.world root)
    (nonempty : root.isEmpty = false) (hkey : key ≠ []) :
    ∃ t' w', t.addTree key (.tree root) s.world = (.ok t', w') ∧
      (∃ r, t'.findTree key w' = (.ok (some r), w') ∧
        (∀ q, (r.find q w').1 = ((WorkingTree.tree root).find q s.world).1) ∧
        ∀ h, ((WorkingTree.tree root).hash s.world).1 = .ok h → r.HashesTo w' h) ∧
      (∀ q, ¬ q <+: key → ¬ key <+: q → (t'.find q w').1 = (t.find q s.world).1) ∧
      (∀ q found, q ≠ [] → ((t'.find (key ++ q) w').1 = .ok found ↔
        ((WorkingTree.tree root).find q s.world).1 = .ok found)) ∧
      ((t.findTree key s.world).1 = .ok (some (.tree root)) →
        ∀ h, (t.hash s.world).1 = .ok h → t'.HashesTo w' h) := by
  have regular := regular_steady.run (fun _ _ h => Or.inr ⟨fun _ => trivial, h⟩) run
    (regular_start disabled schedule)
  have honest := honest_steady.run (fun _ _ h => Or.inr ⟨fun _ => trivial, h⟩) run
    (honest_start disabled schedule)
  have sound := regular.sound.sound
  have tight : Tight s.world.heap := fun _ hentry => (sound.nodes _).within hentry
  have within := regular.within reached
  have within' : Within s.world.heap root := regular.within reached'
  obtain ⟨t', w', call, found, same, beside, below⟩ :=
    addTree_contents tight within present within' present' nonempty hkey
  have spec := @WorkingTree.addTree_spec _ _ _ _ t (.tree root) sound within within' key
  have grown := Exec.wp_ok spec call
  have later : Later s.world w' := Later.ofGrows sound grown.1
  -- What `hash` returned before is the hash of the tree, and a tree is hashed to its hash.
  have before : ∀ (t : WorkingTree) {h : EntryHash}, Within s.world.heap t.root →
      (t.hash s.world).1 = .ok h → TreeHashOf s.world t.root h :=
    fun t _ within => hash_treeHashOf sound.good (region_all _) within fun _ _ => trivial
  have after : ∀ (t : WorkingTree) {h : EntryHash}, Within w'.heap t.root →
      TreeHashOf w' t.root h → t.HashesTo w' h :=
    fun t _ within => hashesTo_of_treeHashOf later.sound.good (region_all _) within
      fun _ _ => trivial
  refine ⟨t', w', call, ⟨.tree root, found, same, ?_⟩, beside, below, ?_⟩
  · intro h hash
    exact after (.tree root) (within'.mono later.next)
      ((later.treeHashOf within' h).mpr (before (.tree root) within' hash))
  · intro there h hash
    obtain ⟨rank, ranked⟩ := regular.holds
    obtain ⟨w₁, found⟩ := found_of_findTree there
    have put := Exec.wp_ok (addTree_sameHash sound honest.holds ranked (fun _ => trivial)
      System.hash_of_live within (loadedAt_of_find tight within nonempty within' found)) call
    exact after t' grown.2 ((put.2 h).mp ((later.treeHashOf within h).mpr (before t within hash)))

end Runs

section Sample

local instance subtreeDigest : Digest := sampleDigest

/-- Calls that free nothing. -/
theorem treeRuns_afterTree {ops : List TreeOp} (quiet : ∀ op ∈ ops, op ≠ .op .cycleStarted)
    (s : Session System) : TreeRuns (fun s op => op.Releases s) s (s.afterTree ops) := by
  induction ops generalizing s with
  | nil => exact .refl
  | cons op ops ih =>
      refine treeRuns_cons op (fun cycle => absurd cycle (quiet op List.mem_cons_self)) ?_
      exact ih (fun op' mem => quiet op' (List.mem_cons_of_mem _ mem)) _

/-- A tree of two levels is hashed and committed. -/
def commitedTree : Session System :=
  (Session.start false []).afterTree
    [.op .new, .op (.add 0 ["a", "b"] [1]), .op (.add 1 ["a", "c", "d"] [2]),
      .op (.add 2 ["e"] [3]), .op (.getMerkleRoot 3), .op (.commit 3 "author" "message" 1)]

/-- In the next cycle a directory is taken out of it. -/
def taken : Session System :=
  commitedTree.afterTree [.op .cycleStarted, .op (.findTree 3 ["a"])]

theorem releases_taken : TreeRuns (fun s op => op.Releases s) (.start false []) taken := by
  have before : TreeRuns (fun s op => op.Releases s) (.start false []) commitedTree :=
    treeRuns_afterTree (by decide) _
  have nothing : commitedTree.world.repo.ending = [] := by decide +kernel
  refine before.trans (treeRuns_cons (.op .cycleStarted) (fun _ => .of_nil nothing) ?_)
  exact treeRuns_cons (.op (.findTree 3 ["a"])) nofun .refl

/-- The directory is put back where it was. -/
theorem addTree_law_taken : ∃ c root t' w', taken.contexts[3]? = some c ∧
    taken.trees[0]? = some (.tree root) ∧
    c.tree.addTree ["a"] (.tree root) taken.world = (.ok t', w') ∧
    (t'.find ["a", "c", "d"] w').1 = .ok (some [2]) ∧
    (t'.find ["e"] w').1 = .ok (some [3]) ∧
    ∃ h, (c.tree.hash taken.world).1 = .ok h ∧ t'.HashesTo w' h := by
  obtain ⟨c, hc⟩ : ∃ c, taken.contexts[3]? = some c :=
    Option.isSome_iff_exists.mp (by decide +kernel)
  obtain ⟨t, ht⟩ : ∃ t, taken.trees[0]? = some t :=
    Option.isSome_iff_exists.mp (by decide +kernel)
  have mem := List.mem_of_getElem? hc
  have mem' := List.mem_of_getElem? ht
  have there : (taken.contexts[3]?.map fun c => (c.tree.findTree ["a"] taken.world).1) =
      taken.trees[0]?.map fun t => .ok (some t) := by decide +kernel
  have beside : (taken.contexts[3]?.map fun c => (c.tree.find ["e"] taken.world).1) =
      some (.ok (some [3])) := by decide +kernel
  have hashed : (taken.contexts[3]?.map fun c => (c.tree.hash taken.world).1.isOk) =
      some true := by decide +kernel
  have value : (taken.trees[0]?.map fun t => (t.find ["c", "d"] taken.world).1) =
      some (.ok (some [2])) := by decide +kernel
  have full : (taken.trees[0]?.map fun t => t.root.isEmpty) = some false := by decide +kernel
  have inside : ∀ t ∈ taken.contexts[3]?.toList.map (fun c => c.tree.root) ++
      taken.trees[0]?.toList.map WorkingTree.root,
      (Entry.tree t).Inside (List.range taken.world.heap.next) := by decide +kernel
  have loaded : ∀ a ∈ List.range taken.world.heap.next,
      ∃ entry ∈ (taken.world.heap.node a).entry, entry.Inside (List.range taken.world.heap.next) := by
    decide +kernel
  rw [hc, ht] at there inside
  rw [hc] at beside hashed
  rw [ht] at value full
  have there : (c.tree.findTree ["a"] taken.world).1 = .ok (some t) := Option.some.inj there
  have beside : (c.tree.find ["e"] taken.world).1 = .ok (some [3]) := Option.some.inj beside
  have value : (t.find ["c", "d"] taken.world).1 = .ok (some [2]) := Option.some.inj value
  have full : t.root.isEmpty = false := Option.some.inj full
  obtain ⟨h, hash⟩ := Outcome.exists_of_isOk (Option.some.inj hashed)
  have present := present_of_inside (inside c.tree.root (by simp)) loaded
  have present' := present_of_inside (inside t.root (by simp)) loaded
  cases t with
  | value v => cases full
  | tree root =>
      obtain ⟨t', w', call, _, outside, below, same⟩ := addTree_law releases_taken
        (Or.inr ⟨c, mem, rfl⟩) (Or.inl mem') present present' full (List.cons_ne_nil "a" [])
      have found := (below ["c", "d"] (some [2]) (List.cons_ne_nil _ _)).mpr value
      refine ⟨c, root, t', w', hc, ht, call, found, ?_, h, hash, same there h hash⟩
      rw [outside ["e"] (by simp) (by simp)]
      exact beside

/-- A context keeps its ids while eight cycles start, and another one is hashed with them. -/
def reused : Session System :=
  (Session.start false [0, 0, 0, 0, 0, 40]).afterTree
    ([.op .new, .op (.add 0 ["d", "x"] [1]), .op (.getMerkleRoot 1),
        .op (.commit 1 "author" "message" 1)] ++ List.replicate 8 (.op .cycleStarted) ++
      [.op (.add 0 ["q"] [2]), .op (.getMerkleRoot 2), .op (.findTree 1 ["d"])])

/-- A directory that is put back where it was changes the hash of the tree, though all entries
are in memory. -/
theorem addTree_changes_hash :
    TreeRuns (fun _ _ => True) (.start false [0, 0, 0, 0, 0, 40]) reused ∧
    ∃ c root t' w' h h', c ∈ reused.contexts ∧ .tree root ∈ reused.trees ∧
      Present reused.world c.tree.root ∧ Present reused.world root ∧ root.isEmpty = false ∧
      (c.tree.findTree ["d"] reused.world).1 = .ok (some (.tree root)) ∧
      c.tree.addTree ["d"] (.tree root) reused.world = (.ok t', w') ∧
      (c.tree.hash reused.world).1 = .ok h ∧ (t'.hash w').1 = .ok h' ∧ h' ≠ h := by
  have run : ∀ (s : Session System) (ops : List TreeOp),
      TreeRuns (fun _ _ => True) s (s.afterTree ops) := by
    intro s ops
    induction ops generalizing s with
    | nil => exact .refl
    | cons op ops ih => exact treeRuns_cons op trivial (ih _)
  refine ⟨run _ _, ?_⟩
  obtain ⟨c, hc⟩ : ∃ c, reused.contexts[1]? = some c :=
    Option.isSome_iff_exists.mp (by decide +kernel)
  obtain ⟨t, ht⟩ : ∃ t, reused.trees[0]? = some t :=
    Option.isSome_iff_exists.mp (by decide +kernel)
  have inside : ∀ t ∈ reused.contexts[1]?.toList.map (fun c => c.tree.root) ++
      reused.trees[0]?.toList.map WorkingTree.root,
      (Entry.tree t).Inside (List.range reused.world.heap.next) := by decide +kernel
  have loaded : ∀ a ∈ List.range reused.world.heap.next,
      ∃ entry ∈ (reused.world.heap.node a).entry,
        entry.Inside (List.range reused.world.heap.next) := by decide +kernel
  have there : (reused.contexts[1]?.map fun c => (c.tree.findTree ["d"] reused.world).1) =
      reused.trees[0]?.map fun t => .ok (some t) := by decide +kernel
  have full : (reused.trees[0]?.map fun t => t.root.isEmpty) = some false := by decide +kernel
  have hashed : (reused.contexts[1]?.map fun c => (c.tree.hash reused.world).1.isOk) =
      some true := by decide +kernel
  have put : ∀ c ∈ reused.contexts[1]?, ∀ t ∈ reused.trees[0]?,
      (c.tree.addTree ["d"] t reused.world).1.isOk = true ∧
        ((c.tree.addTree ["d"] t >>= WorkingTree.hash) reused.world).1.isOk = true ∧
        ((c.tree.addTree ["d"] t >>= WorkingTree.hash) reused.world).1 ≠
          (c.tree.hash reused.world).1 := by decide +kernel
  obtain ⟨added, rehashed, differ⟩ := put c hc t ht
  rw [hc, ht] at there inside
  rw [hc] at hashed
  rw [ht] at full
  obtain ⟨h, hash⟩ := Outcome.exists_of_isOk (Option.some.inj hashed)
  obtain ⟨t', hadd⟩ := Outcome.exists_of_isOk added
  obtain ⟨h', hash'⟩ := Outcome.exists_of_isOk rehashed
  have call : c.tree.addTree ["d"] t reused.world =
      (.ok t', (c.tree.addTree ["d"] t reused.world).2) := Prod.ext hadd rfl
  rw [hash, hash'] at differ
  rw [Exec.bind_ok call] at hash'
  cases t with
  | value v => cases full
  | tree root =>
      exact ⟨c, root, t', _, h, h', List.mem_of_getElem? hc, List.mem_of_getElem? ht,
        present_of_inside (inside c.tree.root (by simp)) loaded,
        present_of_inside (inside root (by simp [WorkingTree.root])) loaded, Option.some.inj full,
        Option.some.inj there, call, hash, hash', fun same => differ (congrArg Outcome.ok same)⟩

end Sample

end NodeFuzzer
