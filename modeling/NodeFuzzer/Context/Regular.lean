import Mathlib.Data.Set.Finite.Lattice
import Mathlib.Order.Bounds.Basic
import NodeFuzzer.Context.Contents
import NodeFuzzer.Context.TreeRuns

/-!
# Trees are finite

A directory is hashed after its nodes, so that the ids below an id can be ranked below it,
in memory and in the store alike.  Nodes and ids also keep the kind they were made with.
Both are kept by all calls of a process (`regular_steady`).  So a
tree whose entries are there is a finite tree of names (`Regular.shows`), and says of what
kind its nodes are (`Regular.kinded`).
-/

namespace NodeFuzzer

open KeyValueStoreBackend StoreView

/-! ## Kinds and ranks -/

/-- The kind of an entry that a tree may have. -/
def Entry.Fits (kind : NodeKind) : Entry → Prop
  | .tree _ => kind = .nonLeaf
  | .blob _ => kind = .leaf
  | .commit _ => False

/-- The kind of a stored entry that a tree may have. -/
def Serialized.Fits (kind : NodeKind) : Serialized → Prop
  | .tree _ => kind = .nonLeaf
  | .blob _ => kind = .leaf
  | _ => False

theorem EncodesEntry.fits {heap : Heap} {entry : Entry} {value : Serialized} {kind : NodeKind}
    (h : EncodesEntry heap entry value) (fits : value.Fits kind) : entry.Fits kind := by
  cases h with
  | blob value => exact fits
  | commit commit => exact fits.elim
  | tree nodes commited within => exact fits

theorem Serializes.fits {heap : Heap} {entry : Entry} {value : Serialized} {kind : NodeKind}
    (h : Serializes heap entry value) (fits : entry.Fits kind) : value.Fits kind := by
  cases h with
  | blob value => exact fits
  | tree nodes => exact fits

instance : Finite HashId :=
  Finite.of_injective (fun id => (⟨id.val, id.lt⟩ : Fin (2 ^ 64))) fun _ _ h =>
    HashId.ext (congrArg Fin.val h)

/-- Ids are used finitely often. -/
theorem exists_rank_bound (rank : HashId → Nat) : ∃ M, ∀ id, rank id ≤ M := by
  obtain ⟨M, bound⟩ := (Set.finite_range rank).bddAbove
  exact ⟨M, fun id => bound (Set.mem_range_self id)⟩

variable {S : Type} [KeyValueStoreBackend S] [LawfulStore S]

/-- Nodes and store with ranks of ids. -/
structure Ranked (w : World S) (rank : HashId → Nat) : Prop where
  fits : ∀ {a e}, (w.heap.node a).entry = some e → e.Fits (w.heap.node a).nodeKind
  value : ∀ {a id v}, (w.heap.node a).entryHash = some id →
    getValue id w.repo = .ok (some v) → v.Fits (w.heap.node a).nodeKind
  same : ∀ {a b id}, (w.heap.node a).entryHash = some id → (w.heap.node b).entryHash = some id →
    (w.heap.node a).nodeKind = (w.heap.node b).nodeKind
  /-- What a stored directory refers to is a node of its kind. -/
  held : ∀ {id entries p}, Live w.repo id → getValue id w.repo = .ok (some (.tree entries)) →
    p ∈ entries.entries → ∃ a, a < w.heap.next ∧ (w.heap.node a).entryHash = some p.2.2 ∧
      (w.heap.node a).nodeKind = p.2.1
  below : ∀ {a id tree p j}, (w.heap.node a).entryHash = some id →
    (w.heap.node a).entry = some (.tree tree) → p ∈ tree.entries →
    (w.heap.node p.2).entryHash = some j → rank j < rank id
  stored : ∀ {id entries p}, Live w.repo id → getValue id w.repo = .ok (some (.tree entries)) →
    p ∈ entries.entries → rank p.2.2 < rank id

/-- The ids below an id rank below it. -/
def Regular (w : World S) : Prop := ∃ rank, Ranked w rank

namespace Ranked

variable {w w' : World S} {rank : HashId → Nat}

/-- A node that is put in place. -/
theorem alloc {node : Node} (ranked : Ranked w rank)
    (put : PutNode (fun _ => True) w.heap node) :
    Ranked { w with heap := w.heap.alloc node } rank := by
  have noId : node.entryHash = none := put.newNode.noId
  have old : ∀ {a id}, ((w.heap.alloc node).node a).entryHash = some id →
      (w.heap.alloc node).node a = w.heap.node a := by
    intro a id hid
    by_cases ha : a = w.heap.next
    · rw [ha, Heap.alloc_node_self, noId] at hid
      cases hid
    · exact Heap.alloc_node_of_ne ha node
  constructor
  · intro a e he
    by_cases ha : a = w.heap.next
    · rw [ha, Heap.alloc_node_self] at he ⊢
      cases put with
      | leaf value =>
          cases he
          rfl
      | directory within =>
          cases he
          rfl
    · rw [Heap.alloc_node_of_ne ha] at he ⊢
      exact ranked.fits he
  · intro a id v hid hv
    have same := old hid
    rw [same] at hid ⊢
    exact ranked.value hid hv
  · intro a b id ha hb
    have sameA := old ha
    have sameB := old hb
    rw [sameA] at ha ⊢
    rw [sameB] at hb ⊢
    exact ranked.same ha hb
  · intro id entries p live hv hp
    obtain ⟨a, ha, hid, kind⟩ := ranked.held live hv hp
    refine ⟨a, Nat.lt_succ_of_lt ha, ?_, ?_⟩
    · rw [Heap.alloc_node_of_lt ha]
      exact hid
    · rw [Heap.alloc_node_of_lt ha]
      exact kind
  · intro a id tree p j hid he hp hj
    have sameA := old hid
    have sameB := old hj
    rw [sameA] at hid he
    rw [sameB] at hj
    exact ranked.below hid he hp hj
  · exact ranked.stored

/-- The nodes of a stored directory. -/
theorem load {id : HashId} {entries : OrdMap KeyFragment (NodeKind × HashId)}
    (ranked : Ranked w rank) (sound : Sound w) (live : Live w.repo id)
    (found : getValue id w.repo = .ok (some (.tree entries))) :
    Ranked { w with heap := loadHeap w.heap entries } rank := by
  -- A node is one that was there, or has the id and the kind of one that was.
  have here : ∀ {a j}, ((loadHeap w.heap entries).node a).entryHash = some j →
      (loadHeap w.heap entries).node a = w.heap.node a ∨
        ((loadHeap w.heap entries).node a).entry = none ∧
        ∃ b, (w.heap.node b).entryHash = some j ∧
          (w.heap.node b).nodeKind = ((loadHeap w.heap entries).node a).nodeKind := by
    intro a j hj
    rcases loadHeap_cases w.heap entries a with same | ⟨p, hp, new⟩
    · exact Or.inl same
    · obtain ⟨b, _, hb, kind⟩ := ranked.held live found hp
      rw [new] at hj ⊢
      cases hj
      exact Or.inr ⟨rfl, b, hb, kind⟩
  have source : ∀ {a j}, ((loadHeap w.heap entries).node a).entryHash = some j →
      ∃ b, (w.heap.node b).entryHash = some j ∧
        (w.heap.node b).nodeKind = ((loadHeap w.heap entries).node a).nodeKind := by
    intro a j hj
    rcases here hj with same | ⟨_, b, hb, kind⟩
    · rw [same] at hj ⊢
      exact ⟨a, hj, rfl⟩
    · exact ⟨b, hb, kind⟩
  constructor
  · intro a e he
    rcases loadHeap_cases w.heap entries a with same | ⟨p, _, new⟩
    · rw [same] at he ⊢
      exact ranked.fits he
    · rw [new] at he
      cases he
  · intro a j v hj hv
    obtain ⟨b, hb, kind⟩ := source hj
    rw [← kind]
    exact ranked.value hb hv
  · intro a b j ha hb
    obtain ⟨c, hc, kindA⟩ := source ha
    obtain ⟨d, hd, kindB⟩ := source hb
    rw [← kindA, ← kindB]
    exact ranked.same hc hd
  · intro j entries' p live' hv hp
    obtain ⟨a, ha, hid, kind⟩ := ranked.held live' hv hp
    refine ⟨a, Nat.lt_of_lt_of_le ha (Nat.le_add_right _ _), ?_, ?_⟩
    · rw [loadHeap, Heap.allocAll_node_of_lt ha]
      exact hid
    · rw [loadHeap, Heap.allocAll_node_of_lt ha]
      exact kind
  · intro a j tree p k hj he hp hk
    rcases here hj with same | ⟨none, _⟩
    · rw [same] at hj he
      have lt := (sound.nodes a).within he p hp
      rw [loadHeap, Heap.allocAll_node_of_lt lt] at hk
      exact ranked.below hj he hp hk
    · rw [none] at he
      cases he
  · exact ranked.stored

/-- A loaded entry is written to its node. -/
theorem setEntry {a : Addr} {id : HashId} {entry : Entry} {value : Serialized}
    (ranked : Ranked w rank) (hid : (w.heap.node a).entryHash = some id) (live : Live w.repo id)
    (found : getValue id w.repo = .ok (some value)) (encodes : EncodesEntry w.heap entry value) :
    Ranked { w with heap := w.heap.set a { w.heap.node a with entry := some entry } } rank := by
  have ids : ∀ b, ((w.heap.set a { w.heap.node a with entry := some entry }).node b).entryHash =
      (w.heap.node b).entryHash := by
    intro b
    by_cases hb : b = a
    · rw [hb, Heap.set_node_self]
    · rw [Heap.set_node_of_ne hb]
  have kinds : ∀ b, ((w.heap.set a { w.heap.node a with entry := some entry }).node b).nodeKind =
      (w.heap.node b).nodeKind := by
    intro b
    by_cases hb : b = a
    · rw [hb, Heap.set_node_self]
    · rw [Heap.set_node_of_ne hb]
  constructor
  · intro b e he
    rw [kinds]
    by_cases hb : b = a
    · rw [hb, Heap.set_node_self] at he
      cases he
      rw [hb]
      exact encodes.fits (ranked.value hid found)
    · rw [Heap.set_node_of_ne hb] at he
      exact ranked.fits he
  · intro b j v hj hv
    rw [ids] at hj
    rw [kinds]
    exact ranked.value hj hv
  · intro b c j hb hc
    rw [ids] at hb hc
    rw [kinds, kinds]
    exact ranked.same hb hc
  · intro j entries p live' hv hp
    obtain ⟨b, hb, hj, kind⟩ := ranked.held live' hv hp
    exact ⟨b, hb, (ids b).trans hj, (kinds b).trans kind⟩
  · intro b j tree p k hj he hp hk
    rw [ids] at hj hk
    by_cases hb : b = a
    · rw [hb, Heap.set_node_self] at he
      cases he
      rw [hb, hid] at hj
      cases hj
      cases encodes with
      | tree nodes commited within =>
          obtain ⟨i, hi, mem⟩ := serializeTree_node nodes (OrdMap.mem_entries.mp hp)
          rw [hi] at hk
          cases hk
          exact ranked.stored live found (OrdMap.mem_entries.mpr mem)
    · rw [Heap.set_node_of_ne hb] at he
      exact ranked.below hj he hp hk
  · exact ranked.stored

theorem marks (ranked : Ranked w rank) (marks : Marks w w') : Ranked w' rank := by
  constructor
  · intro a e he
    rw [marks.entry] at he
    rw [marks.nodeKind]
    exact ranked.fits he
  · intro a id v hid hv
    rw [marks.entryHash] at hid
    rw [marks.repo] at hv
    rw [marks.nodeKind]
    exact ranked.value hid hv
  · intro a b id ha hb
    rw [marks.entryHash] at ha hb
    rw [marks.nodeKind, marks.nodeKind]
    exact ranked.same ha hb
  · intro id entries p live hv hp
    rw [marks.repo] at live hv
    obtain ⟨a, ha, hid, kind⟩ := ranked.held live hv hp
    exact ⟨a, marks.next.symm ▸ ha, (marks.entryHash a).trans hid, (marks.nodeKind a).trans kind⟩
  · intro a id tree p j hid he hp hj
    rw [marks.entryHash] at hid hj
    rw [marks.entry] at he
    exact ranked.below hid he hp hj
  · intro id entries p live hv hp
    rw [marks.repo] at live hv
    exact ranked.stored live hv hp

section Stores

variable [Digest]

/-- The node got this id in the step. -/
def GotId (w w' : World S) (id : HashId) (a : Addr) : Prop :=
  (w.heap.node a).entryHash = none ∧ (w'.heap.node a).entryHash = some id

open Classical in
/-- The ids that a step gave to nodes rank above all others, by the age of the node. -/
noncomputable def rankAfter (w w' : World S) (rank : HashId → Nat) (M : Nat) (id : HashId) : Nat :=
  if got : ∃ a, GotId w w' id a then M + 1 + got.choose else rank id

section Step

variable {R : Addr → Prop} {id : HashId} {M : Nat}

theorem rankAfter_got (known : ∀ id, Known S id) (step : Step R w w') {a : Addr}
    (got : GotId w w' id a) : rankAfter w w' rank M id = M + 1 + a := by
  have some : ∃ a, GotId w w' id a := ⟨a, got⟩
  rw [rankAfter, dif_pos some]
  have here := some.choose_spec
  rcases step.single known here.2 got.2 with same | ⟨_, old⟩
  · rw [same]
  · rw [got.1] at old
    cases old

/-- An id that a node had ranks as before. -/
theorem rankAfter_kept (known : ∀ id, Known S id) (step : Step R w w') {a : Addr}
    (ha : (w.heap.node a).entryHash = some id) : rankAfter w w' rank M id = rank id := by
  rw [rankAfter, dif_neg]
  rintro ⟨b, vacant, hb⟩
  rcases step.single known (step.cached a id ha) hb with same | ⟨_, hb⟩
  · rw [same, vacant] at ha
    cases ha
  · rw [vacant] at hb
    cases hb

/-- So does an id at which something is stored. -/
theorem rankAfter_stored (step : Step R w w') {v : Serialized}
    (hv : getValue id w'.repo = .ok (some v)) : rankAfter w w' rank M id = rank id := by
  rw [rankAfter, dif_neg]
  rintro ⟨a, vacant, ha⟩
  rcases step.fresh ha with hid | ⟨_, blank⟩
  · rw [vacant] at hid
    cases hid
  · rw [hv] at blank
    cases blank

/-- What is stored was stored before. -/
theorem stored_before (step : Step R w w') {v : Serialized} (live : Live w'.repo id)
    (hv : getValue id w'.repo = .ok (some v)) :
    Live w.repo id ∧ getValue id w.repo = .ok (some v) := by
  have live₀ : Live w.repo id := by
    by_contra dead
    rw [step.keeps.blank id live dead] at hv
    cases hv
  rw [(step.keeps.old id live₀).2.2] at hv
  exact ⟨live₀, hv⟩

/-- A node of a directory that has an id ranks below it, whenever the two got their ids. -/
theorem rankAfter_below (ranked : Ranked w rank) (sound : Sound w) (known : ∀ id, Known S id)
    (step : Step R w w') (bound : ∀ id, rank id ≤ M) {a : Addr} {tree : Tree}
    {p : KeyFragment × Addr} {j : HashId} (hid : (w'.heap.node a).entryHash = some id)
    (he : (w.heap.node a).entry = some (.tree tree)) (hp : p ∈ tree.entries)
    (hj : (w'.heap.node p.2).entryHash = some j) :
    rankAfter w w' rank M j < rankAfter w w' rank M id := by
  cases hid₀ : (w.heap.node a).entryHash with
  | some id₀ =>
      have same := step.cached a id₀ hid₀
      rw [hid] at same
      cases same
      obtain ⟨j₀, hj₀⟩ := Option.ne_none_iff_exists'.mp
        ((sound.nodes a).filled (by rw [hid₀]; exact Option.some_ne_none _) he p hp)
      have same := step.cached p.2 j₀ hj₀
      rw [hj] at same
      cases same
      rw [rankAfter_kept known step hid₀, rankAfter_kept known step hj₀]
      exact ranked.below hid₀ he hp hj₀
  | none =>
      have lt := (sound.nodes a).older (.of_none hid₀) he hp
      rw [rankAfter_got known step ⟨hid₀, hid⟩]
      cases hj₀ : (w.heap.node p.2).entryHash with
      | none =>
          rw [rankAfter_got known step ⟨hj₀, hj⟩]
          exact Nat.add_lt_add_left lt _
      | some j₀ =>
          have same := step.cached p.2 j₀ hj₀
          rw [hj] at same
          cases same
          rw [rankAfter_kept known step hj₀]
          exact Nat.lt_add_right a (Nat.lt_succ_of_le (bound j))

/-- Hashing keeps kinds, and ranks with those of the ids it gave. -/
theorem step (ranked : Ranked w rank) (sound : Sound w) (known : ∀ id, Known S id)
    (step : Step R w w') : Regular w' := by
  obtain ⟨M, bound⟩ := exists_rank_bound rank
  refine ⟨rankAfter w w' rank M, ?_, ?_, ?_, ?_, ?_, ?_⟩
  · intro a e he
    rw [step.entry] at he
    rw [step.nodeKind]
    exact ranked.fits he
  · intro a id v hid hv
    rw [step.nodeKind]
    rcases step.fresh hid with hid | ⟨_, blank⟩
    · rw [(step.keeps.old id ((sound.nodes a).live hid (known id))).2.2] at hv
      exact ranked.value hid hv
    · rw [hv] at blank
      cases blank
  · intro a b id ha hb
    rw [step.nodeKind, step.nodeKind]
    rcases step.single known ha hb with same | ⟨ha, hb⟩
    · rw [same]
    · exact ranked.same ha hb
  · intro id entries p live hv hp
    obtain ⟨live₀, hv₀⟩ := stored_before step live hv
    obtain ⟨a, ha, hid, kind⟩ := ranked.held live₀ hv₀ hp
    exact ⟨a, step.next.symm ▸ ha, step.cached a _ hid, (step.nodeKind a).trans kind⟩
  · intro a id tree p j hid he hp hj
    rw [step.entry] at he
    exact rankAfter_below ranked sound known step bound hid he hp hj
  · intro id entries p live hv hp
    obtain ⟨live₀, hv₀⟩ := stored_before step live hv
    obtain ⟨a, _, hid, _⟩ := ranked.held live₀ hv₀ hp
    rw [rankAfter_stored step hv, rankAfter_kept known step hid]
    exact ranked.stored live₀ hv₀ hp

end Step

end Stores

end Ranked

/-! ## Committing -/

section Committing

variable [Digest] {w w' w₁ : World System}

/-- The root of a commit ranks above all other ids: it was just made, and nothing refers
to it. -/
theorem Commits.regular {root : Tree} {commit : Commit} {id : HashId}
    {batch : List (HashId × Serialized)} {h : ContextHash} {rank : HashId → Nat}
    (ranked : Ranked w rank) (sound : Sound w)
    (commits : Commits w w₁ w' root commit id batch h) : Regular w' := by
  obtain ⟨within, collection, _, heap, wrote, _⟩ := commits
  obtain ⟨M, bound⟩ := exists_rank_bound rank
  obtain ⟨r, newRoot⟩ := collection.newRoot
  obtain ⟨_, newCommit⟩ := collection.newCommit
  have next : w'.heap.next = w.heap.next := by rw [heap, collection.marks.next]
  have entries : ∀ a, (w'.heap.node a).entry = (w.heap.node a).entry := by
    intro a
    rw [heap, collection.marks.entry]
  have ids : ∀ a, (w'.heap.node a).entryHash = (w.heap.node a).entryHash := by
    intro a
    rw [heap, collection.marks.entryHash]
  have kinds : ∀ a, (w'.heap.node a).nodeKind = (w.heap.node a).nodeKind := by
    intro a
    rw [heap, collection.marks.nodeKind]
  have live' : ∀ {j}, Live w'.repo j → Live w.repo j := by
    intro j live
    rw [← collection.marks.repo]
    exact (wrote.live j).mp live
  have value := @Collection.value _ w w₁ w' root commit id
  let rank' := Function.update rank commit.rootHash (M + 1)
  have node : ∀ {a j}, (w.heap.node a).entryHash = some j → rank' j = rank j := by
    intro a j hj
    refine Function.update_of_ne ?_ _ _
    rintro rfl
    exact newRoot.unused trivial a hj
  refine ⟨rank', ?_, ?_, ?_, ?_, ?_, ?_⟩
  · intro a e he
    rw [entries] at he
    rw [kinds]
    exact ranked.fits he
  · intro a j v hj hv
    rw [ids] at hj
    rw [kinds]
    rcases value collection wrote hv with old | mem
    · exact ranked.value hj old
    · rcases collection.items _ mem with hcommit | ⟨hroot, _⟩ |
        ⟨b, entry, _, _, _, hb, hentry, serializes⟩
      · cases hcommit
        exact absurd hj (newCommit.unused trivial a)
      · have hroot : j = commit.rootHash := hroot
        rw [hroot] at hj
        exact absurd hj (newRoot.unused trivial a)
      · rw [ranked.same hj hb]
        exact serializes.fits (ranked.fits hentry)
  · intro a b j ha hb
    rw [ids] at ha hb
    rw [kinds, kinds]
    exact ranked.same ha hb
  · intro j es p live hv hp
    rcases value collection wrote hv with old | mem
    · obtain ⟨a, ha, hid, kind⟩ := ranked.held (live' live) old hp
      exact ⟨a, next ▸ ha, (ids a).trans hid, (kinds a).trans kind⟩
    · obtain ⟨a, ha, hid, kind⟩ := collection.node sound within mem hp
      exact ⟨a, next ▸ ha, (ids a).trans hid, (kinds a).trans kind⟩
  · intro a j tree p k hj he hp hk
    rw [ids] at hj hk
    rw [entries] at he
    rw [node hj, node hk]
    exact ranked.below hj he hp hk
  · intro j es p live hv hp
    rcases value collection wrote hv with old | mem
    · obtain ⟨a, _, hid, _⟩ := ranked.held (live' live) old hp
      rw [node hid]
      by_cases hj : j = commit.rootHash
      · rw [hj, newRoot.blank] at old
        cases old
      · rw [show rank' j = rank j from Function.update_of_ne hj _ _]
        exact ranked.stored (live' live) old hp
    · obtain ⟨a, _, hid, _⟩ := collection.node sound within mem hp
      rw [node hid]
      rcases collection.items _ mem with hcommit | ⟨hroot, _⟩ |
        ⟨b, entry, _, _, _, hb, hentry, serializes⟩
      · cases hcommit
      · have hroot : j = commit.rootHash := hroot
        rw [hroot, show rank' commit.rootHash = M + 1 from Function.update_self ..]
        exact Nat.lt_succ_of_le (bound _)
      · rw [node hb]
        cases serializes with
        | tree nodes =>
            obtain ⟨c, hc, hid'⟩ := serializeTree_mem nodes hp
            exact ranked.below hb hentry (OrdMap.mem_entries.mpr hc) hid'

/-- A cycle start changes no kind and no rank. -/
theorem Ranked.cycle {w : World System} {rank : HashId → Nat} (ranked : Ranked w rank) :
    Ranked { w with repo := w.repo.withStore w.repo.store.newCycleStarted } rank where
  fits := ranked.fits
  value := by
    intro a id v hid hv
    rw [System.getValue_newCycle] at hv
    exact ranked.value hid hv
  same := ranked.same
  held := by
    intro id entries p live hv mem
    rw [System.getValue_newCycle] at hv
    exact ranked.held (System.live_of_newCycle live) hv mem
  below := ranked.below
  stored := by
    intro id entries p live hv mem
    rw [System.getValue_newCycle] at hv
    exact ranked.stored (System.live_of_newCycle live) hv mem

/-- All calls keep ranks and kinds, whatever is put in place. -/
theorem regular_steady : SteadyStore (fun _ => True) Regular where
  nonempty := fun _ => trivial
  alloc := fun _ ⟨rank, ranked⟩ put => ⟨rank, ranked.alloc put⟩
  load := fun sound ⟨rank, ranked⟩ live found => ⟨rank, ranked.load sound live found⟩
  setEntry := fun _ ⟨rank, ranked⟩ _ _ hid live found encodes =>
    ⟨rank, ranked.setEntry hid live found encodes⟩
  step := fun sound ⟨_, ranked⟩ step => ranked.step sound (fun _ => trivial) step
  marks := fun _ ⟨rank, ranked⟩ marks => ⟨rank, ranked.marks marks⟩
  commits := fun sound ⟨_, ranked⟩ commits => commits.regular ranked sound
  cycle := fun ⟨rank, ranked⟩ => ⟨rank, ranked.cycle⟩

end Committing

/-! ## What this says of trees -/

section Trees

variable {w : World S} {rank : HashId → Nat}

omit [LawfulStore S] in
/-- A directory of finite trees is one. -/
theorem exists_shows {V : Type} (m : OrdMap KeyFragment V) (ref : V → Ref)
    (children : ∀ name v, m.get name = some v → ∃ c, Shows w (content w (ref v)) c) :
    ∃ c, Shows w (.directory m.isEmpty fun name => (m.get name).map ref) c := by
  have each : ∀ name, ∃ c, ∀ v, m.get name = some v → Shows w (content w (ref v)) c := by
    intro name
    cases hv : m.get name with
    | none => exact ⟨.value [], nofun⟩
    | some v =>
        obtain ⟨c, hc⟩ := children name v hv
        refine ⟨c, ?_⟩
        intro v' h
        cases h
        exact hc
  choose child shows using each
  refine ⟨.directory m.keys.toFinset child, ?_⟩
  intro key
  cases key with
  | nil =>
      rw [answerIn_directory_nil, NameTree.get_nil]
      refine congrArg Answer.directory ?_
      rw [Bool.eq_iff_iff, decide_eq_true_iff, List.toFinset_eq_empty_iff, OrdMap.isEmpty,
        List.isEmpty_iff, OrdMap.keys, List.map_eq_nil_iff]
  | cons name key =>
      rw [NameTree.get_directory_cons]
      cases hv : m.get name with
      | none =>
          have absent : name ∉ m.keys.toFinset := by
            rw [List.mem_toFinset, OrdMap.mem_keys]
            rintro ⟨v, h⟩
            rw [hv] at h
            cases h
          rw [if_neg absent]
          simp only [answerIn, hv]
          rfl
      | some v =>
          have present : name ∈ m.keys.toFinset := by
            rw [List.mem_toFinset, OrdMap.mem_keys]
            exact ⟨v, hv⟩
          rw [if_pos present]
          simp only [answerIn, hv]
          exact shows name v hv key

/-- What is stored at an id, by the rank of the id. -/
theorem Ranked.shows_stored (ranked : Ranked w rank) (sound : Sound w) {id : HashId}
    (live : Live w.repo id)
    (present : ∀ key, answerIn w (storedContent w.repo id) key ≠ .broken) :
    ∃ c, Shows w (storedContent w.repo id) c := by
  induction hn : rank id using Nat.strong_induction_on generalizing id with
  | _ n ih =>
      subst hn
      unfold storedContent at present ⊢
      split
      next v found => exact ⟨.value v, .value w v⟩
      next entries found =>
        rw [found] at present
        refine exists_shows entries (fun p => .stored p.2) ?_
        intro name p hp
        have mem := OrdMap.mem_entries.mpr hp
        have reference : p.2 ∈ (Serialized.tree entries).references :=
          List.mem_map.mpr ⟨(name, p), mem, rfl⟩
        refine ih _ (ranked.stored live found mem)
          (sound.closed.references live found reference).1 ?_ rfl
        intro key broken
        refine present (name :: key) ?_
        simp only [answerIn, hp]
        exact broken
      next missing other =>
        refine absurd ?_ (present [])
        split
        next v found => exact absurd found (missing v)
        next entries found => exact absurd found (other entries)
        next => rfl

/-- What a node with an id leads to, by the rank of the id. -/
theorem Ranked.shows_id (ranked : Ranked w rank) (sound : Sound w) {a : Addr} {id : HashId}
    (ha : a < w.heap.next) (hid : (w.heap.node a).entryHash = some id)
    (present : ∀ key, answerIn w (content w (.node a)) key ≠ .broken) :
    ∃ c, Shows w (content w (.node a)) c := by
  induction hn : rank id using Nat.strong_induction_on generalizing id a with
  | _ n ih =>
      subst hn
      cases he : (w.heap.node a).entry with
      | none =>
          obtain ⟨_, j, hj, known⟩ := (sound.nodes a).stored ha he
          rw [hid] at hj
          cases hj
          rw [content_unloaded w he hid] at present ⊢
          exact ranked.shows_stored sound ((sound.nodes a).live hid known) present
      | some entry =>
          rw [content_entry w he] at present ⊢
          cases entry with
          | blob v => exact ⟨.value v, .value w v⟩
          | commit commit => exact (ranked.fits he).elim
          | tree tree =>
              refine exists_shows tree .node ?_
              intro name b hb
              have mem := OrdMap.mem_entries.mpr hb
              have some : (w.heap.node a).entryHash ≠ none := by
                rw [hid]
                exact Option.some_ne_none id
              obtain ⟨j, hj⟩ := Option.ne_none_iff_exists'.mp ((sound.nodes a).filled some he _ mem)
              refine ih _ (ranked.below hid he mem hj) ((sound.nodes a).within he _ mem) hj ?_ rfl
              intro key broken
              refine present (name :: key) ?_
              change treeAnswer w tree (name :: key) = _
              rw [treeAnswer_some w hb]
              exact broken

/-- What a node leads to, by its age as long as it has no id. -/
theorem Ranked.shows_node (ranked : Ranked w rank) (sound : Sound w) {a : Addr}
    (ha : a < w.heap.next) (present : ∀ key, answerIn w (content w (.node a)) key ≠ .broken) :
    ∃ c, Shows w (content w (.node a)) c := by
  induction a using Nat.strong_induction_on with
  | _ a ih =>
      cases hid : (w.heap.node a).entryHash with
      | some id => exact ranked.shows_id sound ha hid present
      | none =>
          cases he : (w.heap.node a).entry with
          | none =>
              obtain ⟨_, id, some, _⟩ := (sound.nodes a).stored ha he
              rw [hid] at some
              cases some
          | some entry =>
              rw [content_entry w he] at present ⊢
              cases entry with
              | blob v => exact ⟨.value v, .value w v⟩
              | commit commit => exact (ranked.fits he).elim
              | tree tree =>
                  refine exists_shows tree .node ?_
                  intro name b hb
                  have lt := (sound.nodes a).older (.of_none hid) he (OrdMap.mem_entries.mpr hb)
                  refine ih b lt (Nat.lt_trans lt ha) ?_
                  intro key broken
                  refine present (name :: key) ?_
                  change treeAnswer w tree (name :: key) = _
                  rw [treeAnswer_some w hb]
                  exact broken

/-- A tree whose entries are there is a finite tree of names. -/
theorem Regular.shows (regular : Regular w) (sound : Sound w) {root : Tree}
    (within : Within w.heap root) (present : Present w root) :
    ∃ c, Shows w (treeContent root) c := by
  obtain ⟨rank, ranked⟩ := regular
  refine exists_shows root .node ?_
  intro name a ha
  refine ranked.shows_node sound (within.get ha) ?_
  intro key broken
  refine present (name :: key) ?_
  rw [treeAnswer_some w ha]
  exact broken

theorem Named.live (sound : Sound w) (known : ∀ id, Known S id) {id : HashId} (named : Named w id) :
    Live w.repo id := by
  induction named with
  | @node a id _ hasId => exact (sound.nodes a).live hasId (known id)
  | @reference id entries p _ found mem ih =>
      exact (sound.closed.references ih found (List.mem_map.mpr ⟨p, mem, rfl⟩)).1

omit [LawfulStore S] in
theorem suits_stored {id : HashId} {kind : NodeKind}
    (fits : ∀ v, getValue id w.repo = .ok (some v) → v.Fits kind) :
    Suits kind (answerIn w (storedContent w.repo id) []) := by
  unfold storedContent
  split
  next v found => exact fits _ found
  next entries found => exact fits _ found
  next => trivial

/-- Nodes and stored directories say of what kind their entries are. -/
theorem Regular.kinded (regular : Regular w) (sound : Sound w) (known : ∀ id, Known S id) :
    Kinded w where
  nodes := by
    intro a ha
    obtain ⟨rank, ranked⟩ := regular
    cases he : (w.heap.node a).entry with
    | none =>
        obtain ⟨_, id, hid, _⟩ := (sound.nodes a).stored ha he
        rw [content_unloaded w he hid]
        exact suits_stored fun v found => ranked.value hid found
    | some entry =>
        have fits := ranked.fits he
        rw [content_entry w he]
        cases entry with
        | tree tree => exact fits
        | blob v => exact fits
        | commit commit => exact fits.elim
  stored := by
    intro id entries p named found hp
    obtain ⟨rank, ranked⟩ := regular
    obtain ⟨a, _, hid, kind⟩ := ranked.held (named.live sound known) found hp
    rw [← kind]
    exact suits_stored fun v found => ranked.value hid found

end Trees

/-! ## Whole runs -/

section Runs

variable [Digest] {s s' : Session System}

theorem regular_start (disabled : Bool) (schedule : List Nat) :
    SteadySession Regular (.start disabled schedule) where
  sound := soundSession_new disabled schedule 0
  holds := ⟨fun _ => 0, nofun, nofun, nofun, fun live => absurd live.1 (Nat.not_lt_zero _), nofun,
    fun live => absurd live.1 (Nat.not_lt_zero _)⟩

/-- In every state of a process that ends no cycle, a tree whose entries are there is a
finite tree of names. -/
theorem TreeRuns.shows {disabled : Bool} {schedule : List Nat}
    (run : TreeRuns (fun _ op => op ≠ .op .cycleStarted) (.start disabled schedule) s)
    {t : WorkingTree} (reached : t ∈ s.trees ∨ ∃ c ∈ s.contexts, c.tree = t)
    (present : Present s.world t.root) :
    Kinded s.world ∧ ∃ c, Shows s.world (treeContent t.root) c := by
  have session := regular_steady.run
    (fun _ _ h => Or.inr ⟨fun _ => trivial, fun cycle => absurd cycle h⟩) run
    (regular_start disabled schedule)
  have sound := session.sound.sound
  exact ⟨session.holds.kinded sound fun _ => trivial,
    session.holds.shows sound (session.within reached) present⟩

end Runs

end NodeFuzzer
