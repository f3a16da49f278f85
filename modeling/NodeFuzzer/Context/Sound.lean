import NodeFuzzer.Context.HashSpec
import NodeFuzzer.Context.TezedgeContext

/-!
# Working trees and the nodes they share

What holds of nodes and store between any two calls is `Sound`.  Calls on working trees
make new nodes, load entries of old ones, and change nothing else: this is `Grows`.  It
keeps the hash of every node.
-/

namespace NodeFuzzer

open KeyValueStoreBackend StoreView

/-! ## Entries and their values -/

/-- The nodes of an entry. -/
def Entry.children : Entry → List Addr
  | .tree t => t.entries.map Prod.snd
  | _ => []

/-- The nodes of a directory have been made. -/
def Within (heap : Heap) (tree : Tree) : Prop := ∀ p ∈ tree.entries, p.2 < heap.next

theorem Within.empty (heap : Heap) : Within heap .empty := fun _ hp => absurd hp List.not_mem_nil

theorem Within.mono {heap heap' : Heap} {tree : Tree} (h : Within heap tree)
    (next : heap.next ≤ heap'.next) : Within heap' tree :=
  fun p hp => Nat.lt_of_lt_of_le (h p hp) next

theorem Within.get {heap : Heap} {tree : Tree} (h : Within heap tree) {name : KeyFragment}
    {a : Addr} (get : tree.get name = some a) : a < heap.next :=
  h (name, a) (OrdMap.mem_entries.mpr get)

theorem Within.remove {heap : Heap} {tree : Tree} (h : Within heap tree) (name : KeyFragment) :
    Within heap (tree.remove name) := fun p hp => h p (List.mem_of_mem_filter hp)

theorem Within.insert {heap : Heap} {tree : Tree} {a : Addr} (h : Within heap tree)
    (ha : a < heap.next) (name : KeyFragment) : Within heap (tree.insert name a) := by
  intro p hp
  rcases OrdMap.mem_insertEntry hp with rfl | hp
  · exact ha
  · exact h p hp

theorem serializeTree_get {heap : Heap} {tree : Tree}
    {entries : OrdMap KeyFragment (NodeKind × HashId)}
    (h : serializeTree heap tree = some entries) (name : KeyFragment) :
    (entries.get name).map some = (tree.get name).map fun a =>
      (heap.node a).entryHash.map fun id => ((heap.node a).nodeKind, id) := by
  have hmap := congrArg (fun m => OrdMap.get m name) (OrdMap.mapOption_eq_some.mp h)
  simpa only [OrdMap.get_mapValues] using hmap

/-- A node of a directory that was serialized. -/
theorem serializeTree_node {heap : Heap} {tree : Tree}
    {entries : OrdMap KeyFragment (NodeKind × HashId)}
    (h : serializeTree heap tree = some entries) {name : KeyFragment} {a : Addr}
    (ha : tree.get name = some a) :
    ∃ id, (heap.node a).entryHash = some id ∧
      entries.get name = some ((heap.node a).nodeKind, id) := by
  have hget := serializeTree_get h name
  rw [ha] at hget
  cases hid : (heap.node a).entryHash with
  | none =>
      rw [Option.map_some, hid] at hget
      cases hentry : entries.get name with
      | none =>
          rw [hentry] at hget
          cases hget
      | some q =>
          rw [hentry] at hget
          cases hget
  | some id =>
      rw [Option.map_some, hid] at hget
      cases hentry : entries.get name with
      | none =>
          rw [hentry] at hget
          cases hget
      | some q =>
          rw [hentry] at hget
          cases hget
          exact ⟨id, rfl, rfl⟩

/-- What a serialized directory refers to is the id of one of its nodes. -/
theorem serializeTree_mem {heap : Heap} {tree : Tree}
    {entries : OrdMap KeyFragment (NodeKind × HashId)}
    (h : serializeTree heap tree = some entries) {q : KeyFragment × NodeKind × HashId}
    (hq : q ∈ entries.entries) :
    ∃ a, tree.get q.1 = some a ∧ (heap.node a).entryHash = some q.2.2 := by
  have hget := serializeTree_get h q.1
  rw [OrdMap.mem_entries.mp hq] at hget
  cases htree : tree.get q.1 with
  | none =>
      rw [htree] at hget
      cases hget
  | some a =>
      obtain ⟨id, hid, hentry⟩ := serializeTree_node h htree
      rw [OrdMap.mem_entries.mp hq] at hentry
      refine ⟨a, rfl, ?_⟩
      rw [Option.some.inj hentry]
      exact hid

/-- A directory has the names it was serialized with. -/
theorem serializeTree_get_none {heap : Heap} {tree : Tree}
    {entries : OrdMap KeyFragment (NodeKind × HashId)}
    (h : serializeTree heap tree = some entries) {name : KeyFragment}
    (ha : tree.get name = none) : entries.get name = none := by
  have hget := serializeTree_get h name
  rw [ha] at hget
  exact Option.map_eq_none_iff.mp hget

/-- A directory and its value are empty at the same time. -/
theorem serializeTree_isEmpty {heap : Heap} {tree : Tree}
    {entries : OrdMap KeyFragment (NodeKind × HashId)}
    (h : serializeTree heap tree = some entries) : entries.isEmpty = tree.isEmpty := by
  cases htree : tree.isEmpty with
  | true =>
      refine OrdMap.isEmpty_iff.mpr ?_
      intro name
      exact serializeTree_get_none h (OrdMap.isEmpty_iff.mp htree name)
  | false =>
      obtain ⟨name, a, ha⟩ := OrdMap.isEmpty_eq_false_iff.mp htree
      obtain ⟨id, _, hget⟩ := serializeTree_node h ha
      exact OrdMap.isEmpty_eq_false_iff.mpr ⟨name, _, hget⟩

theorem serializeTree_congr {heap heap' : Heap} {tree : Tree}
    (same : ∀ p ∈ tree.entries, (heap'.node p.2).entryHash = (heap.node p.2).entryHash ∧
      (heap'.node p.2).nodeKind = (heap.node p.2).nodeKind) :
    serializeTree heap' tree = serializeTree heap tree := by
  have hmap : tree.mapValues (fun a => (heap'.node a).entryHash.map fun id =>
        ((heap'.node a).nodeKind, id)) =
      tree.mapValues fun a => (heap.node a).entryHash.map fun id => ((heap.node a).nodeKind, id) := by
    refine OrdMap.ext_entries ?_
    apply List.map_congr_left
    intro p hp
    simp only [(same p hp).1, (same p hp).2]
  refine Option.ext fun entries => ?_
  rw [serializeTree, serializeTree, OrdMap.mapOption_eq_some, OrdMap.mapOption_eq_some, hmap]

/-- Directories whose nodes have ids can be serialized. -/
theorem serializeTree_isSome {S : Type} {w : World S} {tree : Tree} (ids : HasIds w tree.entries) :
    ∃ entries, serializeTree w.heap tree = some entries := by
  refine ⟨_, dif_pos ?_⟩
  intro p hp
  rw [Option.isSome_map]
  exact Option.isSome_iff_ne_none.mpr (ids p hp)

theorem hasIds_of_serializeTree {S : Type} {w : World S} {tree : Tree}
    {entries : OrdMap KeyFragment (NodeKind × HashId)}
    (h : serializeTree w.heap tree = some entries) : HasIds w tree.entries := by
  intro p hp
  obtain ⟨id, hid, _⟩ := serializeTree_node h (OrdMap.mem_entries.mp hp)
  rw [hid]
  exact Option.some_ne_none id

/-- The value decodes to the entry: the nodes of a directory were commited under the ids
of the value. -/
inductive EncodesEntry (heap : Heap) : Entry → Serialized → Prop
  | blob (value : ContextValue) : EncodesEntry heap (.blob value) (.blob value)
  | commit (commit : Commit) : EncodesEntry heap (.commit commit) (.commit commit)
  | tree {tree : Tree} {entries : OrdMap KeyFragment (NodeKind × HashId)}
      (nodes : serializeTree heap tree = some entries)
      (commited : ∀ p ∈ tree.entries, (heap.node p.2).commited = true)
      (within : Within heap tree) : EncodesEntry heap (.tree tree) (.tree entries)

theorem EncodesEntry.congr {heap heap' : Heap} {entry : Entry} {value : Serialized}
    (h : EncodesEntry heap entry value) (next : heap.next ≤ heap'.next)
    (same : ∀ a, a < heap.next → (heap'.node a).entryHash = (heap.node a).entryHash ∧
      (heap'.node a).nodeKind = (heap.node a).nodeKind ∧
      ((heap.node a).commited = true → (heap'.node a).commited = true)) :
    EncodesEntry heap' entry value := by
  cases h with
  | blob value => exact .blob value
  | commit commit => exact .commit commit
  | tree nodes commited within =>
      refine .tree ?_ ?_ (within.mono next)
      · rw [serializeTree_congr fun p hp => ?_]
        · exact nodes
        · exact ⟨(same _ (within p hp)).1, (same _ (within p hp)).2.1⟩
      · exact fun p hp => (same _ (within p hp)).2.2 (commited p hp)

variable {S : Type} [KeyValueStoreBackend S] [LawfulStore S]

/-! ## States -/

/-- Values and names of commits refer to ids in use. -/
structure Closed (s : S) : Prop where
  references : ∀ {id value r}, Live s id → getValue id s = .ok (some value) →
    r ∈ value.references → Live s r ∧ Known S r
  contexts : ∀ {h id}, getContextHash h s = .ok (some id) → Live s id ∧ Known S id

theorem Keeps.closed {s s' : S} (keeps : Keeps s s') (closed : Closed s) : Closed s' where
  references := by
    intro id value r live hvalue hr
    by_cases old : Live s id
    · rw [(keeps.old id old).2.2] at hvalue
      obtain ⟨hlive, known⟩ := closed.references old hvalue hr
      exact ⟨(keeps.old r hlive).1, known⟩
    · rw [keeps.blank id live old] at hvalue
      cases hvalue
  contexts := by
    intro h id hid
    rw [keeps.contexts h] at hid
    obtain ⟨live, known⟩ := closed.contexts hid
    exact ⟨(keeps.old id live).1, known⟩

/-- What holds of every node between calls. -/
structure SoundNode (w : World S) (a : Addr) : Prop where
  /-- An id it keeps is in use. -/
  live : ∀ {id}, (w.heap.node a).entryHash = some id → Known S id → Live w.repo id
  /-- A directory without an id is newer than its nodes. -/
  older : ∀ {tree p}, Unknown w a → (w.heap.node a).entry = some (.tree tree) →
    p ∈ tree.entries → p.2 < a
  notCommit : ∀ {commit}, Unknown w a → (w.heap.node a).entry ≠ some (.commit commit)
  /-- The nodes of a directory have ids when it has one. -/
  filled : ∀ {tree}, (w.heap.node a).entryHash ≠ none →
    (w.heap.node a).entry = some (.tree tree) → HasIds w tree.entries
  within : ∀ {tree}, (w.heap.node a).entry = some (.tree tree) → Within w.heap tree
  /-- An entry that is not there can be loaded. -/
  stored : a < w.heap.next → (w.heap.node a).entry = none →
    (w.heap.node a).commited = true ∧ ∃ id, (w.heap.node a).entryHash = some id ∧ Known S id
  /-- A directory that was not commited is newer than its nodes. -/
  newer : ∀ {tree p}, (w.heap.node a).commited = false →
    (w.heap.node a).entry = some (.tree tree) → p ∈ tree.entries → p.2 < a
  plain : ∀ {commit}, (w.heap.node a).commited = false →
    (w.heap.node a).entry ≠ some (.commit commit)

/-- A node that stays as it is. -/
theorem SoundNode.same {w w' : World S} {a : Addr} (h : SoundNode w a)
    (node : w'.heap.node a = w.heap.node a) (next : w.heap.next ≤ w'.heap.next)
    (made : a < w.heap.next ∨ w'.heap.next ≤ a)
    (ids : ∀ b, b < w.heap.next → (w.heap.node b).entryHash ≠ none →
      (w'.heap.node b).entryHash ≠ none)
    (live : ∀ id, Known S id → Live w.repo id → Live w'.repo id) : SoundNode w' a := by
  have unknown : Unknown w' a ↔ Unknown w a := by rw [Unknown, Unknown, node]
  constructor
  · intro id hid known
    rw [node] at hid
    exact live id known (h.live hid known)
  · intro tree p hunknown hentry
    rw [node] at hentry
    exact h.older (unknown.mp hunknown) hentry
  · intro commit hunknown
    rw [node]
    exact h.notCommit (unknown.mp hunknown)
  · intro tree hid hentry p hp
    rw [node] at hid hentry
    exact ids p.2 (h.within hentry p hp) (h.filled hid hentry p hp)
  · intro tree hentry
    rw [node] at hentry
    exact (h.within hentry).mono next
  · intro ha hentry
    rw [node] at hentry ⊢
    exact h.stored (made.resolve_right (Nat.not_le.mpr ha)) hentry
  · intro tree p hcommited hentry
    rw [node] at hcommited hentry
    exact h.newer hcommited hentry
  · intro commit hcommited
    rw [node] at hcommited ⊢
    exact h.plain hcommited

/-- What holds of nodes and store between calls. -/
structure Sound (w : World S) : Prop where
  inv : Inv w.repo
  closed : Closed w.repo
  nodes : ∀ a, SoundNode w a

theorem Sound.good {w : World S} (sound : Sound w) : Good w where
  inv := sound.inv
  live := fun {a _} => (sound.nodes a).live
  older := fun {a _ _} => (sound.nodes a).older
  notCommit := fun {a _} => (sound.nodes a).notCommit

/-- A node without an entry has an id that stays. -/
theorem Sound.not_unknown {w : World S} (sound : Sound w) {a : Addr} (ha : a < w.heap.next)
    (hentry : (w.heap.node a).entry = none) : ¬ Unknown w a := by
  obtain ⟨_, id, hid, known⟩ := (sound.nodes a).stored ha hentry
  exact fun unknown => unknown id hid known

/-! ## New nodes and loaded entries -/

/-- A node keeps the id, or a value in use refers to it. -/
inductive Referenced (w : World S) (id : HashId) : Prop
  | node {a : Addr} (lt : a < w.heap.next) (hasId : (w.heap.node a).entryHash = some id)
  | value {j : HashId} {value : Serialized} (live : Live w.repo j)
      (parent : getValue j w.repo = .ok (some value)) (mem : id ∈ value.references)

/-- Where a node of `w'` comes from, seen from an earlier `w`. -/
inductive Origin (w w' : World S) (a : Addr) : Prop
  | old (lt : a < w.heap.next) (same : w'.heap.node a = w.heap.node a)
  | made (new : w.heap.next ≤ a) (commited : (w'.heap.node a).commited = false)
      (noId : (w'.heap.node a).entryHash = none)
  | stored {id j : HashId} {value : Serialized} (hasId : (w'.heap.node a).entryHash = some id)
      (commited : (w'.heap.node a).commited = true) (noEntry : (w'.heap.node a).entry = none)
      (live : Live w.repo j) (parent : getValue j w.repo = .ok (some value))
      (mem : id ∈ value.references)
  | loaded {id : HashId} {value : Serialized} {entry : Entry}
      (hasId : (w'.heap.node a).entryHash = some id)
      (commited : (w'.heap.node a).commited = true)
      (hasEntry : (w'.heap.node a).entry = some entry) (live : Live w.repo id)
      (found : getValue id w.repo = .ok (some value)) (encodes : EncodesEntry w'.heap entry value)
      (source : Referenced w id)

/-- What calls on working trees do: they make nodes and load entries. -/
structure Grows (w w' : World S) : Prop where
  sound : Sound w'
  repo : w'.repo = w.repo
  next : w.heap.next ≤ w'.heap.next
  node : ∀ a, a < w.heap.next →
    w'.heap.node a = { w.heap.node a with entry := (w'.heap.node a).entry }
  entry : ∀ a, a < w.heap.next → ∀ e, (w.heap.node a).entry = some e →
    (w'.heap.node a).entry = some e
  origin : ∀ a, a < w'.heap.next → Origin w w' a

namespace Grows

variable {w w' w'' : World S}

theorem refl (sound : Sound w) : Grows w w where
  sound := sound
  repo := rfl
  next := le_refl _
  node := fun _ _ => rfl
  entry := fun _ _ _ h => h
  origin := fun _ ha => .old ha rfl

theorem entryHash (h : Grows w w') {a : Addr} (ha : a < w.heap.next) :
    (w'.heap.node a).entryHash = (w.heap.node a).entryHash := by rw [h.node a ha]

theorem nodeKind (h : Grows w w') {a : Addr} (ha : a < w.heap.next) :
    (w'.heap.node a).nodeKind = (w.heap.node a).nodeKind := by rw [h.node a ha]

theorem commited (h : Grows w w') {a : Addr} (ha : a < w.heap.next) :
    (w'.heap.node a).commited = (w.heap.node a).commited := by rw [h.node a ha]

theorem encodes (h : Grows w w') {entry : Entry} {value : Serialized}
    (encodes : EncodesEntry w.heap entry value) : EncodesEntry w'.heap entry value :=
  encodes.congr h.next fun _ ha => ⟨h.entryHash ha, h.nodeKind ha, by
    rw [h.commited ha]
    exact id⟩

/-- An id that a new node keeps is one that is referred to. -/
theorem referenced (h : Grows w w') {id : HashId} (source : Referenced w' id) :
    Referenced w id := by
  cases source with
  | node lt hasId =>
      cases h.origin _ lt with
      | old lt same =>
          rw [same] at hasId
          exact .node lt hasId
      | made new commited noId =>
          rw [noId] at hasId
          cases hasId
      | stored hasId' commited noEntry live parent mem =>
          rw [hasId'] at hasId
          cases hasId
          exact .value live parent mem
      | loaded hasId' commited hasEntry live found encodes source =>
          rw [hasId'] at hasId
          cases hasId
          exact source
  | value live parent mem =>
      rw [h.repo] at live parent
      exact .value live parent mem

theorem trans (h : Grows w w') (h' : Grows w' w'') : Grows w w'' where
  sound := h'.sound
  repo := h'.repo.trans h.repo
  next := h.next.trans h'.next
  node := by
    intro a ha
    rw [h'.node a (Nat.lt_of_lt_of_le ha h.next), h.node a ha]
  entry := fun a ha e he => h'.entry a (Nat.lt_of_lt_of_le ha h.next) e (h.entry a ha e he)
  origin := by
    intro a ha
    cases h'.origin a ha with
    | old lt same =>
        cases h.origin a lt with
        | old lt same' => exact .old lt (same.trans same')
        | made new commited noId => exact .made new (by rw [same]; exact commited) (by rw [same]; exact noId)
        | stored hasId commited noEntry live parent mem =>
            exact .stored (by rw [same]; exact hasId) (by rw [same]; exact commited)
              (by rw [same]; exact noEntry) live parent mem
        | loaded hasId commited hasEntry live found encodes source =>
            exact .loaded (by rw [same]; exact hasId) (by rw [same]; exact commited)
              (by rw [same]; exact hasEntry) live found (h'.encodes encodes) source
    | made new commited noId => exact .made (h.next.trans new) commited noId
    | stored hasId commited noEntry live parent mem =>
        rw [h.repo] at live parent
        exact .stored hasId commited noEntry live parent mem
    | loaded hasId commited hasEntry live found encodes source =>
        rw [h.repo] at live found
        exact .loaded hasId commited hasEntry live found encodes (h.referenced source)

/-- A change of the nodes that are new, or that the call wrote. -/
theorem ofHeap {heap : Heap} (sound : Sound w) (next : w.heap.next ≤ heap.next)
    (node : ∀ a, a < w.heap.next → heap.node a = { w.heap.node a with entry := (heap.node a).entry })
    (entry : ∀ a, a < w.heap.next → ∀ e, (w.heap.node a).entry = some e →
      (heap.node a).entry = some e)
    (nodes : ∀ a, heap.node a ≠ w.heap.node a ∨ w.heap.next ≤ a ∧ a < heap.next →
      a < heap.next ∧ SoundNode { w with heap := heap } a ∧ Origin w { w with heap := heap } a) :
    Grows w { w with heap := heap } := by
  have ids : ∀ b, b < w.heap.next → (w.heap.node b).entryHash ≠ none →
      (heap.node b).entryHash ≠ none := by
    intro b hb hid
    rw [node b hb]
    exact hid
  refine ⟨⟨sound.inv, sound.closed, ?_⟩, rfl, next, node, entry, ?_⟩
  · intro a
    by_cases changed : heap.node a ≠ w.heap.node a ∨ w.heap.next ≤ a ∧ a < heap.next
    · exact (nodes a changed).2.1
    · have same : heap.node a = w.heap.node a := by
        by_contra hne
        exact changed (Or.inl hne)
      refine (sound.nodes a).same same next ?_ ids fun _ _ live => live
      by_contra hmade
      rw [not_or, Nat.not_lt, Nat.not_le] at hmade
      exact changed (Or.inr hmade)
  · intro a ha
    by_cases changed : heap.node a ≠ w.heap.node a ∨ w.heap.next ≤ a ∧ a < heap.next
    · exact (nodes a changed).2.2
    · refine .old ?_ ?_
      · by_contra hlt
        exact changed (Or.inr ⟨Nat.not_lt.mp hlt, ha⟩)
      · by_contra hne
        exact changed (Or.inl hne)

/-- Making a node for a blob or for a directory of nodes that exist. -/
theorem alloc {node : Node} (sound : Sound w) (commited : node.commited = false)
    (noId : node.entryHash = none) (hasEntry : node.entry ≠ none)
    (within : ∀ {tree}, node.entry = some (.tree tree) → Within w.heap tree)
    (plain : ∀ commit, node.entry ≠ some (.commit commit)) :
    Grows w { w with heap := w.heap.alloc node } := by
  refine ofHeap sound (Nat.le_succ _) ?_ ?_ ?_
  · intro a ha
    rw [Heap.alloc_node_of_lt ha]
  · intro a ha e he
    rw [Heap.alloc_node_of_lt ha]
    exact he
  · intro a changed
    have here : a = w.heap.next := by
      rcases changed with hne | ⟨hge, hlt⟩
      · by_contra ha
        exact hne (Function.update_of_ne ha ..)
      · exact Nat.le_antisymm (Nat.lt_succ_iff.mp hlt) hge
    subst here
    have hnode : (w.heap.alloc node).node w.heap.next = node := Heap.alloc_node_self ..
    refine ⟨Nat.lt_succ_self _, ?_, .made (le_refl _) (by rw [hnode]; exact commited)
      (by rw [hnode]; exact noId)⟩
    constructor
    all_goals simp only [Heap.alloc_node_self]
    · intro id hid
      rw [noId] at hid
      cases hid
    · exact fun _ hentry hp => within hentry _ hp
    · exact fun {commit} _ => plain commit
    · exact fun hid => absurd noId hid
    · exact fun hentry => (within hentry).mono (Nat.le_succ _)
    · exact fun _ hentry => absurd hentry hasEntry
    · exact fun _ hentry hp => within hentry _ hp
    · exact fun {commit} _ => plain commit

/-- Loading the entry of a node. -/
theorem setEntry {a : Addr} {id : HashId} {entry : Entry} {value : Serialized} (sound : Sound w)
    (ha : a < w.heap.next) (noEntry : (w.heap.node a).entry = none)
    (hasId : (w.heap.node a).entryHash = some id)
    (found : getValue id w.repo = .ok (some value)) (encodes : EncodesEntry w.heap entry value) :
    Grows w { w with heap := w.heap.set a { w.heap.node a with entry := some entry } } := by
  obtain ⟨commited, id', hid', known⟩ := (sound.nodes a).stored ha noEntry
  rw [hasId] at hid'
  cases hid'
  have live := (sound.nodes a).live hasId known
  have fields : ∀ b, (w.heap.set a { w.heap.node a with entry := some entry }).node b =
      { w.heap.node b with
        entry := ((w.heap.set a { w.heap.node a with entry := some entry }).node b).entry } := by
    intro b
    by_cases hb : b = a
    · rw [hb, Heap.set_node_self]
    · rw [Heap.set_node_of_ne hb]
  have encodes' : EncodesEntry (w.heap.set a { w.heap.node a with entry := some entry }) entry value := by
    refine encodes.congr (le_refl _) ?_
    intro b _
    rw [fields b]
    exact ⟨rfl, rfl, fun h => h⟩
  refine ofHeap sound (le_refl _) (fun b _ => fields b) ?_ ?_
  · intro b _ e he
    have hb : b ≠ a := by
      rintro rfl
      rw [noEntry] at he
      cases he
    rw [Heap.set_node_of_ne hb]
    exact he
  · intro b changed
    have hb : b = a := by
      rcases changed with hne | ⟨hge, hlt⟩
      · by_contra hb
        exact hne (Heap.set_node_of_ne hb _)
      · exact absurd hlt (Nat.not_lt.mpr hge)
    subst hb
    refine ⟨ha, ?_, .loaded (by rw [Heap.set_node_self]; exact hasId)
      (by rw [Heap.set_node_self]; exact commited) (by rw [Heap.set_node_self]) live found encodes'
      (.node ha hasId)⟩
    have knownNode : ¬ Unknown { w with
        heap := w.heap.set b { w.heap.node b with entry := some entry } } b := by
      intro unknown
      exact unknown id (by rw [Heap.set_node_self]; exact hasId) known
    constructor
    · intro j hj _
      rw [Heap.set_node_self] at hj
      rw [hasId] at hj
      cases hj
      exact live
    · exact fun unknown => absurd unknown knownNode
    · exact fun unknown => absurd unknown knownNode
    · intro tree _ hentry
      rw [Heap.set_node_self] at hentry
      cases hentry
      cases encodes' with
      | tree nodes _ _ => exact hasIds_of_serializeTree nodes
    · intro tree hentry
      rw [Heap.set_node_self] at hentry
      cases hentry
      cases encodes' with
      | tree _ _ within => exact within
    · intro _ hentry
      rw [Heap.set_node_self] at hentry
      cases hentry
    · intro tree p hcommited
      rw [Heap.set_node_self] at hcommited
      rw [commited] at hcommited
      cases hcommited
    · intro commit hcommited
      rw [Heap.set_node_self] at hcommited
      rw [commited] at hcommited
      cases hcommited

end Grows

/-- The nodes of a directory that comes out of the store. -/
def loadHeap (heap : Heap) (entries : OrdMap KeyFragment (NodeKind × HashId)) : Heap :=
  heap.allocAll (entries.entries.map fun p => storedNode p.2)

theorem loadHeap_node {heap : Heap} {entries : OrdMap KeyFragment (NodeKind × HashId)} {i : Nat}
    {p : KeyFragment × NodeKind × HashId} (h : entries.entries[i]? = some p) :
    (loadHeap heap entries).node (heap.next + i) = storedNode p.2 := by
  refine Heap.allocAll_node_add ?_
  rw [List.getElem?_map, h]
  rfl

theorem encodes_loadHeap (heap : Heap) (entries : OrdMap KeyFragment (NodeKind × HashId)) :
    EncodesEntry (loadHeap heap entries) (.tree (entries.mapPosition fun i => heap.next + i))
      (.tree entries) := by
  refine .tree ?_ ?_ ?_
  · refine OrdMap.mapOption_eq_some.mpr (OrdMap.ext_entries ?_)
    refine List.ext_getElem? fun i => ?_
    simp only [OrdMap.mapValues, OrdMap.mapPosition, List.getElem?_map, List.getElem?_mapIdx]
    cases hi : entries.entries[i]? with
    | none => rfl
    | some p =>
        simp only [Option.map_some, loadHeap_node hi]
        rfl
  · intro q hq
    obtain ⟨i, v, hi, ha⟩ := OrdMap.mem_mapPosition.mp hq
    rw [ha, loadHeap_node hi]
    rfl
  · intro q hq
    obtain ⟨i, v, hi, ha⟩ := OrdMap.mem_mapPosition.mp hq
    obtain ⟨hlt, _⟩ := List.getElem?_eq_some_iff.mp hi
    rw [ha, loadHeap, Heap.allocAll_next, List.length_map]
    exact Nat.add_lt_add_left hlt _

/-- Loading a directory. -/
theorem Grows.load {w : World S} {id : HashId} {entries : OrdMap KeyFragment (NodeKind × HashId)}
    (sound : Sound w) (live : Live w.repo id)
    (found : getValue id w.repo = .ok (some (.tree entries))) :
    Grows w { w with heap := loadHeap w.heap entries } := by
  have new : ∀ a, w.heap.next ≤ a → a < (loadHeap w.heap entries).next →
      ∃ p ∈ entries.entries, (loadHeap w.heap entries).node a = storedNode p.2 := by
    intro a hge hlt
    obtain ⟨i, rfl⟩ := Nat.exists_eq_add_of_le hge
    rw [loadHeap, Heap.allocAll_next, List.length_map] at hlt
    have hi : i < entries.entries.length := Nat.lt_of_add_lt_add_left hlt
    exact ⟨entries.entries[i], List.getElem_mem hi,
      loadHeap_node (List.getElem?_eq_getElem hi)⟩
  refine Grows.ofHeap sound (Nat.le_add_right _ _) ?_ ?_ ?_
  · intro a ha
    rw [loadHeap, Heap.allocAll_node_of_lt ha]
  · intro a ha e he
    rw [loadHeap, Heap.allocAll_node_of_lt ha]
    exact he
  · intro a changed
    have range : w.heap.next ≤ a ∧ a < (loadHeap w.heap entries).next := by
      rcases changed with hne | range
      · by_contra hrange
        refine hne ?_
        by_cases hlt : a < w.heap.next
        · exact Heap.allocAll_node_of_lt hlt _
        · have hge := Nat.not_lt.mp hlt
          have hlong : (w.heap.next + (entries.entries.map fun p => storedNode p.2).length) ≤ a :=
            Nat.not_lt.mp fun h => hrange ⟨hge, h⟩
          show (if a < w.heap.next then _ else _) = _
          rw [if_neg hlt, List.getElem?_eq_none (Nat.le_sub_of_add_le' hlong)]
          rfl
      · exact range
    obtain ⟨p, hp, hnode⟩ := new a range.1 range.2
    have mem : p.2.2 ∈ (Serialized.tree entries).references := List.mem_map.mpr ⟨p, hp, rfl⟩
    obtain ⟨live', known⟩ := sound.closed.references live found mem
    have hasId : ((loadHeap w.heap entries).node a).entryHash = some p.2.2 := by
      rw [hnode]
      rfl
    refine ⟨range.2, ?_, .stored hasId (by rw [hnode]; rfl) (by rw [hnode]; rfl) live found mem⟩
    constructor
    all_goals simp only [hnode, storedNode]
    · intro j hj _
      cases hj
      exact live'
    · exact fun _ hentry => by cases hentry
    · exact fun _ hentry => by cases hentry
    · exact fun _ hentry => by cases hentry
    · exact fun hentry => by cases hentry
    · exact fun _ _ => ⟨trivial, _, rfl, known⟩
    · exact fun _ hentry => by cases hentry
    · exact fun _ hentry => by cases hentry

/-! ## Reading -/

section Reading

variable {w : World S}

/-- What was found at an id; the old nodes are as before. -/
structure Found (w w' : World S) (id : HashId) (entry : Entry) : Prop where
  grows : Grows w w'
  value : ∃ value, getValue id w.repo = .ok (some value) ∧ EncodesEntry w'.heap entry value
  same : ∀ a, a < w.heap.next → w'.heap.node a = w.heap.node a

theorem findEntry_spec {id : HashId} (sound : Sound w) (live : Live w.repo id) :
    Exec.wp (TezedgeIndex.findEntry id)
      (fun e w' => (e = none ∧ w' = w ∧ getValue id w.repo = .ok none) ∨
        ∃ entry, e = some entry ∧ Found w w' id entry)
      (fun w' => w' = w) w := by
  have here : ∀ {entry value}, getValue id w.repo = .ok (some value) →
      EncodesEntry w.heap entry value → Found w w id entry := fun found encodes =>
    ⟨Grows.refl sound, ⟨_, found, encodes⟩, fun _ _ => rfl⟩
  rw [TezedgeIndex.findEntry, Exec.wp_bind]
  refine Exec.wp_query _ ?_ fun _ _ => rfl
  intro bytes hbytes
  cases bytes with
  | none => exact Or.inl ⟨rfl, rfl, hbytes⟩
  | some value =>
      rw [Exec.wp_bind]
      cases value with
      | tree entries =>
          refine Or.inr ⟨_, rfl, Grows.load sound live hbytes,
            ⟨_, hbytes, encodes_loadHeap _ entries⟩, ?_⟩
          exact fun a ha => Heap.allocAll_node_of_lt ha _
      | blob value => exact Or.inr ⟨_, rfl, here hbytes (.blob value)⟩
      | commit commit => exact Or.inr ⟨_, rfl, here hbytes (.commit commit)⟩
      | invalid => exact rfl

theorem getEntry_spec {id : HashId} (sound : Sound w) (live : Live w.repo id) :
    Exec.wp (TezedgeIndex.getEntry id) (fun e w' => Found w w' id e) (fun w' => w' = w) w := by
  rw [TezedgeIndex.getEntry, Exec.wp_bind, Exec.wp_mapErr]
  refine Exec.wp_mono (findEntry_spec sound live) ?_ fun _ h => h
  rintro e w' (⟨rfl, rfl, _⟩ | ⟨entry, rfl, found⟩)
  · exact rfl
  · exact found

omit [LawfulStore S] in
/-- A node that has its entry. -/
theorem nodeEntry_loaded {a : Addr} {entry : Entry} (h : (w.heap.node a).entry = some entry) :
    TezedgeIndex.nodeEntry a w = (.ok entry, w) := by
  simp only [TezedgeIndex.nodeEntry, Call.readNode, Exec.gets, bind, Exec.bind, h]
  rfl

theorem nodeEntry_spec {a : Addr} (sound : Sound w) (ha : a < w.heap.next) :
    Exec.wp (TezedgeIndex.nodeEntry a)
      (fun e w' => Grows w w' ∧ (w'.heap.node a).entry = some e) (fun w' => w' = w) w := by
  rw [TezedgeIndex.nodeEntry, Exec.wp_bind, Call.readNode, Exec.wp_gets]
  cases hentry : (w.heap.node a).entry with
  | some entry => exact ⟨Grows.refl sound, hentry⟩
  | none =>
      obtain ⟨_, id, hid, known⟩ := (sound.nodes a).stored ha hentry
      rw [hid, Exec.wp_bind]
      show Exec.wp (TezedgeIndex.getEntry id >>= _) _ _ w
      rw [Exec.wp_bind]
      refine Exec.wp_mono (getEntry_spec sound ((sound.nodes a).live hid known)) ?_ fun _ h => h
      rintro entry w' ⟨grows, ⟨value, found, encodes⟩, same⟩
      rw [Exec.wp_bind, Call.updateNode, Exec.wp_modify, Exec.wp_pure]
      have load := Grows.setEntry grows.sound (Nat.lt_of_lt_of_le ha grows.next)
        (by rw [same a ha]; exact hentry) (by rw [same a ha]; exact hid)
        (by rw [grows.repo]; exact found) encodes
      exact ⟨grows.trans load, by rw [Heap.set_node_self]⟩

theorem findRawTree_spec {root : Tree} (sound : Sound w) (within : Within w.heap root)
    (key : ContextKey) :
    Exec.wp (TezedgeIndex.findRawTree root key)
      (fun tree w' => Grows w w' ∧ Within w'.heap tree) (fun w' => Grows w w') w := by
  induction key generalizing w root with
  | nil => exact ⟨Grows.refl sound, within⟩
  | cons first rest ih =>
      rw [TezedgeIndex.findRawTree]
      cases hget : root.get first with
      | none => exact ⟨Grows.refl sound, Within.empty _⟩
      | some a =>
          show Exec.wp (TezedgeIndex.nodeEntry a >>= _) _ _ w
          rw [Exec.wp_bind]
          refine Exec.wp_mono (nodeEntry_spec sound (within.get hget)) ?_ ?_
          · rintro entry w' ⟨grows, hentry⟩
            cases entry with
            | tree tree =>
                refine Exec.wp_mono (ih grows.sound ((grows.sound.nodes a).within hentry)) ?_ ?_
                · rintro tree' w'' ⟨grows', within'⟩
                  exact ⟨grows.trans grows', within'⟩
                · exact fun w'' grows' => grows.trans grows'
            | blob value => exact ⟨grows, Within.empty _⟩
            | commit commit => exact grows
          · rintro w' rfl
            exact Grows.refl sound

end Reading

/-! ## Changing -/

section Changing

variable {w : World S}

/-- A node that may be put into a tree. -/
structure NewNode (heap : Heap) (node : Node) : Prop where
  commited : node.commited = false
  noId : node.entryHash = none
  hasEntry : node.entry ≠ none
  within : ∀ {tree}, node.entry = some (.tree tree) → Within heap tree
  plain : ∀ commit, node.entry ≠ some (.commit commit)

theorem NewNode.nonLeaf {heap : Heap} {tree : Tree} (within : Within heap tree) :
    NewNode heap (getNonLeaf (.tree tree)) where
  commited := rfl
  noId := rfl
  hasEntry := Option.some_ne_none _
  within := by
    intro tree' h
    cases h
    exact within
  plain := by
    intro commit h
    cases h

theorem NewNode.leaf (heap : Heap) (value : ContextValue) :
    NewNode heap (getLeaf (.blob value)) where
  commited := rfl
  noId := rfl
  hasEntry := Option.some_ne_none _
  within := by
    intro tree' h
    cases h
  plain := by
    intro commit h
    cases h

theorem NewNode.toNode {heap : Heap} {tree : WorkingTree} (within : Within heap tree.root) :
    NewNode heap tree.toNode := by
  cases tree with
  | tree root => exact .nonLeaf within
  | value value => exact .leaf heap value

theorem NewNode.mono {heap heap' : Heap} {node : Node} (h : NewNode heap node)
    (next : heap.next ≤ heap'.next) : NewNode heap' node :=
  ⟨h.commited, h.noId, h.hasEntry, fun hentry => (h.within hentry).mono next, h.plain⟩

/-- The directory of an entry, if it is one. -/
def EntryWithin (heap : Heap) (entry : Entry) : Prop :=
  ∀ {tree}, entry = .tree tree → Within heap tree

theorem entryWithin_blob (heap : Heap) (value : ContextValue) : EntryWithin heap (.blob value) := by
  intro tree h
  cases h

theorem entryWithin_commit (heap : Heap) (commit : Commit) : EntryWithin heap (.commit commit) := by
  intro tree h
  cases h

theorem computeNewRoot_spec {root : Tree} (path : List KeyFragment) {node : Option Node}
    (sound : Sound w) (within : Within w.heap root) (new : ∀ n, node = some n → NewNode w.heap n) :
    Exec.wp (WorkingTree.computeNewRoot root path node)
      (fun e w' => Grows w w' ∧ EntryWithin w'.heap e) (fun w' => Grows w w') w := by
  induction path generalizing w node with
  | nil =>
      cases node with
      | none =>
          refine ⟨Grows.refl sound, ?_⟩
          intro tree h
          cases h
          exact Within.empty _
      | some node =>
          refine Exec.wp_orFail _ _ ?_ fun _ => Grows.refl sound
          intro entry hentry
          refine ⟨Grows.refl sound, ?_⟩
          rintro tree rfl
          exact (new node rfl).within hentry
  | cons last path ih =>
      have next : ∀ {tree : Tree} {w' : World S}, Grows w w' → Within w'.heap tree →
          Exec.wp (if tree.isEmpty then WorkingTree.computeNewRoot root path none
              else WorkingTree.computeNewRoot root path (some (getNonLeaf (.tree tree))))
            (fun e w' => Grows w w' ∧ EntryWithin w'.heap e) (fun w' => Grows w w') w' := by
        intro tree w' grows within'
        have root' := within.mono grows.next
        split
        · refine Exec.wp_mono (ih grows.sound root' fun n h => nomatch h) ?_ ?_
          · exact fun e w'' h => ⟨grows.trans h.1, h.2⟩
          · exact fun w'' h => grows.trans h
        · refine Exec.wp_mono (ih grows.sound root' ?_) ?_ ?_
          · rintro n ⟨⟩
            exact .nonLeaf within'
          · exact fun e w'' h => ⟨grows.trans h.1, h.2⟩
          · exact fun w'' h => grows.trans h
      rw [WorkingTree.computeNewRoot, Exec.wp_bind]
      refine Exec.wp_mono (findRawTree_spec sound within _) ?_ fun _ h => h
      rintro tree w' ⟨grows, within'⟩
      cases node with
      | none =>
          rw [Exec.wp_bind]
          exact next grows (within'.remove last)
      | some node =>
          have hnew := (new node rfl).mono grows.next
          have made := Grows.alloc grows.sound hnew.commited hnew.noId hnew.hasEntry hnew.within
            hnew.plain
          rw [Exec.wp_bind]
          refine next (grows.trans made) ((within'.mono made.next).insert ?_ last)
          exact Nat.lt_succ_self _

theorem changed_spec {root : Tree} {path : List KeyFragment} {node : Option Node}
    (sound : Sound w) (within : Within w.heap root) (new : ∀ n, node = some n → NewNode w.heap n) :
    Exec.wp (do
        let entry ← WorkingTree.computeNewRoot root path node
        let tree ← entryTree entry
        pure (WorkingTree.tree tree) : Call S MerkleError WorkingTree)
      (fun tree w' => Grows w w' ∧ Within w'.heap tree.root) (fun w' => Grows w w') w := by
  rw [Exec.wp_bind]
  refine Exec.wp_mono (computeNewRoot_spec path sound within new) ?_ fun _ h => h
  rintro entry w' ⟨grows, within'⟩
  cases entry with
  | tree tree => exact ⟨grows, within' rfl⟩
  | blob value => exact grows
  | commit commit => exact grows

namespace WorkingTree

variable {self : WorkingTree}

theorem add_spec (sound : Sound w) (within : Within w.heap self.root) (key : ContextKey)
    (value : ContextValue) :
    Exec.wp (self.add key value)
      (fun tree w' => Grows w w' ∧ Within w'.heap tree.root) (fun w' => Grows w w') w :=
  changed_spec sound within fun n h => by
    cases h
    exact .leaf _ value

theorem addTree_spec {tree : WorkingTree} (sound : Sound w) (within : Within w.heap self.root)
    (within' : Within w.heap tree.root) (key : ContextKey) :
    Exec.wp (self.addTree key tree)
      (fun tree w' => Grows w w' ∧ Within w'.heap tree.root) (fun w' => Grows w w') w :=
  changed_spec sound within fun n h => by
    cases h
    exact .toNode within'

theorem delete_spec (sound : Sound w) (within : Within w.heap self.root) (key : ContextKey) :
    Exec.wp (self.delete key)
      (fun tree w' => Grows w w' ∧ Within w'.heap tree.root) (fun w' => Grows w w') w := by
  rw [delete]
  split
  · exact ⟨Grows.refl sound, within⟩
  · exact changed_spec sound within fun n h => nomatch h

theorem findTree_spec (sound : Sound w) (within : Within w.heap self.root) (key : ContextKey) :
    Exec.wp (self.findTree key)
      (fun tree w' => Grows w w' ∧ ∀ t, tree = some t → Within w'.heap t.root)
      (fun w' => Grows w w') w := by
  rw [findTree, Exec.wp_bind]
  refine Exec.wp_mono (findRawTree_spec sound within key) ?_ fun _ h => h
  rintro tree w' ⟨grows, within'⟩
  split
  · exact ⟨grows, fun t h => nomatch h⟩
  · refine ⟨grows, ?_⟩
    rintro t ⟨⟩
    exact within'

theorem copy_spec (sound : Sound w) (within : Within w.heap self.root) (fromKey toKey : ContextKey) :
    Exec.wp (self.copy fromKey toKey)
      (fun tree w' => Grows w w' ∧ ∀ t, tree = some t → Within w'.heap t.root)
      (fun w' => Grows w w') w := by
  rw [copy, Exec.wp_bind]
  refine Exec.wp_handle (F := fun w' => Grows w w') ?_ ?_ fun _ h => h
  · rw [Exec.wp_bind]
    refine Exec.wp_mono (findRawTree_spec sound within fromKey) ?_ fun _ h => h
    rintro source w' ⟨grows, within'⟩
    show Exec.wp (self.computeNewRootWithChange toKey _ >>= _) _ _ w'
    rw [Exec.wp_bind]
    refine Exec.wp_mono (computeNewRoot_spec _ grows.sound (within.mono grows.next) ?_) ?_ ?_
    · rintro n ⟨⟩
      exact .nonLeaf within'
    · rintro entry w'' ⟨grows', within''⟩
      cases entry with
      | tree tree =>
          refine ⟨grows.trans grows', ?_⟩
          rintro t ⟨⟩
          exact within'' rfl
      | blob value => exact grows.trans grows'
      | commit commit => exact grows.trans grows'
    · exact fun w'' grows' => grows.trans grows'
  · intro e w' grows
    cases e with
    | entryNotFound id => exact ⟨grows, fun t h => nomatch h⟩
    | _ => exact grows

theorem getFromTree_spec {root : Tree} (sound : Sound w) (within : Within w.heap root)
    (key : ContextKey) :
    Exec.wp (getFromTree root key) (fun _ w' => Grows w w') (fun w' => Grows w w') w := by
  rw [getFromTree]
  cases key.getLast? with
  | none => exact Grows.refl sound
  | some file =>
      show Exec.wp (TezedgeIndex.findRawTree root key.dropLast >>= _) _ _ w
      rw [Exec.wp_bind]
      refine Exec.wp_mono (findRawTree_spec sound within _) ?_ fun _ h => h
      rintro tree w' ⟨grows, within'⟩
      rw [Exec.wp_bind]
      refine Exec.wp_orFail _ _ ?_ fun _ => grows
      intro a ha
      rw [Exec.wp_bind]
      refine Exec.wp_mono (nodeEntry_spec grows.sound (within'.get ha)) ?_ ?_
      · rintro entry w'' ⟨grows', _⟩
        cases entry with
        | blob value => exact grows.trans grows'
        | tree tree => exact grows.trans grows'
        | commit commit => exact grows.trans grows'
      · rintro w'' rfl
        exact grows

theorem find_spec (sound : Sound w) (within : Within w.heap self.root) (key : ContextKey) :
    Exec.wp (self.find key) (fun _ w' => Grows w w') (fun w' => Grows w w') w := by
  rw [find]
  refine Exec.wp_handle (F := fun w' => Grows w w') ?_ ?_ fun _ h => h
  · rw [Exec.wp_bind]
    exact Exec.wp_mono (getFromTree_spec sound within key) (fun _ _ h => h) fun _ h => h
  · intro e w' grows
    cases e <;> exact grows

theorem mem_spec (sound : Sound w) (within : Within w.heap self.root) (key : ContextKey) :
    Exec.wp (self.mem key) (fun _ w' => Grows w w') (fun w' => Grows w w') w := by
  rw [mem]
  cases key.getLast? with
  | none => exact Grows.refl sound
  | some file =>
      refine Exec.wp_handle (F := fun w' => Grows w w') ?_ (fun _ _ h => h) fun _ h => h
      rw [Exec.wp_bind]
      exact Exec.wp_mono (findRawTree_spec sound within _) (fun _ _ h => h.1) fun _ h => h

theorem memTree_spec (sound : Sound w) (within : Within w.heap self.root) (key : ContextKey) :
    Exec.wp (self.memTree key) (fun _ w' => Grows w w') (fun w' => Grows w w') w := by
  rw [memTree]
  refine Exec.wp_handle (F := fun w' => Grows w w') ?_ (fun _ _ h => h) fun _ h => h
  rw [Exec.wp_bind]
  exact Exec.wp_mono (findRawTree_spec sound within key) (fun _ _ h => h.1) fun _ h => h

end WorkingTree

/-! ## Contexts -/

/-- What holds of a context that a process has. -/
structure ContextOk (w : World S) (c : TezedgeContext) : Prop where
  within : Within w.heap c.tree.root
  parent : ∀ {id}, c.parentCommitHash = some id → Live w.repo id ∧ Known S id

theorem ContextOk.grows {w w' : World S} {c : TezedgeContext} (ok : ContextOk w c)
    (grows : Grows w w') : ContextOk w' c :=
  ⟨ok.within.mono grows.next, fun h => by
    rw [grows.repo]
    exact ok.parent h⟩

theorem checkout_spec (sound : Sound w) (contextHash : ContextHash) :
    Exec.wp (TezedgeIndex.checkout contextHash)
      (fun c w' => Grows w w' ∧ ∀ c', c = some c' → ContextOk w' c') (fun w' => Grows w w') w := by
  rw [TezedgeIndex.checkout, Exec.wp_bind, Exec.wp_mapErr]
  refine Exec.wp_query _ ?_ fun _ _ => Grows.refl sound
  intro id hid
  cases id with
  | none => exact ⟨Grows.refl sound, fun c' h => nomatch h⟩
  | some id =>
      obtain ⟨live, known⟩ := sound.closed.contexts hid
      show Exec.wp (Exec.mapErr _ (TezedgeIndex.findCommit id) >>= _) _ _ w
      rw [Exec.wp_bind, Exec.wp_mapErr, TezedgeIndex.findCommit, Exec.wp_bind]
      refine Exec.wp_mono (findEntry_spec sound live) ?_ ?_
      · rintro e w₁ (⟨rfl, rfl, _⟩ | ⟨entry, rfl, grows, ⟨value, found, encodes⟩, _⟩)
        · exact ⟨Grows.refl sound, fun c' h => nomatch h⟩
        · cases encodes with
          | blob value => exact grows
          | tree nodes commited within => exact grows
          | commit commit =>
              have mem : commit.rootHash ∈ (Serialized.commit commit).references :=
                List.mem_singleton_self _
              obtain ⟨liveRoot, _⟩ := sound.closed.references live found mem
              rw [← grows.repo] at liveRoot
              show Exec.wp (Exec.mapErr _ (TezedgeIndex.findTree commit.rootHash) >>= _) _ _ w₁
              rw [Exec.wp_bind, Exec.wp_mapErr, TezedgeIndex.findTree, Exec.wp_bind]
              refine Exec.wp_mono (findEntry_spec grows.sound liveRoot) ?_ ?_
              · rintro e w₂ (⟨rfl, rfl, _⟩ | ⟨entry, rfl, grows', ⟨value, found', encodes⟩, _⟩)
                · exact ⟨grows, fun c' h => nomatch h⟩
                · cases encodes with
                  | blob value => exact grows.trans grows'
                  | commit commit => exact grows.trans grows'
                  | tree nodes commited within =>
                      refine ⟨grows.trans grows', ?_⟩
                      rintro c' ⟨⟩
                      refine ⟨within, ?_⟩
                      rintro id' ⟨⟩
                      rw [(grows.trans grows').repo]
                      exact ⟨live, known⟩
              · rintro w₂ rfl
                exact grows
      · rintro w₁ rfl
        exact Grows.refl sound

end Changing

/-! ## Sessions -/

/-- What holds of a process between its calls. -/
structure SoundSession (s : Session S) : Prop where
  sound : Sound s.world
  contexts : ∀ c ∈ s.contexts, ContextOk s.world c
  trees : ∀ t ∈ s.trees, Within s.world.heap t.root

/-- What calls that make no hash do to a process. -/
structure Edited (s s' : Session S) : Prop where
  grows : Grows s.world s'.world
  contexts : ∃ new, s'.contexts = s.contexts ++ new ∧ ∀ c ∈ new, ContextOk s'.world c
  trees : ∃ new, s'.trees = s.trees ++ new ∧ ∀ t ∈ new, Within s'.world.heap t.root

namespace Edited

variable {s s' : Session S}

theorem soundSession (h : Edited s s') (sound : SoundSession s) : SoundSession s' where
  sound := h.grows.sound
  contexts := by
    obtain ⟨new, hnew, ok⟩ := h.contexts
    intro c hc
    rw [hnew] at hc
    rcases List.mem_append.mp hc with hc | hc
    · exact (sound.contexts c hc).grows h.grows
    · exact ok c hc
  trees := by
    obtain ⟨new, hnew, ok⟩ := h.trees
    intro t ht
    rw [hnew] at ht
    rcases List.mem_append.mp ht with ht | ht
    · exact (sound.trees t ht).mono h.grows.next
    · exact ok t ht

theorem refl (sound : SoundSession s) : Edited s s :=
  ⟨Grows.refl sound.sound, ⟨[], (List.append_nil _).symm, fun _ h => nomatch h⟩,
    ⟨[], (List.append_nil _).symm, fun _ h => nomatch h⟩⟩

theorem ofWorld {w : World S} (grows : Grows s.world w) : Edited s { s with world := w } :=
  ⟨grows, ⟨[], (List.append_nil _).symm, fun _ h => nomatch h⟩,
    ⟨[], (List.append_nil _).symm, fun _ h => nomatch h⟩⟩

theorem keepContext {w : World S} {c : TezedgeContext} (grows : Grows s.world w)
    (ok : ContextOk w c) : Edited s { s with world := w, contexts := s.contexts ++ [c] } := by
  refine ⟨grows, ⟨[c], rfl, ?_⟩, ⟨[], (List.append_nil _).symm, fun _ h => nomatch h⟩⟩
  intro c' hc
  rw [List.mem_singleton.mp hc]
  exact ok

theorem keepTree {w : World S} {t : WorkingTree} (grows : Grows s.world w)
    (within : Within w.heap t.root) : Edited s { s with world := w, trees := s.trees ++ [t] } := by
  refine ⟨grows, ⟨[], (List.append_nil _).symm, fun _ h => nomatch h⟩, ⟨[t], rfl, ?_⟩⟩
  intro t' ht
  rw [List.mem_singleton.mp ht]
  exact within

end Edited

/-- Calls that make no hash. -/
def Op.Edits : Op → Prop
  | .getMerkleRoot _ | .hash .. | .commit .. | .cycleStarted => False
  | _ => True

section Perform

variable {s : Session S} {Q : Reply → Session S → Prop} {E : Session S → Prop}

omit [KeyValueStoreBackend S] [LawfulStore S] in
theorem wp_withContext {i : Nat} {f : TezedgeContext → Exec (Session S) ContextError Reply}
    (absent : s.contexts[i]? = none → Q .absent s)
    (found : ∀ c, s.contexts[i]? = some c → Exec.wp (f c) Q E s) :
    Exec.wp (Session.withContext i f) Q E s := by
  unfold Exec.wp Session.withContext
  cases hi : s.contexts[i]? with
  | none => exact absent hi
  | some c => exact found c hi

omit [KeyValueStoreBackend S] [LawfulStore S] in
theorem wp_onWorld {ε α : Type} {x : Call S ε α} {Q : α → Session S → Prop} :
    Exec.wp (Session.onWorld x) Q E s ↔ Exec.wp x (fun a w => Q a { s with world := w })
      (fun w => E { s with world := w }) s.world := Exec.wp_onPart ..

/-- A call that makes no hash, and what is done with its value. -/
theorem wp_edit {α : Type} {x : Call S ContextError α}
    {f : α → Exec (Session S) ContextError Reply} {P : α → World S → Prop}
    (spec : Exec.wp x (fun a w => Grows s.world w ∧ P a w) (fun w => Grows s.world w) s.world)
    (next : ∀ a w, Grows s.world w → P a w →
      Exec.wp (f a) (fun _ s' => Edited s s') (fun s' => Edited s s') { s with world := w }) :
    Exec.wp (Session.onWorld x >>= f) (fun _ s' => Edited s s') (fun s' => Edited s s') s := by
  rw [Exec.wp_bind, wp_onWorld]
  refine Exec.wp_mono spec ?_ ?_
  · exact fun a w h => next a w h.1 h.2
  · exact fun w grows => Edited.ofWorld grows

/-- A new tree for a context. -/
theorem wp_editTree {c : TezedgeContext} {x : Call S MerkleError WorkingTree}
    (ok : ContextOk s.world c)
    (spec : Exec.wp x (fun t w => Grows s.world w ∧ Within w.heap t.root)
      (fun w => Grows s.world w) s.world) :
    Exec.wp (do
        let c ← Session.onWorld (do
          let tree ← Exec.mapErr ContextError.merkleStorageError x
          pure (c.withTree tree))
        Session.keepContext c) (fun _ s' => Edited s s') (fun s' => Edited s s') s := by
  refine wp_edit (P := fun c w => ContextOk w c) ?_ ?_
  · rw [Exec.wp_bind, Exec.wp_mapErr]
    refine Exec.wp_mono spec ?_ fun _ h => h
    exact fun t w h => ⟨h.1, h.2, (ok.grows h.1).parent⟩
  · exact fun c w grows ok => Edited.keepContext grows ok

/-- A question to a context. -/
theorem wp_ask {α : Type} {x : Call S MerkleError α} {reply : α → Reply}
    (spec : Exec.wp x (fun _ w => Grows s.world w) (fun w => Grows s.world w) s.world) :
    Exec.wp (do
        let a ← Session.onWorld (Exec.mapErr ContextError.merkleStorageError x)
        pure (reply a)) (fun _ s' => Edited s s') (fun s' => Edited s s') s := by
  refine wp_edit (P := fun _ _ => True) ?_ fun _ _ grows _ => Edited.ofWorld grows
  rw [Exec.wp_mapErr]
  exact Exec.wp_mono spec (fun _ _ h => ⟨h, trivial⟩) fun _ h => h

variable [Digest]

/-- A run of the process: it may ask for anything that `P` allows. -/
def Runs (P : Op → Prop) : Session S → Session S → Prop :=
  Relation.ReflTransGen fun s s' => ∃ op, P op ∧ (Session.perform op s).2 = s'

omit [LawfulStore S] in
theorem runs_after {P : Op → Prop} {ops : List Op} (allowed : ∀ op ∈ ops, P op) :
    Runs P s (s.after ops) := by
  induction ops generalizing s with
  | nil => exact .refl
  | cons op ops ih =>
      refine .head ⟨op, allowed op List.mem_cons_self, rfl⟩ ?_
      exact ih fun op' h => allowed op' (List.mem_cons_of_mem op h)

/-- Calls that make no hash keep everything that is there. -/
theorem perform_edited {op : Op} (sound : SoundSession s) (edits : op.Edits) :
    Exec.wp (Session.perform op) (fun _ s' => Edited s s') (fun s' => Edited s s') s := by
  have absent := Edited.refl sound
  have ok : ∀ {i : Nat} {c : TezedgeContext}, s.contexts[i]? = some c → ContextOk s.world c :=
    fun hc => sound.contexts _ (List.mem_of_getElem? hc)
  cases op with
  | new =>
      refine Edited.keepContext (Grows.refl sound.sound) ⟨Within.empty _, ?_⟩
      intro id h
      cases h
  | checkout contextHash =>
      refine wp_edit (checkout_spec sound.sound contextHash) ?_
      intro c w grows ok
      cases c with
      | none => exact Edited.ofWorld grows
      | some c => exact Edited.keepContext grows (ok c rfl)
  | add i key value =>
      exact wp_withContext (fun _ => absent) fun c hc =>
        wp_editTree (ok hc) (WorkingTree.add_spec sound.sound (ok hc).within key value)
  | delete i key =>
      exact wp_withContext (fun _ => absent) fun c hc =>
        wp_editTree (ok hc) (WorkingTree.delete_spec sound.sound (ok hc).within key)
  | copy i fromKey toKey =>
      refine wp_withContext (fun _ => absent) fun c hc => ?_
      refine wp_edit (P := fun c w => ∀ c', c = some c' → ContextOk w c') ?_ ?_
      · rw [TezedgeContext.copy, Exec.wp_bind, Exec.wp_mapErr]
        refine Exec.wp_mono (WorkingTree.copy_spec sound.sound (ok hc).within fromKey toKey) ?_
          fun _ h => h
        rintro tree w ⟨grows, within⟩
        refine ⟨grows, ?_⟩
        intro c' hc'
        obtain ⟨t, rfl, rfl⟩ := Option.map_eq_some_iff.mp hc'
        exact ⟨within t rfl, ((ok hc).grows grows).parent⟩
      · intro c w grows ok
        cases c with
        | none => exact Edited.ofWorld grows
        | some c => exact Edited.keepContext grows (ok c rfl)
  | addTree i key t =>
      refine wp_withContext (fun _ => absent) fun c hc => ?_
      rw [Exec.wp_bind, Exec.wp_gets]
      cases ht : s.trees[t]? with
      | none => exact absent
      | some tree =>
          have within := sound.trees tree (List.mem_of_getElem? ht)
          exact wp_editTree (ok hc)
            (WorkingTree.addTree_spec sound.sound (ok hc).within within key)
  | findTree i key =>
      refine wp_withContext (fun _ => absent) fun c hc => ?_
      refine wp_edit (P := fun t w => ∀ t', t = some t' → Within w.heap t'.root) ?_ ?_
      · rw [TezedgeContext.findTree, Exec.wp_mapErr]
        exact WorkingTree.findTree_spec sound.sound (ok hc).within key
      · intro t w grows within
        cases t with
        | none => exact Edited.ofWorld grows
        | some t => exact Edited.keepTree grows (within t rfl)
  | find i key =>
      exact wp_withContext (fun _ => absent) fun c hc =>
        wp_ask (WorkingTree.find_spec sound.sound (ok hc).within key)
  | mem i key =>
      exact wp_withContext (fun _ => absent) fun c hc =>
        wp_ask (WorkingTree.mem_spec sound.sound (ok hc).within key)
  | memTree i key =>
      exact wp_withContext (fun _ => absent) fun c hc =>
        wp_ask (WorkingTree.memTree_spec sound.sound (ok hc).within key)
  | getMerkleRoot i => exact edits.elim
  | hash i author message date => exact edits.elim
  | commit i author message date => exact edits.elim
  | cycleStarted => exact edits.elim

end Perform

end NodeFuzzer
