import NodeFuzzer.Context.Sound

/-!
# What hashing and committing do

Hashing gives ids to nodes (`Step`).  `get_entries_recursively` then marks nodes as
commited, and collects the entries of those that were not (`Walk`).  Both keep the hash
of every node, and so do calls on working trees.  `Later` is what they have in common.
-/

namespace NodeFuzzer

open KeyValueStoreBackend StoreView

variable {S : Type}

/-! ## Marking nodes -/

/-- Only marks of nodes were set. -/
structure Marks (w w' : World S) : Prop where
  repo : w'.repo = w.repo
  next : w'.heap.next = w.heap.next
  node : ∀ a, w'.heap.node a = { w.heap.node a with commited := (w'.heap.node a).commited }
  kept : ∀ a, (w.heap.node a).commited = true → (w'.heap.node a).commited = true

namespace Marks

variable {w w' w'' : World S}

theorem refl (w : World S) : Marks w w := ⟨rfl, rfl, fun _ => rfl, fun _ h => h⟩

theorem trans (h : Marks w w') (h' : Marks w' w'') : Marks w w'' where
  repo := h'.repo.trans h.repo
  next := h'.next.trans h.next
  node := by
    intro a
    rw [h'.node a, h.node a]
  kept := fun a ha => h'.kept a (h.kept a ha)

theorem entryHash (h : Marks w w') (a : Addr) :
    (w'.heap.node a).entryHash = (w.heap.node a).entryHash := by rw [h.node a]

theorem entry (h : Marks w w') (a : Addr) :
    (w'.heap.node a).entry = (w.heap.node a).entry := by rw [h.node a]

theorem nodeKind (h : Marks w w') (a : Addr) :
    (w'.heap.node a).nodeKind = (w.heap.node a).nodeKind := by rw [h.node a]

theorem notCommited (h : Marks w w') {a : Addr} (ha : (w'.heap.node a).commited = false) :
    (w.heap.node a).commited = false := by
  by_contra hne
  rw [h.kept a (by simpa using hne)] at ha
  cases ha

theorem within (h : Marks w w') {tree : Tree} : Within w'.heap tree ↔ Within w.heap tree := by
  rw [Within, Within, h.next]

theorem hasIds (h : Marks w w') {entries : List (KeyFragment × Addr)} :
    HasIds w' entries ↔ HasIds w entries := by simp only [HasIds, h.entryHash]

theorem serializeTree (h : Marks w w') (tree : Tree) :
    serializeTree w'.heap tree = NodeFuzzer.serializeTree w.heap tree :=
  serializeTree_congr fun p _ => ⟨h.entryHash p.2, h.nodeKind p.2⟩

/-- Marking one node. -/
theorem one (w : World S) (a : Addr) :
    Marks w { w with heap := w.heap.set a { w.heap.node a with commited := true } } := by
  refine ⟨rfl, rfl, ?_, ?_⟩
  · intro b
    by_cases hb : b = a
    · rw [hb, Heap.set_node_self]
    · rw [Heap.set_node_of_ne hb]
  · intro b hb
    by_cases hba : b = a
    · rw [hba, Heap.set_node_self]
    · rw [Heap.set_node_of_ne hba]
      exact hb

variable [KeyValueStoreBackend S] [LawfulStore S]

theorem unknown (h : Marks w w') (a : Addr) : Unknown w' a ↔ Unknown w a := by
  rw [Unknown, Unknown, h.entryHash]

theorem sound (h : Marks w w') (sound : Sound w) : Sound w' where
  inv := by
    rw [h.repo]
    exact sound.inv
  closed := by
    rw [h.repo]
    exact sound.closed
  nodes := by
    intro a
    have old := sound.nodes a
    constructor
    · intro id hid
      rw [h.entryHash] at hid
      rw [h.repo]
      exact old.live hid
    · intro tree p unknown hentry
      rw [h.entry] at hentry
      exact old.older ((h.unknown a).mp unknown) hentry
    · intro commit unknown
      rw [h.entry]
      exact old.notCommit ((h.unknown a).mp unknown)
    · intro tree hid hentry
      rw [h.entryHash] at hid
      rw [h.entry] at hentry
      exact h.hasIds.mpr (old.filled hid hentry)
    · intro tree hentry
      rw [h.entry] at hentry
      exact h.within.mpr (old.within hentry)
    · intro ha hentry
      rw [h.next] at ha
      rw [h.entry] at hentry
      obtain ⟨commited, hid⟩ := old.stored ha hentry
      rw [h.entryHash]
      exact ⟨h.kept a commited, hid⟩
    · intro tree p hcommited hentry
      rw [h.entry] at hentry
      exact old.newer (h.notCommited hcommited) hentry
    · intro commit hcommited
      rw [h.entry]
      exact old.plain (h.notCommited hcommited)

end Marks

/-! ## Collecting entries -/

/-- The value is the bytes of the entry. -/
inductive Serializes (heap : Heap) : Entry → Serialized → Prop
  | blob (value : ContextValue) : Serializes heap (.blob value) (.blob value)
  | tree {tree : Tree} {entries : OrdMap KeyFragment (NodeKind × HashId)}
      (nodes : serializeTree heap tree = some entries) : Serializes heap (.tree tree) (.tree entries)

theorem Serializes.marks {w w' : World S} (h : Marks w w') {entry : Entry} {value : Serialized} :
    Serializes w'.heap entry value ↔ Serializes w.heap entry value := by
  constructor
  · rintro (value | nodes)
    · exact .blob value
    · rw [h.serializeTree] at nodes
      exact .tree nodes
  · rintro (value | nodes)
    · exact .blob value
    · rw [← h.serializeTree] at nodes
      exact .tree nodes

theorem Serializes.unique {heap : Heap} {entry : Entry} {value value' : Serialized}
    (h : Serializes heap entry value) (h' : Serializes heap entry value') : value = value' := by
  cases h with
  | blob value =>
      cases h'
      rfl
  | tree nodes =>
      cases h' with
      | tree nodes' =>
          rw [nodes] at nodes'
          cases nodes'
          rfl

/-- A value refers to the ids of the nodes of its entry. -/
theorem Serializes.references {heap : Heap} {entry : Entry} {value : Serialized}
    (h : Serializes heap entry value) {r : HashId} (hr : r ∈ value.references) :
    ∃ b ∈ entry.children, (heap.node b).entryHash = some r := by
  cases h with
  | blob value => exact absurd hr List.not_mem_nil
  | @tree tree entries nodes =>
      obtain ⟨q, hq, rfl⟩ := List.mem_map.mp hr
      obtain ⟨a, ha, hid⟩ := serializeTree_mem nodes hq
      exact ⟨a, List.mem_map.mpr ⟨(q.1, a), OrdMap.mem_entries.mpr ha, rfl⟩, hid⟩

/-- The nodes are marked.  When entries are to be stored, the ids of those that were
marked before are noted. -/
structure Visited (store : Bool) (w w' : World S) (data : SerializingData) (nodes : List Addr) :
    Prop where
  marked : ∀ b ∈ nodes, (w'.heap.node b).commited = true
  older : store = true → ∀ b ∈ nodes, (w.heap.node b).commited = true →
    ∃ id, (w.heap.node b).entryHash = some id ∧ id ∈ data.referencedOlderEntries

/-- A node whose entry was collected. -/
structure Collected (store : Bool) (w w' : World S) (data : SerializingData) (a : Addr) : Prop where
  lt : a < w.heap.next
  item : ∃ id entry value, (w.heap.node a).entryHash = some id ∧
    (w.heap.node a).entry = some entry ∧ Serializes w.heap entry value ∧
    (store = true → (id, value) ∈ data.batch) ∧ Visited store w w' data entry.children

/-- What `get_entries_recursively` does: it marks nodes and collects the entries of
those it marks. -/
structure Walk (store : Bool) (w w' : World S) (data : SerializingData) : Prop where
  marks : Marks w w'
  collected : ∀ a, (w.heap.node a).commited = false → (w'.heap.node a).commited = true →
    Collected store w w' data a
  batch : ∀ x ∈ data.batch, ∃ a entry, (w.heap.node a).commited = false ∧
    (w'.heap.node a).commited = true ∧ (w.heap.node a).entryHash = some x.1 ∧
    (w.heap.node a).entry = some entry ∧ Serializes w.heap entry x.2
  older : ∀ id ∈ data.referencedOlderEntries, ∃ a, a < w.heap.next ∧
    (w'.heap.node a).commited = true ∧ (w.heap.node a).entryHash = some id

/-- Everything that was collected is still there. -/
def SerializingData.Sub (data data' : SerializingData) : Prop :=
  (∀ x ∈ data.batch, x ∈ data'.batch) ∧
    ∀ id ∈ data.referencedOlderEntries, id ∈ data'.referencedOlderEntries

section Walking

variable {store : Bool} {w w' w'' : World S} {data data' : SerializingData}

theorem Visited.mono {nodes : List Addr} (h : Visited store w w' data nodes)
    (marks : Marks w' w'') (sub : data.Sub data') : Visited store w w'' data' nodes where
  marked := fun b hb => marks.kept b (h.marked b hb)
  older := by
    intro hstore b hb hcommited
    obtain ⟨id, hid, mem⟩ := h.older hstore b hb hcommited
    exact ⟨id, hid, sub.2 id mem⟩

theorem Visited.earlier {nodes : List Addr} (h : Visited store w' w'' data nodes)
    (marks : Marks w w') : Visited store w w'' data nodes where
  marked := h.marked
  older := by
    intro hstore b hb hcommited
    obtain ⟨id, hid, mem⟩ := h.older hstore b hb (marks.kept b hcommited)
    rw [marks.entryHash] at hid
    exact ⟨id, hid, mem⟩

theorem Collected.mono {a : Addr} (h : Collected store w w' data a) (marks : Marks w' w'')
    (sub : data.Sub data') : Collected store w w'' data' a := by
  obtain ⟨lt, id, entry, value, hid, hentry, serializes, mem, visited⟩ := h
  exact ⟨lt, id, entry, value, hid, hentry, serializes, fun hstore => sub.1 _ (mem hstore),
    visited.mono marks sub⟩

theorem Collected.earlier {a : Addr} (h : Collected store w' w'' data a) (marks : Marks w w') :
    Collected store w w'' data a := by
  obtain ⟨lt, id, entry, value, hid, hentry, serializes, mem, visited⟩ := h
  rw [marks.next] at lt
  rw [marks.entryHash] at hid
  rw [marks.entry] at hentry
  exact ⟨lt, id, entry, value, hid, hentry, (Serializes.marks marks).mp serializes, mem,
    visited.earlier marks⟩

theorem SerializingData.sub_left (data data' : SerializingData) : data.Sub (data ++ data') :=
  ⟨fun _ h => List.mem_append_left _ h, fun _ h => List.mem_append_left _ h⟩

theorem SerializingData.sub_right (data data' : SerializingData) : data'.Sub (data ++ data') :=
  ⟨fun _ h => List.mem_append_right _ h, fun _ h => List.mem_append_right _ h⟩

theorem Walk.refl (store : Bool) (w : World S) : Walk store w w .none where
  marks := Marks.refl w
  collected := by
    intro a hnot hcommited
    rw [hnot] at hcommited
    cases hcommited
  batch := fun _ h => nomatch h
  older := fun _ h => nomatch h

theorem Walk.trans (h : Walk store w w' data) (h' : Walk store w' w'' data') :
    Walk store w w'' (data ++ data') where
  marks := h.marks.trans h'.marks
  collected := by
    intro a hnot hcommited
    by_cases hmid : (w'.heap.node a).commited = true
    · exact (h.collected a hnot hmid).mono h'.marks (data.sub_left data')
    · have later := h'.collected a (by simpa using hmid) hcommited
      exact (later.mono (Marks.refl w'') (data.sub_right data')).earlier h.marks
  batch := by
    intro x hx
    rcases List.mem_append.mp hx with hx | hx
    · obtain ⟨a, entry, hnot, hcommited, hid, hentry, serializes⟩ := h.batch x hx
      exact ⟨a, entry, hnot, h'.marks.kept a hcommited, hid, hentry, serializes⟩
    · obtain ⟨a, entry, hnot, hcommited, hid, hentry, serializes⟩ := h'.batch x hx
      rw [h.marks.entryHash] at hid
      rw [h.marks.entry] at hentry
      exact ⟨a, entry, h.marks.notCommited hnot, hcommited, hid, hentry,
        (Serializes.marks h.marks).mp serializes⟩
  older := by
    intro id hid
    rcases List.mem_append.mp hid with hid | hid
    · obtain ⟨a, lt, hcommited, ha⟩ := h.older id hid
      exact ⟨a, lt, h'.marks.kept a hcommited, ha⟩
    · obtain ⟨a, lt, hcommited, ha⟩ := h'.older id hid
      rw [h.marks.entryHash] at ha
      rw [h.marks.next] at lt
      exact ⟨a, lt, hcommited, ha⟩

/-- What `get_entries_recursively` does for an entry. -/
structure Entered (store : Bool) (w w' : World S) (id : HashId) (entry : Entry)
    (data : SerializingData) : Prop where
  parts : ∃ value below, Serializes w.heap entry value ∧ Walk store w w' below ∧
    Visited store w w' below entry.children ∧
    data = ⟨if store then [(id, value)] else [], []⟩ ++ below

/-- Marking a node and going on with its entry. -/
theorem Walk.node {a : Addr} {id : HashId} {entry : Entry} {w₁ : World S}
    (lt : a < w.heap.next) (hnot : (w.heap.node a).commited = false)
    (hid : (w.heap.node a).entryHash = some id) (hentry : (w.heap.node a).entry = some entry)
    (hw₁ : w₁ = { w with heap := w.heap.set a { w.heap.node a with commited := true } })
    (entered : Entered store w₁ w' id entry data) : Walk store w w' data := by
  have one : Marks w w₁ := hw₁ ▸ Marks.one w a
  have here : (w₁.heap.node a).commited = true := by rw [hw₁, Heap.set_node_self]
  have other : ∀ b, b ≠ a → w₁.heap.node b = w.heap.node b := by
    intro b hb
    rw [hw₁]
    exact Heap.set_node_of_ne hb _
  obtain ⟨value, below, serializes, walk, visited, rfl⟩ := entered.parts
  have sub := SerializingData.sub_right ⟨if store then [(id, value)] else [], []⟩ below
  refine ⟨one.trans walk.marks, ?_, ?_, ?_⟩
  · intro b hb hcommited
    by_cases hba : b = a
    · subst hba
      refine ⟨lt, id, entry, value, hid, hentry, (Serializes.marks one).mp serializes, ?_,
        (visited.mono (Marks.refl w') sub).earlier one⟩
      rintro rfl
      exact List.mem_append_left _ (List.mem_singleton_self _)
    · have hb' : (w₁.heap.node b).commited = false := by
        rw [other b hba]
        exact hb
      exact ((walk.collected b hb' hcommited).mono (Marks.refl w') sub).earlier one
  · intro x hx
    rcases List.mem_append.mp hx with hx | hx
    · have hx' : x = (id, value) := by
        cases store with
        | false => exact absurd hx List.not_mem_nil
        | true => exact List.mem_singleton.mp hx
      rw [hx']
      exact ⟨a, entry, hnot, walk.marks.kept a here, hid, hentry,
        (Serializes.marks one).mp serializes⟩
    · obtain ⟨b, entry', hb, hcommited, hid', hentry', serializes'⟩ := walk.batch x hx
      rw [one.entryHash] at hid'
      rw [one.entry] at hentry'
      exact ⟨b, entry', one.notCommited hb, hcommited, hid', hentry',
        (Serializes.marks one).mp serializes'⟩
  · intro j hj
    rcases List.mem_append.mp hj with hj | hj
    · exact absurd hj List.not_mem_nil
    · obtain ⟨b, hb, hcommited, hid'⟩ := walk.older j hj
      rw [one.entryHash] at hid'
      rw [one.next] at hb
      exact ⟨b, hb, hcommited, hid'⟩

/-- Noting the id of a node that is marked. -/
theorem Walk.note {a : Addr} {id : HashId} (lt : a < w.heap.next)
    (hcommited : (w.heap.node a).commited = true) (hid : (w.heap.node a).entryHash = some id) :
    Walk store w w ⟨[], [id]⟩ where
  marks := Marks.refl w
  collected := by
    intro b hnot hyes
    rw [hnot] at hyes
    cases hyes
  batch := fun _ h => nomatch h
  older := by
    intro j hj
    rw [List.mem_singleton.mp hj]
    exact ⟨a, lt, hcommited, hid⟩

theorem SerializingData.concat_append (l : List SerializingData) (data : SerializingData) :
    concat (l ++ [data]) = concat l ++ data := by
  simp only [concat, List.flatMap_append, List.flatMap_singleton]
  rfl

/-- One more node of a directory was walked, and is marked. -/
theorem Walk.visit {done : List (KeyFragment × Addr)} {ds : List SerializingData}
    (walk : Walk store w w' (.concat ds))
    (visited : Visited store w w' (.concat ds) (done.map Prod.snd)) {p : KeyFragment × Addr}
    {j : HashId} (hj : (w.heap.node p.2).entryHash = some j) {d : SerializingData}
    {w'' : World S} (walk' : Walk store w' w'' d) (marked : (w''.heap.node p.2).commited = true)
    (older : store = true → (w.heap.node p.2).commited = true → j ∈ d.referencedOlderEntries) :
    Walk store w w'' (.concat (ds ++ [d])) ∧
      Visited store w w'' (.concat (ds ++ [d])) ((done ++ [p]).map Prod.snd) := by
  rw [SerializingData.concat_append, List.map_append]
  have visited' := visited.mono walk'.marks (SerializingData.sub_left (.concat ds) d)
  refine ⟨walk.trans walk', ⟨?_, ?_⟩⟩
  · intro b hb
    rcases List.mem_append.mp hb with hb | hb
    · exact visited'.marked b hb
    · rw [List.mem_singleton.mp hb]
      exact marked
  · intro hstore b hb hcommited
    rcases List.mem_append.mp hb with hb | hb
    · exact visited'.older hstore b hb hcommited
    · rw [List.mem_singleton.mp hb] at hcommited ⊢
      exact ⟨j, hj, List.mem_append_right _ (older hstore hcommited)⟩

/-- An entry whose nodes have ids, and are older than `bound`. -/
structure Walkable (w : World S) (bound : Nat) (entry : Entry) : Prop where
  ids : ∀ b ∈ entry.children, (w.heap.node b).entryHash ≠ none ∧ b < w.heap.next ∧ b < bound
  plain : ∀ commit, entry ≠ .commit commit

theorem Walkable.hasIds {bound : Nat} {tree : Tree} (ready : Walkable w bound (.tree tree)) :
    HasIds w tree.entries := fun p hp => (ready.ids p.2 (List.mem_map.mpr ⟨p, hp, rfl⟩)).1

theorem addSerializedEntry_spec {bound : Nat} {entry : Entry} (ready : Walkable w bound entry)
    (id : HashId) :
    Exec.wp (addSerializedEntry store id entry)
      (fun data w' => w' = w ∧ ∃ value, Serializes w.heap entry value ∧
        data = ⟨if store then [(id, value)] else [], []⟩) (fun _ => False) w := by
  have serialized : ∃ value, Serializes w.heap entry value ∧
      Exec.wp (serializeEntry entry : Call S MerkleError Serialized)
        (fun v w' => w' = w ∧ v = value) (fun _ => False) w := by
    cases entry with
    | blob value => exact ⟨_, .blob value, rfl, rfl⟩
    | commit commit => exact absurd rfl (ready.plain commit)
    | tree tree =>
        obtain ⟨entries, hentries⟩ := serializeTree_isSome ready.hasIds
        refine ⟨_, .tree hentries, ?_⟩
        rw [serializeEntry, Exec.wp_bind, Exec.wp_gets, Exec.wp_bind, hentries]
        exact ⟨rfl, rfl⟩
  obtain ⟨value, serializes, spec⟩ := serialized
  rw [addSerializedEntry]
  cases store with
  | false => exact ⟨rfl, value, serializes, rfl⟩
  | true =>
      rw [if_pos rfl, Exec.wp_bind]
      refine Exec.wp_mono spec ?_ fun _ h => h
      rintro v w' ⟨rfl, rfl⟩
      exact ⟨rfl, v, serializes, rfl⟩

variable [KeyValueStoreBackend S]

/-- The id of a node that has one is read. -/
theorem wp_nodeHashId [Digest] {a : Addr} {id : HashId} {Q : HashId → World S → Prop}
    {E : World S → Prop} (lt : a < w.heap.next) (hid : (w.heap.node a).entryHash = some id)
    (post : Q id w) : Exec.wp (nodeHashId a) Q E w := by
  obtain ⟨n, hn⟩ : ∃ n, w.heap.next = n + 1 := Nat.exists_eq_succ_of_ne_zero (Nat.ne_of_gt
    (Nat.lt_of_le_of_lt (Nat.zero_le a) lt))
  rw [nodeHashId, Exec.wp_bind, Exec.wp_gets, Exec.wp_mapErr, hn, entryHashId, Exec.wp_bind,
    Call.readNode, Exec.wp_gets, hid]
  exact post

variable [LawfulStore S]

/-- The entry of a node that is not marked. -/
theorem Sound.walkable {a : Addr} {bound : Nat} {entry : Entry} (sound : Sound w)
    (hid : (w.heap.node a).entryHash ≠ none) (hentry : (w.heap.node a).entry = some entry)
    (hnot : (w.heap.node a).commited = false) (ha : a ≤ bound) : Walkable w bound entry := by
  refine ⟨?_, ?_⟩
  · intro b hb
    cases entry with
    | blob value => exact absurd hb List.not_mem_nil
    | commit commit => exact absurd hb List.not_mem_nil
    | tree tree =>
        obtain ⟨p, hp, rfl⟩ := List.mem_map.mp hb
        exact ⟨(sound.nodes a).filled hid hentry p hp, (sound.nodes a).within hentry p hp,
          Nat.lt_of_lt_of_le ((sound.nodes a).newer hnot hentry hp) ha⟩
  · rintro commit rfl
    exact (sound.nodes a).plain hnot hentry

variable [Digest]

/-- `get_entries_recursively` never fails: every node it comes to has an id. -/
theorem getEntriesRecursively_spec (bound : Nat) {entry : Entry} (sound : Sound w)
    (walkable : Walkable w bound entry) (id : HashId) :
    Exec.wp (getEntriesRecursively store (bound + 1) entry id none)
      (fun data w' => Entered store w w' id entry data) (fun _ => False) w := by
  -- A node is marked before its entry, whose nodes are older, so that the bound decreases.
  induction bound using Nat.strong_induction_on generalizing w entry id with
  | _ bound ih =>
      rw [getEntriesRecursively, Exec.wp_bind]
      refine Exec.wp_mono (addSerializedEntry_spec walkable id) ?_ fun _ h => h
      rintro data w₀ ⟨rfl, value, serializes, rfl⟩
      cases entry with
      | commit commit => exact absurd rfl (walkable.plain commit)
      | blob blob =>
          refine ⟨value, .none, serializes, Walk.refl store _, ⟨?_, ?_⟩, ?_⟩
          · exact fun b hb => absurd hb List.not_mem_nil
          · exact fun _ b hb => absurd hb List.not_mem_nil
          · show _ = SerializingData.mk (_ ++ []) (_ ++ [])
            rw [List.append_nil, List.append_nil]
      | tree tree =>
          rw [Exec.wp_bind]
          refine Exec.wp_mono (Exec.wp_mapEach (I := fun done ds w₂ =>
            Walk store w₀ w₂ (.concat ds) ∧
              Visited store w₀ w₂ (.concat ds) (done.map Prod.snd)) ?_ ?_) ?_ fun _ h => h
          · refine ⟨Walk.refl store _, ⟨?_, ?_⟩⟩
            · exact fun b hb => absurd hb List.not_mem_nil
            · exact fun _ b hb => absurd hb List.not_mem_nil
          · rintro done p ds w₂ hp ⟨walk, visited⟩
            obtain ⟨hasId, lt, hbound⟩ := walkable.ids p.2 (List.mem_map.mpr ⟨p, hp, rfl⟩)
            obtain ⟨j, hj⟩ := Option.ne_none_iff_exists'.mp hasId
            have sound₂ := walk.marks.sound sound
            have lt₂ : p.2 < w₂.heap.next := by
              rw [walk.marks.next]
              exact lt
            have hj₂ : (w₂.heap.node p.2).entryHash = some j := (walk.marks.entryHash _).trans hj
            rw [Exec.wp_bind, Call.readNode, Exec.wp_gets]
            by_cases hcommited : (w₂.heap.node p.2).commited = true
            · rw [if_pos hcommited, addOlderEntry]
              cases store with
              | false => exact walk.visit visited hj (Walk.refl false w₂) hcommited fun h => by cases h
              | true =>
                  rw [if_pos rfl, Exec.wp_bind]
                  refine wp_nodeHashId lt₂ hj₂ ?_
                  exact walk.visit visited hj (Walk.note lt₂ hcommited hj₂) hcommited fun _ _ =>
                    List.mem_singleton_self j
            · rw [if_neg hcommited, Exec.wp_bind, Call.updateNode, Exec.wp_modify]
              have hnot : (w₂.heap.node p.2).commited = false := by simpa using hcommited
              obtain ⟨w₃, hw₃⟩ : ∃ w₃ : World S, w₃ = { w₂ with
                  heap := w₂.heap.set p.2 { w₂.heap.node p.2 with commited := true } } := ⟨_, rfl⟩
              rw [← hw₃]
              have one : Marks w₂ w₃ := hw₃ ▸ Marks.one w₂ p.2
              cases hentry : (w₂.heap.node p.2).entry with
              | none => exact absurd ((sound₂.nodes p.2).stored lt₂ hentry).1 hcommited
              | some entry =>
                  obtain ⟨f, rfl⟩ : ∃ f, bound = f + 1 := Nat.exists_eq_succ_of_ne_zero
                    (Nat.ne_of_gt (Nat.lt_of_le_of_lt (Nat.zero_le _) hbound))
                  have hwalk : Walkable w₂ f entry := sound₂.walkable (by
                    rw [hj₂]
                    exact Option.some_ne_none j) hentry hnot (Nat.lt_succ_iff.mp hbound)
                  have hwalk₃ : Walkable w₃ f entry := by
                    refine ⟨?_, hwalk.plain⟩
                    intro b hb
                    rw [one.entryHash, one.next]
                    exact hwalk.ids b hb
                  show Exec.wp (nodeHashId p.2 >>= _) _ _ w₃
                  rw [Exec.wp_bind]
                  refine wp_nodeHashId (by rw [one.next]; exact lt₂)
                    ((one.entryHash _).trans hj₂) ?_
                  refine Exec.wp_mono (ih f (Nat.lt_succ_self f) (one.sound sound₂) hwalk₃ j) ?_
                    fun _ h => h
                  intro d w₄ entered
                  have walk₄ := Walk.node lt₂ hnot hj₂ hentry hw₃ entered
                  refine walk.visit visited hj walk₄ ?_ ?_
                  · obtain ⟨_, _, _, below, _, _⟩ := entered.parts
                    refine below.marks.kept p.2 ?_
                    rw [hw₃, Heap.set_node_self]
                  · intro _ hold
                    rw [walk.marks.kept p.2 hold] at hnot
                    cases hnot
          · rintro ds w₂ ⟨walk, visited⟩
            exact ⟨value, .concat ds, serializes, walk, visited, rfl⟩

end Walking

/-! ## Later states -/

section Later

variable [KeyValueStoreBackend S] [LawfulStore S]

/-- Hashing keeps what holds between calls. -/
theorem Step.sound [Digest] {R : Addr → Prop} {w w' : World S} (step : Step R w w')
    (sound : Sound w) : Sound w' where
  inv := step.good.inv
  closed := step.keeps.closed sound.closed
  nodes := by
    intro a
    have old := sound.nodes a
    have hentry := step.entry a
    have hcommited : (w'.heap.node a).commited = (w.heap.node a).commited := by rw [step.node a]
    constructor
    · exact step.good.live
    · exact step.good.older
    · exact step.good.notCommit
    · intro tree hid htree
      rw [hentry] at htree
      by_cases hnone : (w.heap.node a).entryHash = none
      · exact step.filled hnone hid htree
      · exact step.hasIds (old.filled hnone htree)
    · intro tree htree
      rw [hentry] at htree
      rw [Within, step.next]
      exact old.within htree
    · intro ha hnone
      rw [step.next] at ha
      rw [hentry] at hnone
      obtain ⟨commited, id, hid, known⟩ := old.stored ha hnone
      exact ⟨hcommited.trans commited, id, step.cached a id hid, known⟩
    · intro tree p hnot htree
      rw [hentry] at htree
      exact old.newer (hcommited.symm.trans hnot) htree
    · intro commit hnot
      rw [hentry]
      exact old.plain (hcommited.symm.trans hnot)

variable [Digest] {w w' w'' : World S}

/-- A later state: every node that was there has the hash it had. -/
structure Later (w w' : World S) : Prop where
  sound : Sound w'
  next : w.heap.next ≤ w'.heap.next
  kind : ∀ a, a < w.heap.next → (w'.heap.node a).nodeKind = (w.heap.node a).nodeKind
  hashOf : ∀ a, a < w.heap.next → ∀ h, HashOf w' a h ↔ HashOf w a h
  live : ∀ id, Known S id → Live w.repo id →
    Live w'.repo id ∧ getHash id w'.repo = getHash id w.repo

namespace Later

theorem refl (sound : Sound w) : Later w w :=
  ⟨sound, le_refl _, fun _ _ => rfl, fun _ _ _ => Iff.rfl, fun _ _ h => ⟨h, rfl⟩⟩

theorem trans (h : Later w w') (h' : Later w' w'') : Later w w'' where
  sound := h'.sound
  next := h.next.trans h'.next
  kind := fun a ha => (h'.kind a (Nat.lt_of_lt_of_le ha h.next)).trans (h.kind a ha)
  hashOf := fun a ha k =>
    (h'.hashOf a (Nat.lt_of_lt_of_le ha h.next) k).trans (h.hashOf a ha k)
  live := by
    intro id known live
    obtain ⟨live', hash⟩ := h.live id known live
    obtain ⟨live'', hash'⟩ := h'.live id known live'
    exact ⟨live'', hash'.trans hash⟩

theorem ofStep {R : Addr → Prop} (sound : Sound w) (step : Step R w w') : Later w w' where
  sound := step.sound sound
  next := step.next.ge
  kind := fun a _ => step.nodeKind a
  hashOf := fun a _ => step.hashOf a
  live := fun id _ live => ⟨(step.keeps.old id live).1, (step.keeps.old id live).2.1⟩

/-- The hash of a node depends on nodes that were there before it. -/
theorem hashOf_mono {n : Nat}
    (older : ∀ {a tree p}, a < n → Unknown w a → (w.heap.node a).entry = some (.tree tree) →
      p ∈ tree.entries → p.2 < n)
    (kind : ∀ a, a < n → (w'.heap.node a).nodeKind = (w.heap.node a).nodeKind)
    (ids : ∀ a, a < n → (w'.heap.node a).entryHash = (w.heap.node a).entryHash)
    (entry : ∀ a, a < n → Unknown w a → (w'.heap.node a).entry = (w.heap.node a).entry)
    (hash : ∀ a id, a < n → (w.heap.node a).entryHash = some id → Known S id →
      getHash id w'.repo = getHash id w.repo)
    {a : Addr} {h : EntryHash} (of : HashOf w a h) (ha : a < n) : HashOf w' a h := by
  have unknown : ∀ b, b < n → Unknown w b → Unknown w' b := by
    intro b hb hunknown
    rw [Unknown, ids b hb]
    exact hunknown
  induction of with
  | @known a id h cached known hash' =>
      exact .known ((ids a ha).trans cached) known ((hash a id ha cached known).trans hash')
  | @blob a value hunknown hentry =>
      exact .blob (unknown a ha hunknown) ((entry a ha hunknown).trans hentry)
  | @tree a tree hashes h hunknown hentry children treeHash ih =>
      have hlt : ∀ p ∈ tree.entries, p.2 < n := fun p hp => older ha hunknown hentry hp
      refine .tree (unknown a ha hunknown) ((entry a ha hunknown).trans hentry)
        (fun p hp => ih p hp (hlt p hp)) ?_
      have hsame : tree.entries.map (fun p => (p.1, (w'.heap.node p.2).nodeKind, hashes p.2)) =
          tree.entries.map fun p => (p.1, (w.heap.node p.2).nodeKind, hashes p.2) := by
        apply List.map_congr_left
        intro p hp
        rw [kind p.2 (hlt p hp)]
      rw [hsame]
      exact treeHash

theorem ofGrows (sound : Sound w) (grows : Grows w w') : Later w w' where
  sound := grows.sound
  next := grows.next
  kind := fun _ ha => grows.nodeKind ha
  hashOf := by
    intro a ha h
    have entry : ∀ b, b < w.heap.next → Unknown w b →
        (w'.heap.node b).entry = (w.heap.node b).entry := by
      intro b hb unknown
      cases hentry : (w.heap.node b).entry with
      | none => exact absurd unknown (sound.not_unknown hb hentry)
      | some e => exact grows.entry b hb e hentry
    have unknown : ∀ b, b < w.heap.next → Unknown w' b → Unknown w b := by
      intro b hb hunknown
      rw [Unknown, grows.entryHash hb] at hunknown
      exact hunknown
    constructor
    · intro of
      refine hashOf_mono ?_ (fun b hb => (grows.nodeKind hb).symm)
        (fun b hb => (grows.entryHash hb).symm)
        (fun b hb hunknown => (entry b hb (unknown b hb hunknown)).symm) ?_ of ha
      · intro b tree p hb hunknown hentry hp
        rw [entry b hb (unknown b hb hunknown)] at hentry
        exact ((sound.nodes b).older (unknown b hb hunknown) hentry hp).trans hb
      · intro b id _ _ _
        rw [grows.repo]
    · intro of
      refine hashOf_mono ?_ (fun b hb => grows.nodeKind hb) (fun b hb => grows.entryHash hb)
        entry ?_ of ha
      · exact fun hb hunknown hentry hp =>
          ((sound.nodes _).older hunknown hentry hp).trans hb
      · intro b id _ _ _
        rw [grows.repo]
  live := by
    intro id _ live
    rw [grows.repo]
    exact ⟨live, rfl⟩

theorem ofMarks (sound : Sound w) (marks : Marks w w') : Later w w' where
  sound := marks.sound sound
  next := marks.next.ge
  kind := fun a _ => marks.nodeKind a
  hashOf := by
    intro a _ h
    constructor
    · refine HashOf.transfer (fun b => (marks.nodeKind b).symm) (fun b _ => (marks.entry b).symm)
        ?_ fun b _ unknown => Or.inl ((marks.unknown b).mp unknown)
      intro b id k hid known hash
      rw [marks.entryHash] at hid
      rw [marks.repo] at hash
      exact .known hid known hash
    · refine HashOf.transfer marks.nodeKind (fun b _ => marks.entry b) ?_
        fun b _ unknown => Or.inl ((marks.unknown b).mpr unknown)
      intro b id k hid known hash
      refine .known ((marks.entryHash b).trans hid) known ?_
      rw [marks.repo]
      exact hash
  live := by
    intro id _ live
    rw [marks.repo]
    exact ⟨live, rfl⟩

theorem bindings (h : Later w w') {tree : Tree} (within : Within w.heap tree) :
    bindings w' tree.entries = NodeFuzzer.bindings w tree.entries := by
  apply List.map_congr_left
  intro p hp
  have hsame : HashOf w' p.2 = HashOf w p.2 :=
    funext fun k => propext (h.hashOf p.2 (within p hp) k)
  rw [label, label, hashAt, hashAt, hsame, h.kind p.2 (within p hp)]

theorem treeHashOf (h : Later w w') {tree : Tree} (within : Within w.heap tree) (k : EntryHash) :
    TreeHashOf w' tree k ↔ TreeHashOf w tree k := by
  have hashed : Hashed w' tree.entries ↔ Hashed w tree.entries := by
    constructor
    · intro hashed p hp
      obtain ⟨k, hk⟩ := hashed p hp
      exact ⟨k, (h.hashOf p.2 (within p hp) k).mp hk⟩
    · intro hashed p hp
      obtain ⟨k, hk⟩ := hashed p hp
      exact ⟨k, (h.hashOf p.2 (within p hp) k).mpr hk⟩
  rw [TreeHashOf, TreeHashOf, h.bindings within, hashed]

theorem contextOk (h : Later w w') {c : TezedgeContext} (ok : ContextOk w c) : ContextOk w' c :=
  ⟨ok.within.mono h.next, fun hid => ⟨(h.live _ (ok.parent hid).2 (ok.parent hid).1).1,
    (ok.parent hid).2⟩⟩

/-- A process goes on with other nodes and another store. -/
theorem soundSession {s : Session S} {w : World S} (h : Later s.world w) (sound : SoundSession s) :
    SoundSession { s with world := w } :=
  ⟨h.sound, fun c hc => h.contextOk (sound.contexts c hc),
    fun t ht => (sound.trees t ht).mono h.next⟩

end Later

end Later

/-! ## Preparing commits -/

section Preparing

variable [KeyValueStoreBackend S]

/-- The hash of the parent of a commit. -/
inductive ParentHash (w : World S) : Option HashId → Option EntryHash → Prop
  | none : ParentHash w none none
  | some {id : HashId} {h : EntryHash} (hash : getHash id w.repo = .ok (some h)) :
      ParentHash w (some id) (some h)

theorem ParentHash.unique {w : World S} {parent : Option HashId} {h h' : Option EntryHash}
    (hash : ParentHash w parent h) (hash' : ParentHash w parent h') : h = h' := by
  cases hash with
  | none =>
      cases hash'
      rfl
  | some hash =>
      cases hash' with
      | some hash' =>
          rw [hash] at hash'
          cases hash'
          rfl

variable [LawfulStore S] {R : Addr → Prop} {w w' w₁ : World S}

theorem NewId.keep {id : HashId} {h : EntryHash} (new : NewId w id h)
    (keeps : Keeps w.repo w'.repo) (heap : w'.heap = w.heap) : NewId w' id h := by
  obtain ⟨live, hash, value⟩ := keeps.old id new.live
  refine ⟨live, hash.trans new.hash, value.trans new.blank, ?_⟩
  rw [heap]
  exact new.unused

variable [Digest]

theorem getWorkingTreeRootHash_spec {tree : WorkingTree} (good : Good w) (region : Region R w)
    (within : Within w.heap tree.root) (mem : ∀ p ∈ tree.root.entries, R p.2) :
    Exec.wp tree.getWorkingTreeRootHash
      (fun id w' => Step R w w' ∧ HasIds w' tree.root.entries ∧
        ∃ h, TreeHashOf w tree.root h ∧ NewId w' id h)
      (fun w' => Step R w w' ∧ (Exhausted w'.repo ∨ ¬ ∃ h, TreeHashOf w tree.root h)) w := by
  rw [WorkingTree.getWorkingTreeRootHash, Exec.wp_bind, Exec.wp_gets, Exec.wp_mapErr]
  refine Exec.wp_mono (hashTree_spec (nodeSpec_entryHash w.heap.next mem)
    (Step.refl good region)) (fun _ _ h => h) ?_
  rintro w' ⟨step, exhausted | (⟨p, hp, deep⟩ | hashed) | hnone⟩
  · exact ⟨step, Or.inl exhausted⟩
  · exact absurd (within p hp) (Nat.not_lt.mpr deep)
  · refine ⟨step, Or.inr ?_⟩
    rintro ⟨h, treeHash⟩
    exact hashed treeHash.1
  · exact ⟨step, Or.inr hnone⟩

theorem hashCommit_spec {commit : Commit} {r : EntryHash} (sound : Sound w) (region : Region R w)
    (root : getHash commit.rootHash w.repo = .ok (some r)) :
    Exec.wp (hashCommit commit)
      (fun id w' => Step R w w' ∧ w'.heap = w.heap ∧ ¬ Live w.repo id ∧
        ∃ p, ParentHash w commit.parentCommitHash p ∧
          NewId w' id (Digest.blake2b (commitString r p commit)))
      (fun w' => Step R w w' ∧
        (Exhausted w'.repo ∨ ¬ ∃ p, ParentHash w commit.parentCommitHash p)) w := by
  have put : ∀ {p : Option EntryHash}, ParentHash w commit.parentCommitHash p →
      Exec.wp (putHash (commitString r p commit))
        (fun id w' => Step R w w' ∧ w'.heap = w.heap ∧ ¬ Live w.repo id ∧
          ∃ p, ParentHash w commit.parentCommitHash p ∧
            NewId w' id (Digest.blake2b (commitString r p commit)))
        (fun w' => Step R w w' ∧
          (Exhausted w'.repo ∨ ¬ ∃ p, ParentHash w commit.parentCommitHash p)) w := by
    intro p parent
    refine Exec.wp_mono (putHash_spec sound.good region _) ?_ ?_
    · exact fun id w' ⟨step, new, heap, fresh⟩ => ⟨step, heap, fresh, p, parent, new⟩
    · exact fun w' ⟨step, exhausted⟩ => ⟨step, Or.inl exhausted⟩
  rw [hashCommit, Exec.wp_bind]
  refine wp_getHashOr root ?_
  cases hparent : commit.parentCommitHash with
  | none =>
      rw [hparent] at put
      exact put .none
  | some id =>
      rw [hparent] at put
      show Exec.wp (getHashOr _ id >>= _) _ _ w
      rw [Exec.wp_bind, getHashOr, Exec.wp_bind, Exec.wp_mapErr]
      have refused : (∀ h, getHash id w.repo ≠ .ok (some h)) → ¬ ∃ p, ParentHash w (some id) p := by
        rintro hne ⟨p, hash⟩
        cases hash with
        | some hash => exact hne _ hash
      refine Exec.wp_query _ ?_ ?_
      · intro found hfound
        refine Exec.wp_orFail _ _ ?_ ?_
        · rintro h rfl
          exact put (.some hfound)
        · rintro rfl
          refine ⟨Step.refl sound.good region, Or.inr (refused ?_)⟩
          intro h hh
          rw [hfound] at hh
          cases hh
      · intro e he
        refine ⟨Step.refl sound.good region, Or.inr (refused ?_)⟩
        intro h hh
        rw [he] at hh
        cases hh

/-- The hash of a commit of a tree. -/
def CommitHashOf (w : World S) (root : Tree) (parent : Option HashId) (time : UInt64)
    (author message : String) (h : EntryHash) : Prop :=
  ∃ r p id, TreeHashOf w root r ∧ ParentHash w parent p ∧
    h = Digest.blake2b (commitString r p ⟨parent, id, time, author, message⟩)

theorem CommitHashOf.unique {root : Tree} {parent : Option HashId} {time : UInt64}
    {author message : String} {h h' : EntryHash}
    (hash : CommitHashOf w root parent time author message h)
    (hash' : CommitHashOf w root parent time author message h') : h = h' := by
  obtain ⟨r, p, id, ⟨_, treeHash⟩, parentHash, rfl⟩ := hash
  obtain ⟨r', p', id', ⟨_, treeHash'⟩, parentHash', rfl⟩ := hash'
  rw [treeHash.unique treeHash', parentHash.unique parentHash']
  rfl

/-- What `prepare_commit` returns. -/
structure Prepared (R : Addr → Prop) (store : Bool) (w w' : World S) (root : Tree)
    (commit : Commit) (id : HashId) (data : SerializingData) : Prop where
  parts : ∃ w₁ r p below, Step R w w₁ ∧ HasIds w₁ root.entries ∧ TreeHashOf w root r ∧
    ParentHash w commit.parentCommitHash p ∧ NewId w₁ commit.rootHash r ∧
    NewId w₁ id (Digest.blake2b (commitString r p commit)) ∧ commit.rootHash ≠ id ∧
    Entered store w₁ w' commit.rootHash (.tree root) below ∧
    data = ⟨if store then [(id, .commit commit)] else [], []⟩ ++ below

theorem prepareCommit_spec {tree : WorkingTree} {store : Bool} {time : UInt64}
    {author message : String} {parent : Option HashId} (sound : Sound w) (region : Region R w)
    (within : Within w.heap tree.root) (mem : ∀ p ∈ tree.root.entries, R p.2)
    (live : ∀ {id}, parent = some id → Live w.repo id) :
    Exec.wp (tree.prepareCommit time author message parent store)
      (fun r w' => ∃ rootHash, Prepared R store w w' tree.root
        ⟨parent, rootHash, time, author, message⟩ r.1 r.2)
      (fun w' => Step R w w' ∧ (Exhausted w'.repo ∨
        ¬ ∃ h, CommitHashOf w tree.root parent time author message h)) w := by
  rw [WorkingTree.prepareCommit, Exec.wp_bind]
  refine Exec.wp_mono (getWorkingTreeRootHash_spec sound.good region within mem) ?_ ?_
  · rintro rootHash w₁ ⟨step₁, ids, r, treeHash, new⟩
    have parentHash : ∀ p, ParentHash w₁ parent p ↔ ParentHash w parent p := by
      intro p
      constructor
      · rintro (_ | hash)
        · exact .none
        · rw [(step₁.keeps.old _ (live rfl)).2.1] at hash
          exact .some hash
      · rintro (_ | hash)
        · exact .none
        · rw [← (step₁.keeps.old _ (live rfl)).2.1] at hash
          exact .some hash
    have sound₁ := step₁.sound sound
    rw [Exec.wp_bind, Exec.wp_mapErr]
    refine Exec.wp_mono (hashCommit_spec sound₁ step₁.region new.hash) ?_ ?_
    · rintro id w₂ ⟨step₂, heap, fresh, p, hp, newCommit⟩
      have step := step₁.trans step₂
      have sound₂ := step₂.sound sound₁
      have ids₂ : HasIds w₂ tree.root.entries := step₂.hasIds ids
      rw [Exec.wp_bind, Exec.wp_gets, Exec.wp_bind, getEntriesRecursively, Exec.wp_bind]
      have head : Exec.wp (addSerializedEntry store id
            (.commit ⟨parent, rootHash, time, author, message⟩))
          (fun data w' => w' = w₂ ∧ data = ⟨if store then
            [(id, .commit ⟨parent, rootHash, time, author, message⟩)] else [], []⟩)
          (fun _ => False) w₂ := by
        cases store <;> exact ⟨rfl, rfl⟩
      refine Exec.wp_mono head ?_ fun _ h => h.elim
      rintro data w₀ ⟨rfl, rfl⟩
      have walkable : Walkable w₀ w₀.heap.next (.tree tree.root) := by
        refine ⟨?_, fun _ h => nomatch h⟩
        intro b hb
        obtain ⟨q, hq, rfl⟩ := List.mem_map.mp hb
        have hlt : q.2 < w₀.heap.next := by
          rw [step.next]
          exact within q hq
        exact ⟨ids₂ q hq, hlt, hlt⟩
      show Exec.wp (getEntriesRecursively store (w₀.heap.next + 1) (.tree tree.root) rootHash none
        >>= _) _ _ w₀
      rw [Exec.wp_bind]
      refine Exec.wp_mono (getEntriesRecursively_spec w₀.heap.next sound₂ walkable rootHash) ?_
        fun _ h => h.elim
      intro below w₃ entered
      refine ⟨rootHash, w₀, r, p, below, step, ids₂, treeHash, (parentHash p).mp hp,
        new.keep step₂.keeps heap, newCommit, ?_, entered, rfl⟩
      rintro rfl
      exact fresh new.live
    · rintro w₂ ⟨step₂, excuse⟩
      refine ⟨step₁.trans step₂, excuse.imp_right ?_⟩
      rintro hnone ⟨h, r', p, _, _, hp, _⟩
      exact hnone ⟨p, (parentHash p).mpr hp⟩
  · rintro w₁ ⟨step₁, excuse⟩
    refine ⟨step₁, excuse.imp_right ?_⟩
    rintro hnone ⟨h, r, _, _, treeHash, _⟩
    exact hnone ⟨r, treeHash⟩

theorem getMerkleRoot_spec {c : TezedgeContext} (good : Good w) (region : Region R w)
    (within : Within w.heap c.tree.root) (mem : ∀ p ∈ c.tree.root.entries, R p.2) :
    Exec.wp c.getMerkleRoot (fun h w' => Step R w w' ∧ TreeHashOf w c.tree.root h)
      (fun w' => Step R w w' ∧ (Exhausted w'.repo ∨ ¬ ∃ h, TreeHashOf w c.tree.root h)) w := by
  rw [TezedgeContext.getMerkleRoot, Exec.wp_mapErr, WorkingTree.hash, Exec.wp_bind]
  refine Exec.wp_mono (getWorkingTreeRootHash_spec good region within mem) ?_ fun _ h => h
  rintro id w' ⟨step, _, h, treeHash, new⟩
  rw [Exec.wp_bind, Exec.wp_mapErr]
  refine Exec.wp_query _ ?_ ?_
  · intro found hfound
    rw [new.hash] at hfound
    cases hfound
    exact ⟨step, treeHash⟩
  · intro e he
    rw [new.hash] at he
    cases he

end Preparing

/-! ## Hashing and committing contexts -/

/-- Ids in use stay in use with their hashes. -/
def Remembers [KeyValueStoreBackend S] [StoreView S] (s s' : S) : Prop :=
  ∀ id, Live s id → Live s' id ∧ getHash id s' = getHash id s

/-- What committing needs of a store. -/
class CommitStore (S : Type) [KeyValueStoreBackend S] extends LawfulStore S where
  /-- Batches that may be written. -/
  Writable : S → List (HashId × Serialized) → Prop
  write : ∀ batch (s : S), Inv s → Closed s → Writable s batch →
    Exec.wp (writeBatch batch) (fun _ s' => Inv s' ∧ Closed s' ∧ Remembers s s')
      (fun _ => False) s
  put : ∀ id h (s : S), Inv s → Closed s → Live s id → getHash id s = .ok (some h) →
    Exec.wp (putContextHash id) (fun _ s' => Inv s' ∧ Closed s' ∧ Remembers s s')
      (fun _ => False) s
  applied : ∀ reused (s : S), Inv s → Closed s →
    Exec.wp (blockApplied reused) (fun _ s' => Inv s' ∧ Closed s' ∧ Remembers s s')
      (fun _ => False) s
  clear : ∀ s : S, Inv s → Closed s →
    Exec.wp (clearEntries : Exec S DBError Unit) (fun _ s' => Inv s' ∧ Closed s' ∧
      ∀ id, Known id → Live s id → Live s' id ∧ getHash id s' = getHash id s)
      (fun _ => False) s

section Contexts

variable {R : Addr → Prop} {w w' : World S} {c : TezedgeContext}

/-- A call of the store in a commit. -/
theorem wp_onStore {ε α β : Type} {x : Exec S DBError α} {e : DBError → ε}
    {f : α → Call S ε β} {P : α → S → Prop} {Q : β → World S → Prop} {E : World S → Prop}
    (spec : Exec.wp x P (fun _ => False) w.repo)
    (next : ∀ a s, P a s → Exec.wp (f a) Q E { w with repo := s }) :
    Exec.wp (Exec.mapErr e (Call.onRepo x) >>= f) Q E w := by
  rw [Exec.wp_bind, Exec.wp_mapErr, Call.onRepo, Exec.wp_onPart]
  exact Exec.wp_mono spec next fun _ h => h.elim

variable [KeyValueStoreBackend S]

/-- The hash of a commit that was just made is read. -/
theorem wp_getCommitHash {β : Type} {id : HashId} {h : EntryHash}
    {f : ContextHash → Call S ContextError β} {Q : β → World S → Prop} {E : World S → Prop}
    (hash : getHash id w.repo = .ok (some h)) (next : Exec.wp (f h) Q E w) :
    Exec.wp (TezedgeContext.getCommitHash id >>= f) Q E w := by
  rw [Exec.wp_bind, TezedgeContext.getCommitHash, Exec.wp_bind, Exec.wp_mapErr]
  refine Exec.wp_query _ ?_ ?_
  · intro found hfound
    rw [hash] at hfound
    cases hfound
    exact next
  · intro e he
    rw [hash] at he
    cases he

variable [CommitStore S] [Digest]

/-- A change of the store that keeps the ids that stay. -/
theorem Later.ofRepo {s : S} (sound : Sound w) (inv : Inv s) (closed : Closed s)
    (keeps : ∀ id, Known S id → Live w.repo id →
      Live s id ∧ getHash id s = getHash id w.repo) : Later w { w with repo := s } where
  sound := by
    refine ⟨inv, closed, fun a => ?_⟩
    have old := sound.nodes a
    exact ⟨fun hid known => (keeps _ known (old.live hid known)).1, old.older, old.notCommit,
      old.filled, old.within, old.stored, old.newer, old.plain⟩
  next := le_refl _
  kind := fun _ _ => rfl
  hashOf := by
    intro a _ h
    constructor
    · intro of
      refine HashOf.transfer ?_ ?_ ?_ ?_ of
      · exact fun _ => rfl
      · exact fun _ _ => rfl
      · intro b id k hid known hash
        exact .known hid known
          ((keeps id known ((sound.nodes b).live hid known)).2.symm.trans hash)
      · exact fun _ _ unknown => Or.inl unknown
    · intro of
      refine HashOf.transfer ?_ ?_ ?_ ?_ of
      · exact fun _ => rfl
      · exact fun _ _ => rfl
      · intro b id k hid known hash
        exact .known hid known ((keeps id known ((sound.nodes b).live hid known)).2.trans hash)
      · exact fun _ _ unknown => Or.inl unknown
  live := keeps

/-- What `prepare_commit` returned is a later state. -/
theorem Prepared.later {store : Bool} {root : Tree} {commit : Commit} {id : HashId}
    {data : SerializingData} (prepared : Prepared R store w w' root commit id data)
    (sound : Sound w) :
    Later w w' ∧ ∃ r p, TreeHashOf w root r ∧ ParentHash w commit.parentCommitHash p ∧
      Live w'.repo id ∧ getHash id w'.repo =
        .ok (some (Digest.blake2b (commitString r p commit))) := by
  obtain ⟨w₁, r, p, below, step, _, treeHash, parentHash, _, new, _, entered, _⟩ := prepared.parts
  obtain ⟨_, _, _, walk, _, _⟩ := entered.parts
  refine ⟨(Later.ofStep sound step).trans (Later.ofMarks (step.sound sound) walk.marks), r, p,
    treeHash, parentHash, ?_⟩
  rw [walk.marks.repo]
  exact ⟨new.live, new.hash⟩

/-- What is written by a commit refers to ids in use. -/
theorem Prepared.live {root : Tree} {commit : Commit} {id : HashId} {data : SerializingData}
    {store : Bool} (prepared : Prepared (fun _ => True) store w w' root commit id data)
    (known : ∀ i, Known S i) :
    ∀ q ∈ data.batch, Live w'.repo q.1 ∧ ∀ r ∈ q.2.references, Live w'.repo r := by
  obtain ⟨w₁, r, p, below, step, ids, treeHash, parentHash, newRoot, new, _, entered, rfl⟩ :=
    prepared.parts
  obtain ⟨value, walked, serializes, walk, visited, rfl⟩ := entered.parts
  have live : ∀ {a i}, (w₁.heap.node a).entryHash = some i → Live w₁.repo i :=
    fun hid => step.good.live hid (known _)
  have below : ∀ {entry : Entry} {value : Serialized}, Serializes w₁.heap entry value →
      ∀ r ∈ value.references, Live w₁.repo r := by
    intro entry value serializes r hr
    cases serializes with
    | blob value => exact absurd hr List.not_mem_nil
    | @tree tree entries nodes =>
        obtain ⟨q, hq, rfl⟩ := List.mem_map.mp hr
        obtain ⟨a, _, hid⟩ := serializeTree_mem nodes hq
        exact live hid
  rw [walk.marks.repo]
  have member : ∀ {q : HashId × Serialized} {l : List (HashId × Serialized)},
      q ∈ (if store = true then l else []) → q ∈ l := by
    intro q l hq
    cases store with
    | false => exact absurd hq List.not_mem_nil
    | true => exact hq
  intro q hq
  rcases List.mem_append.mp hq with hq | hq
  · rw [List.mem_singleton.mp (member hq)]
    refine ⟨new.live, ?_⟩
    intro r hr
    rw [List.mem_singleton.mp hr]
    exact newRoot.live
  · rcases List.mem_append.mp hq with hq | hq
    · rw [List.mem_singleton.mp (member hq)]
      exact ⟨newRoot.live, below serializes⟩
    · obtain ⟨a, entry, _, _, hid, _, serializes'⟩ := walk.batch q hq
      exact ⟨live hid, below serializes'⟩

/-- The hash of a commit of a context. -/
def ContextHashOf (w : World S) (c : TezedgeContext) (author message : String) (date : Int64)
    (h : ContextHash) : Prop :=
  ∃ time, TezedgeContext.commitTime date = some time ∧
    CommitHashOf w c.tree.root c.parentCommitHash time author message h

theorem ContextHashOf.unique {author message : String} {date : Int64} {h h' : ContextHash}
    (hash : ContextHashOf w c author message date h)
    (hash' : ContextHashOf w c author message date h') : h = h' := by
  obtain ⟨time, htime, hash⟩ := hash
  obtain ⟨time', htime', hash'⟩ := hash'
  rw [htime] at htime'
  cases htime'
  exact hash.unique hash'

theorem Later.contextHashOf (later : Later w w') (ok : ContextOk w c) {author message : String}
    {date : Int64} {h : ContextHash} :
    ContextHashOf w' c author message date h ↔ ContextHashOf w c author message date h := by
  have parentHash : ∀ p, ParentHash w' c.parentCommitHash p ↔ ParentHash w c.parentCommitHash p := by
    intro p
    cases hparent : c.parentCommitHash with
    | none =>
        constructor
        · rintro ⟨⟩
          exact .none
        · rintro ⟨⟩
          exact .none
    | some id =>
        obtain ⟨live, known⟩ := ok.parent hparent
        constructor
        · rintro (_ | hash)
          rw [(later.live id known live).2] at hash
          exact .some hash
        · rintro (_ | hash)
          rw [← (later.live id known live).2] at hash
          exact .some hash
  simp only [ContextHashOf, CommitHashOf, later.treeHashOf ok.within, parentHash]

section Calls

variable {author message : String} {date : Int64}

/-- Hashing a context gives its hash, or it has none. -/
theorem hash_spec (sound : Sound w) (region : Region R w) (ok : ContextOk w c)
    (mem : ∀ p ∈ c.tree.root.entries, R p.2) :
    Exec.wp (c.hash author message date)
      (fun h w' => Later w w' ∧ ContextHashOf w c author message date h)
      (fun w' => Step R w w' ∧
        (Exhausted w'.repo ∨ ¬ ∃ h, ContextHashOf w c author message date h)) w := by
  rw [TezedgeContext.hash, Exec.wp_bind]
  refine Exec.wp_orFail _ _ ?_ ?_
  · intro time htime
    rw [Exec.wp_bind, Exec.wp_mapErr]
    refine Exec.wp_mono (prepareCommit_spec sound region ok.within mem
      fun hid => (ok.parent hid).1) ?_ ?_
    · rintro ⟨id, data⟩ w' ⟨rootHash, prepared⟩
      obtain ⟨later, r, p, treeHash, parentHash, live, hash⟩ := prepared.later sound
      refine wp_getCommitHash hash ?_
      refine wp_onStore (CommitStore.clear w'.repo later.sound.inv later.sound.closed) ?_
      rintro _ s ⟨inv, closed, keeps⟩
      exact ⟨later.trans (Later.ofRepo later.sound inv closed keeps), time, htime, r, p, rootHash,
        treeHash, parentHash, rfl⟩
    · rintro w' ⟨step, excuse⟩
      refine ⟨step, excuse.imp_right ?_⟩
      rintro hnone ⟨h, time', htime', hash⟩
      rw [htime] at htime'
      cases htime'
      exact hnone ⟨h, hash⟩
  · intro hnone
    refine ⟨Step.refl sound.good region, Or.inr ?_⟩
    rintro ⟨h, time, htime, _⟩
    rw [hnone] at htime
    cases htime

/-- Committing a context gives its hash, or it has none. -/
theorem commit_spec (sound : Sound w) (region : Region R w) (ok : ContextOk w c)
    (mem : ∀ p ∈ c.tree.root.entries, R p.2)
    (writable : ∀ {w' commit id data}, Prepared R true w w' c.tree.root commit id data →
      CommitStore.Writable w'.repo data.batch) :
    Exec.wp (c.commit author message date)
      (fun h w' => Later w w' ∧ ContextHashOf w c author message date h)
      (fun w' => Step R w w' ∧
        (Exhausted w'.repo ∨ ¬ ∃ h, ContextHashOf w c author message date h)) w := by
  rw [TezedgeContext.commit, Exec.wp_bind]
  refine Exec.wp_orFail _ _ ?_ ?_
  · intro time htime
    rw [Exec.wp_bind, Exec.wp_mapErr]
    refine Exec.wp_mono (prepareCommit_spec sound region ok.within mem
      fun hid => (ok.parent hid).1) ?_ ?_
    · rintro ⟨id, data⟩ w' ⟨rootHash, prepared⟩
      obtain ⟨later, r, p, treeHash, parentHash, live, hash⟩ := prepared.later sound
      refine wp_onStore (CommitStore.write data.batch w'.repo later.sound.inv later.sound.closed
        (writable prepared)) ?_
      rintro _ s₁ ⟨inv₁, closed₁, keeps₁⟩
      have hash₁ := (keeps₁ id live).2.trans hash
      refine wp_onStore (CommitStore.put id _ s₁ inv₁ closed₁ (keeps₁ id live).1 hash₁) ?_
      rintro _ s₂ ⟨inv₂, closed₂, keeps₂⟩
      refine wp_onStore (CommitStore.applied _ s₂ inv₂ closed₂) ?_
      rintro _ s₃ ⟨inv₃, closed₃, keeps₃⟩
      have keeps : Remembers w'.repo s₃ := by
        intro i hi
        obtain ⟨live₁, same₁⟩ := keeps₁ i hi
        obtain ⟨live₂, same₂⟩ := keeps₂ i live₁
        obtain ⟨live₃, same₃⟩ := keeps₃ i live₂
        exact ⟨live₃, same₃.trans (same₂.trans same₁)⟩
      refine wp_getCommitHash ((keeps id live).2.trans hash) ?_
      refine wp_onStore (CommitStore.clear s₃ inv₃ closed₃) ?_
      rintro _ s₄ ⟨inv₄, closed₄, keeps₄⟩
      refine ⟨later.trans (Later.ofRepo later.sound inv₄ closed₄ ?_), time, htime, r, p, rootHash,
        treeHash, parentHash, rfl⟩
      intro i known hi
      obtain ⟨live₃, same₃⟩ := keeps i hi
      obtain ⟨live₄, same₄⟩ := keeps₄ i known live₃
      exact ⟨live₄, same₄.trans same₃⟩
    · rintro w' ⟨step, excuse⟩
      refine ⟨step, excuse.imp_right ?_⟩
      rintro hnone ⟨h, time', htime', hash⟩
      rw [htime] at htime'
      cases htime'
      exact hnone ⟨h, hash⟩
  · intro hnone
    refine ⟨Step.refl sound.good region, Or.inr ?_⟩
    rintro ⟨h, time, htime, _⟩
    rw [hnone] at htime
    cases htime

end Calls

end Contexts

end NodeFuzzer
