import NodeFuzzer.Context.Lookup
import NodeFuzzer.Context.Quiet

/-!
# Commits last

A commit writes the entries of the nodes that are not marked as commited, and marks them.
A node that is marked is never written again, so that its entry has to be in the store.
This is `Durable`.  Every call keeps it but `hash`, which marks nodes and writes nothing.

As long as it holds, a context that was committed can be checked out, and has the answers
it had.
-/

namespace NodeFuzzer

open KeyValueStoreBackend StoreView

/-- The value of a node. -/
inductive Plain : Serialized → Prop
  | blob (value : ContextValue) : Plain (.blob value)
  | tree (entries : OrdMap KeyFragment (NodeKind × HashId)) : Plain (.tree entries)

section Lasting

variable [Digest]

/-! ## Nodes and store -/

/-- The entries of nodes that are marked are stored, with all that is below them. -/
structure Durable (w : World System) : Prop where
  marked : ∀ {a}, a < w.heap.next → (w.heap.node a).commited = true →
    ∃ id value, (w.heap.node a).entryHash = some id ∧ getValue id w.repo = .ok (some value) ∧
      Plain value ∧ ∀ e, (w.heap.node a).entry = some e → EncodesEntry w.heap e value
  stored : ∀ {id value r}, Live w.repo id → getValue id w.repo = .ok (some value) →
    r ∈ value.references → ∃ v, getValue r w.repo = .ok (some v) ∧ Plain v
  /-- Nothing is stored yet for a node that is not marked. -/
  blank : ∀ {a id}, a < w.heap.next → (w.heap.node a).commited = false →
    (w.heap.node a).entryHash = some id → getValue id w.repo = .ok none
  single : ∀ {a b id}, a < w.heap.next → b < w.heap.next → (w.heap.node a).commited = false →
    (w.heap.node a).entryHash = some id → (w.heap.node b).entryHash = some id → a = b

namespace Durable

variable {w w' : World System}

/-- What is stored at an id that is referred to is not a commit. -/
theorem plain (durable : Durable w) {id : HashId} {value : Serialized}
    (found : getValue id w.repo = .ok (some value)) (source : Referenced w id) : Plain value := by
  cases source with
  | @node a lt hasId =>
      by_cases hmarked : (w.heap.node a).commited = true
      · obtain ⟨id', value', hid, hvalue, plain, _⟩ := durable.marked lt hmarked
        rw [hasId] at hid
        cases hid
        rw [found] at hvalue
        cases hvalue
        exact plain
      · have none := durable.blank lt (by simpa using hmarked) hasId
        rw [found] at none
        cases none
  | value live parent mem =>
      obtain ⟨v, hv, plain⟩ := durable.stored live parent mem
      rw [found] at hv
      cases hv
      exact plain

/-- Calls that make no hash. -/
theorem grows (durable : Durable w) (grows : Grows w w') : Durable w' := by
  have blank : ∀ {a id}, a < w'.heap.next → (w'.heap.node a).commited = false →
      (w'.heap.node a).entryHash = some id →
      a < w.heap.next ∧ (w.heap.node a).commited = false ∧ (w.heap.node a).entryHash = some id ∧
        getValue id w.repo = .ok none := by
    intro a id ha hnot hid
    cases grows.origin a ha with
    | old lt same =>
        rw [same] at hnot hid
        exact ⟨lt, hnot, hid, durable.blank lt hnot hid⟩
    | made new commited noId =>
        rw [noId] at hid
        cases hid
    | stored hasId commited =>
        rw [commited] at hnot
        cases hnot
    | loaded hasId commited =>
        rw [commited] at hnot
        cases hnot
  refine ⟨?_, ?_, ?_, ?_⟩
  · intro a ha hmarked
    rw [grows.repo]
    cases grows.origin a ha with
    | old lt same =>
        rw [same] at hmarked ⊢
        obtain ⟨id, value, hid, hvalue, plain, encodes⟩ := durable.marked lt hmarked
        exact ⟨id, value, hid, hvalue, plain, fun e he => grows.encodes (encodes e he)⟩
    | made new commited noId =>
        rw [commited] at hmarked
        cases hmarked
    | @stored id j value hasId commited noEntry live parent mem =>
        obtain ⟨v, hv, plain⟩ := durable.stored live parent mem
        refine ⟨id, v, hasId, hv, plain, ?_⟩
        intro e he
        rw [noEntry] at he
        cases he
    | @loaded id value entry hasId commited hasEntry live found encodes source =>
        refine ⟨id, value, hasId, found, durable.plain found source, ?_⟩
        intro e he
        rw [hasEntry] at he
        cases he
        exact encodes
  · intro id value r live hvalue hr
    rw [grows.repo] at live hvalue ⊢
    exact durable.stored live hvalue hr
  · intro a id ha hnot hid
    rw [grows.repo]
    exact (blank ha hnot hid).2.2.2
  · intro a b id ha hb hnot hid hid'
    obtain ⟨lt, hnot', hida, none⟩ := blank ha hnot hid
    cases grows.origin b hb with
    | old lt' same =>
        rw [same] at hid'
        exact durable.single lt lt' hnot' hida hid'
    | made new commited noId =>
        rw [noId] at hid'
        cases hid'
    | stored hasId commited noEntry live parent mem =>
        rw [hasId] at hid'
        cases hid'
        obtain ⟨v, hv, _⟩ := durable.stored live parent mem
        rw [none] at hv
        cases hv
    | loaded hasId commited hasEntry live found encodes =>
        rw [hasId] at hid'
        cases hid'
        rw [none] at found
        cases found

/-- Hashing gives ids to nodes that are not marked. -/
theorem step {R : Addr → Prop} (durable : Durable w) (sound : Sound w) (step : Step R w w') :
    Durable w' := by
  have commited : ∀ a, (w'.heap.node a).commited = (w.heap.node a).commited := by
    intro a
    rw [step.node a]
  have kept : ∀ {id value}, Live w.repo id → getValue id w.repo = .ok value →
      getValue id w'.repo = .ok value := fun live hvalue => (step.keeps.old _ live).2.2.trans hvalue
  -- The nodes of a directory that was stored have ids, and keep them.
  have encodes : ∀ {e value}, EncodesEntry w.heap e value → EncodesEntry w'.heap e value := by
    intro e value h
    cases h with
    | blob value => exact .blob value
    | commit commit => exact .commit commit
    | @tree tree entries nodes marked within =>
        refine .tree ?_ ?_ ?_
        · rw [serializeTree_congr fun p hp => ?_]
          · exact nodes
          · obtain ⟨id, _, hid, _⟩ := durable.marked (within p hp) (marked p hp)
            exact ⟨(step.cached _ id hid).trans hid.symm, step.nodeKind _⟩
        · intro p hp
          rw [commited]
          exact marked p hp
        · exact within.mono step.next.ge
  refine ⟨?_, ?_, ?_, ?_⟩
  · intro a ha hmarked
    rw [step.next] at ha
    rw [commited] at hmarked
    obtain ⟨id, value, hid, hvalue, plain, encodes'⟩ := durable.marked ha hmarked
    refine ⟨id, value, step.cached a id hid, kept ((sound.nodes a).live hid trivial) hvalue, plain, ?_⟩
    intro e he
    rw [step.entry] at he
    exact encodes (encodes' e he)
  · intro id value r live hvalue hr
    have old : Live w.repo id := by
      by_contra new
      rw [step.keeps.blank id live new] at hvalue
      cases hvalue
    rw [(step.keeps.old id old).2.2] at hvalue
    obtain ⟨v, hv, plain⟩ := durable.stored old hvalue hr
    exact ⟨v, kept (sound.closed.references old hvalue hr).1 hv, plain⟩
  · intro a id ha hnot hid
    rw [step.next] at ha
    rw [commited] at hnot
    rcases step.fresh hid with old | ⟨_, blank⟩
    · exact kept ((sound.nodes a).live old trivial) (durable.blank ha hnot old)
    · exact blank
  · intro a b id ha hb hnot hida hidb
    rw [step.next] at ha hb
    rw [commited] at hnot
    rcases step.single (fun _ => trivial) hida hidb with same | ⟨olda, oldb⟩
    · exact same
    · exact durable.single ha hb hnot olda oldb

end Durable

/-! ## Writing a commit -/

section Writing

variable {w w₀ w₁ w' : World System}

omit [Digest] in
theorem Serializes.plain {heap : Heap} {entry : Entry} {value : Serialized}
    (h : Serializes heap entry value) : Plain value := by
  cases h with
  | blob value => exact .blob value
  | tree nodes => exact .tree _

omit [Digest] in
/-- The value of an entry whose nodes are marked. -/
theorem Serializes.encodes {heap : Heap} {entry : Entry} {value : Serialized}
    (h : Serializes heap entry value)
    (marked : ∀ b ∈ entry.children, (heap.node b).commited = true)
    (within : EntryWithin heap entry) : EncodesEntry heap entry value := by
  cases h with
  | blob value => exact .blob value
  | tree nodes =>
      refine .tree nodes ?_ (within rfl)
      exact fun p hp => marked p.2 (List.mem_map.mpr ⟨p, hp, rfl⟩)

variable {root : Tree} {commit : Commit} {id : HashId} {batch : List (HashId × Serialized)}
  {h : ContextHash}

/-- Nothing was stored yet at the ids that are written. -/
theorem Collection.blank (collection : Collection w w₁ root commit id batch) (durable : Durable w)
    {j : HashId} {v : Serialized} (mem : (j, v) ∈ batch) : getValue j w.repo = .ok none := by
  rcases collection.items _ mem with here | ⟨here, _⟩ | ⟨a, entry, lt, hnot, _, hid, _⟩
  · cases here
    exact collection.newCommit.elim fun _ new => new.blank
  · have here : j = commit.rootHash := here
    rw [here]
    exact collection.newRoot.elim fun _ new => new.blank
  · exact durable.blank lt hnot hid

/-- Each id is written once. -/
theorem Collection.unique (collection : Collection w w₁ root commit id batch) (durable : Durable w)
    {j : HashId} {v v' : Serialized} (mem : (j, v) ∈ batch) (mem' : (j, v') ∈ batch) : v = v' := by
  obtain ⟨_, newRoot⟩ := collection.newRoot
  obtain ⟨_, newCommit⟩ := collection.newCommit
  rcases collection.items _ mem with here | ⟨here, serializes⟩ |
    ⟨a, entry, lt, hnot, _, hid, hentry, serializes⟩
  · cases here
    rcases collection.items _ mem' with here' | ⟨here', _⟩ | ⟨b, _, _, _, _, hid', _⟩
    · cases here'
      rfl
    · exact absurd here'.symm collection.distinct
    · exact absurd hid' (newCommit.unused trivial b)
  · have here : j = commit.rootHash := here
    subst here
    rcases collection.items _ mem' with here' | ⟨_, serializes'⟩ | ⟨b, _, _, _, _, hid', _⟩
    · exact absurd (congrArg Prod.fst here') collection.distinct
    · exact serializes.unique serializes'
    · exact absurd hid' (newRoot.unused trivial b)
  · rcases collection.items _ mem' with here' | ⟨here', _⟩ |
      ⟨b, entry', lt', _, _, hid', hentry', serializes'⟩
    · cases here'
      exact absurd hid (newCommit.unused trivial a)
    · have here' : j = commit.rootHash := here'
      subst here'
      exact absurd hid (newRoot.unused trivial a)
    · have same := durable.single lt lt' hnot hid hid'
      subst same
      rw [hentry] at hentry'
      cases hentry'
      exact serializes.unique serializes'

/-- What a written commit left in the store: all that was there, and the batch. -/
structure Stored (w w₁ w' : World System) (batch : List (HashId × Serialized)) : Prop where
  heap : w'.heap = w₁.heap
  live : ∀ j, Live w'.repo j ↔ Live w.repo j
  value : ∀ {j v}, getValue j w'.repo = .ok (some v) →
    getValue j w.repo = .ok (some v) ∨ (j, v) ∈ batch
  written : ∀ {j v}, (j, v) ∈ batch → getValue j w'.repo = .ok (some v)
  kept : ∀ {j v}, getValue j w.repo = .ok (some v) → getValue j w'.repo = .ok (some v)

theorem Collection.stored (collection : Collection w w₁ root commit id batch) (durable : Durable w)
    (heap : w'.heap = w₁.heap) (wrote : Wrote w₁.repo w'.repo batch h id) :
    Stored w w₁ w' batch where
  heap := heap
  live := by
    intro j
    rw [← collection.marks.repo]
    exact wrote.live j
  value := by
    intro j v hv
    rw [← collection.marks.repo]
    exact wrote.value hv
  written := by
    intro j v mem
    obtain ⟨v', mem', hv'⟩ := InMemory.writeBatch_written mem w₁.repo.store
    rw [collection.unique durable mem mem']
    exact congrArg Except.ok ((wrote.values j).trans hv')
  kept := by
    intro j v hv
    rcases InMemory.writeBatch_getValue batch w₁.repo.store j with same | ⟨v', mem, _⟩
    · rw [← collection.marks.repo] at hv
      exact (congrArg Except.ok ((wrote.values j).trans same)).trans hv
    · rw [collection.blank durable mem] at hv
      cases hv

namespace Stored

variable (stored : Stored w w₁ w' batch) (collection : Collection w w₁ root commit id batch)
  (durable : Durable w) (sound : Sound w)

include stored

theorem node (a : Addr) : w'.heap.node a = w₁.heap.node a := by
  rw [stored.heap]

include collection

theorem next : w'.heap.next = w.heap.next := by
  rw [stored.heap, collection.marks.next]

theorem entryHash (a : Addr) : (w'.heap.node a).entryHash = (w.heap.node a).entryHash := by
  rw [stored.node, collection.marks.entryHash]

include durable

/-- Nothing was stored yet at the id of a node that is not marked. -/
theorem blank {a : Addr} {j : HashId} (ha : a < w'.heap.next)
    (hnot : (w'.heap.node a).commited = false) (hid : (w'.heap.node a).entryHash = some j) :
    getValue j w'.repo = .ok none := by
  rw [stored.next collection] at ha
  rw [stored.node] at hnot
  rw [stored.entryHash collection] at hid
  cases hvalue : w'.repo.store.hashes.getValue j with
  | none => exact congrArg Except.ok hvalue
  | some v =>
      have hold := durable.blank ha (collection.marks.notCommited hnot) hid
      rcases stored.value (congrArg Except.ok hvalue) with old | mem
      · rw [hold] at old
        cases old
      · rcases collection.items _ mem with here | ⟨here, _⟩ | ⟨b, _, lt, hnot', hmarked, hid', _⟩
        · cases here
          exact collection.newCommit.elim fun _ new => absurd hid (new.unused trivial a)
        · have here : j = commit.rootHash := here
          rw [here] at hid
          exact collection.newRoot.elim fun _ new => absurd hid (new.unused trivial a)
        · have same := durable.single lt ha hnot' hid' hid
          rw [same, hnot] at hmarked
          cases hmarked

include sound

/-- The entry of a marked node is stored at its id. -/
theorem marked {a : Addr} (ha : a < w'.heap.next) (hmarked : (w'.heap.node a).commited = true) :
    ∃ id value, (w'.heap.node a).entryHash = some id ∧ getValue id w'.repo = .ok (some value) ∧
      Plain value ∧ ∀ e, (w'.heap.node a).entry = some e → EncodesEntry w'.heap e value := by
  have marks := collection.marks
  rw [stored.next collection] at ha
  rw [stored.node] at hmarked
  rw [stored.entryHash collection, stored.node, marks.entry, stored.heap]
  by_cases old : (w.heap.node a).commited = true
  · obtain ⟨j, value, hid, hvalue, plain, encodes⟩ := durable.marked ha old
    refine ⟨j, value, hid, stored.kept hvalue, plain, ?_⟩
    intro e he
    refine (encodes e he).congr marks.next.ge ?_
    exact fun b _ => ⟨marks.entryHash b, marks.nodeKind b, marks.kept b⟩
  · obtain ⟨_, j, entry, value, hid, hentry, serializes, mem, children⟩ :=
      collection.nodes a (by simpa using old) hmarked
    refine ⟨j, value, hid, stored.written mem, serializes.plain, ?_⟩
    intro e he
    rw [hentry] at he
    cases he
    have within : EntryWithin w₁.heap entry := by
      rintro tree rfl
      exact marks.within.mpr ((sound.nodes a).within hentry)
    exact ((Serializes.marks marks).mpr serializes).encodes children within

/-- The nodes of an entry that was written are marked, so that their entries are stored. -/
theorem below {entry : Entry} {value : Serialized} {r : HashId} (within : EntryWithin w.heap entry)
    (serializes : Serializes w.heap entry value)
    (children : ∀ b ∈ entry.children, (w₁.heap.node b).commited = true)
    (hr : r ∈ value.references) : ∃ v, getValue r w'.repo = .ok (some v) ∧ Plain v := by
  obtain ⟨b, hb, hid⟩ := serializes.references hr
  have lt : b < w'.heap.next := by
    rw [stored.next collection]
    cases entry with
    | tree tree =>
        obtain ⟨p, hp, rfl⟩ := List.mem_map.mp hb
        exact within rfl p hp
    | blob value => exact absurd hb List.not_mem_nil
    | commit commit => exact absurd hb List.not_mem_nil
  obtain ⟨j, v, hj, hv, plain, _⟩ :=
    stored.marked collection durable sound lt (by rw [stored.node]; exact children b hb)
  rw [stored.entryHash collection, hid] at hj
  cases hj
  exact ⟨v, hv, plain⟩

/-- What the commit wrote refers to entries that it or an earlier one stored. -/
theorem references (within : Within w.heap root) {j r : HashId} {value : Serialized}
    (mem : (j, value) ∈ batch) (hr : r ∈ value.references) :
    ∃ v, getValue r w'.repo = .ok (some v) ∧ Plain v := by
  rcases collection.items _ mem with here | ⟨_, serializes⟩ |
    ⟨a, entry, _, hnot, hmarked, _, hentry, serializes⟩
  · cases here
    obtain ⟨value, mem', serializes⟩ := collection.rootMem
    rw [List.mem_singleton.mp hr]
    exact ⟨value, stored.written mem', serializes.plain⟩
  · refine stored.below collection durable sound ?_ serializes collection.rootMarked hr
    intro tree htree
    cases htree
    exact within
  · obtain ⟨_, _, entry', _, _, hentry', _, _, children⟩ := collection.nodes a hnot hmarked
    rw [hentry] at hentry'
    cases hentry'
    refine stored.below collection durable sound ?_ serializes children hr
    rintro tree rfl
    exact (sound.nodes a).within hentry

end Stored

/-- A commit stores the entries of all nodes that it marks. -/
theorem Durable.written (durable : Durable w) (sound : Sound w) (within : Within w.heap root)
    (collection : Collection w w₁ root commit id batch) (stored : Stored w w₁ w' batch) :
    Durable w' where
  marked := stored.marked collection durable sound
  stored := by
    intro j value r live hvalue hr
    rcases stored.value hvalue with old | mem
    · obtain ⟨v, hv, plain⟩ := durable.stored ((stored.live j).mp live) old hr
      exact ⟨v, stored.kept hv, plain⟩
    · exact stored.references collection durable sound within mem hr
  blank := stored.blank collection durable
  single := by
    intro a b j ha hb hnot hida hidb
    rw [stored.next collection] at ha hb
    rw [stored.node] at hnot
    rw [stored.entryHash collection] at hida hidb
    exact durable.single ha hb (collection.marks.notCommited hnot) hida hidb

end Writing

/-! ## Answers -/

section Answers

variable {w w' : World System}

theorem storedContent_eq {repo repo' : System} {id : HashId}
    (same : getValue id repo' = getValue id repo) :
    storedContent repo' id = storedContent repo id := by
  rw [storedContent, storedContent, same]

/-- What is stored at an id can be followed to the end. -/
theorem Durable.stored_present (durable : Durable w) (sound : Sound w) {id : HashId}
    {v : Serialized} (live : Live w.repo id) (hv : getValue id w.repo = .ok (some v))
    (plain : Plain v) (key : ContextKey) :
    answerIn w (storedContent w.repo id) key ≠ .broken := by
  induction key generalizing id v with
  | nil =>
      cases plain with
      | blob value => simp [storedContent, hv]
      | tree entries => simp [storedContent, hv]
  | cons name key ih =>
      cases plain with
      | blob value => simp [storedContent, hv]
      | tree entries =>
          simp only [storedContent, hv, answerIn]
          cases hp : entries.get name with
          | none => simp
          | some p =>
              have mem : p.2 ∈ (Serialized.tree entries).references :=
                List.mem_map.mpr ⟨(name, p), OrdMap.mem_entries.mpr hp, rfl⟩
              obtain ⟨v', hv', plain'⟩ := durable.stored live hv mem
              exact ih (sound.closed.references live hv mem).1 hv' plain'

/-- What a node holds. -/
inductive Holds (w : World System) (a : Addr) : Prop
  | value {value : ContextValue} (entry : (w.heap.node a).entry = some (.blob value))
  | directory {tree : Tree} (entry : (w.heap.node a).entry = some (.tree tree))
      (within : Within w.heap tree)
  | unloaded {id : HashId} {v : Serialized} (entry : (w.heap.node a).entry = none)
      (hasId : (w.heap.node a).entryHash = some id) (live : Live w.repo id)
      (found : getValue id w.repo = .ok (some v)) (plain : Plain v)

theorem Durable.holds (durable : Durable w) (sound : Sound w) {a : Addr} (ha : a < w.heap.next) :
    Holds w a := by
  cases hentry : (w.heap.node a).entry with
  | none =>
      obtain ⟨marked, _⟩ := (sound.nodes a).stored ha hentry
      obtain ⟨id, v, hid, hv, plain, _⟩ := durable.marked ha marked
      exact .unloaded hentry hid ((sound.nodes a).live hid trivial) hv plain
  | some entry =>
      cases entry with
      | blob value => exact .value hentry
      | tree tree => exact .directory hentry ((sound.nodes a).within hentry)
      | commit commit =>
          by_cases marked : (w.heap.node a).commited = true
          · obtain ⟨_, v, _, _, plain, encodes⟩ := durable.marked ha marked
            cases encodes _ hentry with
            | commit commit => cases plain
          · exact absurd hentry ((sound.nodes a).plain (by simpa using marked))

/-- A node can be followed to the end. -/
theorem Durable.node_present (durable : Durable w) (sound : Sound w) {a : Addr}
    (ha : a < w.heap.next) (key : ContextKey) :
    answerIn w (content w (.node a)) key ≠ .broken := by
  induction key generalizing a with
  | nil =>
      cases durable.holds sound ha with
      | value entry => simp [content_entry w entry, entryContent]
      | directory entry within => simp [content_entry w entry, entryContent, treeContent]
      | unloaded entry hasId live found plain =>
          rw [content_unloaded w entry hasId]
          exact durable.stored_present sound live found plain []
  | cons name key ih =>
      cases durable.holds sound ha with
      | value entry => simp [content_entry w entry, entryContent]
      | @directory tree entry within =>
          rw [content_entry w entry]
          show treeAnswer w tree (name :: key) ≠ .broken
          cases hb : tree.get name with
          | none => simp [treeAnswer_none w hb]
          | some b =>
              rw [treeAnswer_some w hb]
              exact ih (within.get hb)
      | unloaded entry hasId live found plain =>
          rw [content_unloaded w entry hasId]
          exact durable.stored_present sound live found plain _

theorem Durable.present (durable : Durable w) (sound : Sound w) {root : Tree}
    (within : Within w.heap root) : Present w root := by
  intro key
  cases key with
  | nil => simp
  | cons name key =>
      cases ha : root.get name with
      | none => simp [treeAnswer_none w ha]
      | some a =>
          rw [treeAnswer_some w ha]
          exact durable.node_present sound (within.get ha) key

/-- What is stored in `w` is still stored. -/
def Carries (w w' : World System) : Prop :=
  ∀ {id v}, Live w.repo id → getValue id w.repo = .ok (some v) →
    Live w'.repo id ∧ getValue id w'.repo = .ok (some v)

/-- What is stored at an id answers as it did. -/
theorem Carries.stored (carries : Carries w w') (durable : Durable w) (sound : Sound w)
    {id : HashId} {v : Serialized} (live : Live w.repo id)
    (hv : getValue id w.repo = .ok (some v)) (key : ContextKey) :
    answerIn w' (storedContent w'.repo id) key = answerIn w (storedContent w.repo id) key := by
  induction key generalizing id v with
  | nil =>
      rw [storedContent_eq ((carries live hv).2.trans hv.symm)]
      exact answerIn_nil w w' _
  | cons name key ih =>
      rw [storedContent_eq ((carries live hv).2.trans hv.symm)]
      unfold storedContent
      split
      · rfl
      next entries found =>
        simp only [answerIn]
        cases hp : entries.get name with
        | none => rfl
        | some p =>
            have mem : p.2 ∈ (Serialized.tree entries).references :=
              List.mem_map.mpr ⟨(name, p), OrdMap.mem_entries.mpr hp, rfl⟩
            obtain ⟨v', hv', _⟩ := durable.stored live found mem
            exact ih (sound.closed.references live found mem).1 hv'
      · simp

/-- Nodes answer as they did when their entries and what is stored stay. -/
theorem Carries.node (carries : Carries w w') (durable : Durable w) (sound : Sound w)
    (entries : ∀ a, (w'.heap.node a).entry = (w.heap.node a).entry)
    (ids : ∀ a id, (w.heap.node a).entryHash = some id → (w'.heap.node a).entryHash = some id)
    {a : Addr} (ha : a < w.heap.next) (key : ContextKey) :
    answerIn w' (content w' (.node a)) key = answerIn w (content w (.node a)) key := by
  induction key generalizing a with
  | nil =>
      cases durable.holds sound ha with
      | value entry => rw [content_entry w entry, content_entry w' ((entries a).trans entry)]; rfl
      | directory entry within =>
          rw [content_entry w entry, content_entry w' ((entries a).trans entry)]
          rfl
      | unloaded entry hasId live found plain =>
          rw [content_unloaded w entry hasId,
            content_unloaded w' ((entries a).trans entry) (ids a _ hasId)]
          exact carries.stored durable sound live found []
  | cons name key ih =>
      cases durable.holds sound ha with
      | value entry => rw [content_entry w entry, content_entry w' ((entries a).trans entry)]; rfl
      | @directory tree entry within =>
          rw [content_entry w entry, content_entry w' ((entries a).trans entry)]
          show treeAnswer w' tree (name :: key) = treeAnswer w tree (name :: key)
          cases hb : tree.get name with
          | none => rw [treeAnswer_none w hb, treeAnswer_none w' hb]
          | some b =>
              rw [treeAnswer_some w hb, treeAnswer_some w' hb]
              exact ih (within.get hb)
      | unloaded entry hasId live found plain =>
          rw [content_unloaded w entry hasId,
            content_unloaded w' ((entries a).trans entry) (ids a _ hasId)]
          exact carries.stored durable sound live found _

theorem Carries.treeAnswer (carries : Carries w w') (durable : Durable w) (sound : Sound w)
    (entries : ∀ a, (w'.heap.node a).entry = (w.heap.node a).entry)
    (ids : ∀ a id, (w.heap.node a).entryHash = some id → (w'.heap.node a).entryHash = some id)
    {root : Tree} (within : Within w.heap root) (key : ContextKey) :
    treeAnswer w' root key = NodeFuzzer.treeAnswer w root key := by
  cases key with
  | nil => rfl
  | cons name key =>
      cases ha : root.get name with
      | none => rw [treeAnswer_none w ha, treeAnswer_none w' ha]
      | some a =>
          rw [treeAnswer_some w ha, treeAnswer_some w' ha]
          exact carries.node durable sound entries ids (within.get ha) key

/-- A directory answers as its value does in the store. -/
theorem EncodesEntry.answer (durable : Durable w) {entry : Entry} {id : HashId} {v : Serialized}
    (encodes : EncodesEntry w.heap entry v) (hv : getValue id w.repo = .ok (some v))
    (key : ContextKey) :
    answerIn w (entryContent entry) key = answerIn w (storedContent w.repo id) key := by
  induction key generalizing entry id v with
  | nil =>
      cases encodes with
      | blob value => simp [storedContent, hv, entryContent]
      | commit commit => simp [storedContent, hv, entryContent]
      | tree nodes _ _ =>
          simp [storedContent, hv, entryContent, treeContent, serializeTree_isEmpty nodes]
  | cons name key ih =>
      cases encodes with
      | blob value => simp [storedContent, hv, entryContent]
      | commit commit => simp [storedContent, hv, entryContent]
      | @tree tree entries nodes marked within =>
          show NodeFuzzer.treeAnswer w tree (name :: key) = _
          simp only [storedContent, hv, answerIn]
          cases hb : tree.get name with
          | none =>
              rw [treeAnswer_none w hb, serializeTree_get_none nodes hb]
              rfl
          | some b =>
              obtain ⟨j, hj, hget⟩ := serializeTree_node nodes hb
              rw [treeAnswer_some w hb, hget]
              have lt := within.get hb
              obtain ⟨j', v', hj', hv', _, encodes'⟩ :=
                durable.marked lt (marked (name, b) (OrdMap.mem_entries.mpr hb))
              rw [hj] at hj'
              cases hj'
              cases hentry : (w.heap.node b).entry with
              | none =>
                  rw [content_unloaded w hentry hj]
                  rfl
              | some entry =>
                  rw [content_entry w hentry]
                  exact ih (encodes' entry hentry) hv'

end Answers

/-! ## Calls -/

section Calls

variable {w w' : World System} {c : TezedgeContext} {author message : String} {date : Int64}

/-- Every node of the root is marked, so that nothing is left to be marked below it. -/
theorem getEntriesRecursively_marked {root : Tree} {commit : Commit} {id : HashId} (n : Nat)
    (marked : ∀ p ∈ root.entries, (w.heap.node p.2).commited = true) :
    Exec.wp (getEntriesRecursively false (n + 2) (.commit commit) id (some root))
      (fun _ w' => w' = w) (fun _ => False) w := by
  rw [getEntriesRecursively, Exec.wp_bind]
  show Exec.wp (getEntriesRecursively false (n + 1) (.tree root) commit.rootHash none >>= _) _ _ w
  rw [Exec.wp_bind, getEntriesRecursively, Exec.wp_bind]
  show Exec.wp (Exec.mapEach _ root.entries >>= _) _ _ w
  rw [Exec.wp_bind]
  refine Exec.wp_mono (Exec.wp_mapEach (I := fun _ _ w' => w' = w) rfl ?_) (fun _ _ h => h)
    fun _ h => h
  rintro done p bs _ hp rfl
  rw [Exec.wp_bind, Call.readNode, Exec.wp_gets, if_pos (marked p hp)]
  exact rfl

/-- Hashing a context whose root has marked nodes only gives out ids. -/
theorem hash_step (sound : Sound w) (ok : ContextOk w c)
    (marked : TezedgeContext.commitTime date = none ∨
      ∀ p ∈ c.tree.root.entries, (w.heap.node p.2).commited = true) :
    Exec.wp (c.hash author message date) (fun _ w' => Step (fun _ => True) w w')
      (fun w' => Step (fun _ => True) w w') w := by
  have here := Step.refl sound.good (region_all w)
  rw [TezedgeContext.hash, Exec.wp_bind]
  refine Exec.wp_orFail _ _ ?_ fun _ => here
  intro time htime
  have marked : ∀ p ∈ c.tree.root.entries, (w.heap.node p.2).commited = true := by
    refine marked.resolve_left ?_
    rw [htime]
    exact Option.some_ne_none time
  rw [Exec.wp_bind, Exec.wp_mapErr, WorkingTree.prepareCommit, Exec.wp_bind]
  refine Exec.wp_mono (getWorkingTreeRootHash_spec sound.good (region_all w) ok.within
    fun _ _ => trivial) ?_ fun w' h => h.1
  intro rootHash w₁ h
  obtain ⟨step₁, _, r, _, new⟩ := h
  rw [Exec.wp_bind, Exec.wp_mapErr]
  refine Exec.wp_mono (hashCommit_spec (step₁.sound sound) (region_all w₁) new.hash) ?_
    fun w' h => step₁.trans h.1
  intro id w₂ h
  obtain ⟨step₂, _, _, p, _, newCommit⟩ := h
  have step := step₁.trans step₂
  rw [Exec.wp_bind, Exec.wp_gets, Exec.wp_bind]
  have marked₂ : ∀ p ∈ c.tree.root.entries, (w₂.heap.node p.2).commited = true := by
    intro p hp
    rw [step.node]
    exact marked p hp
  refine Exec.wp_mono (getEntriesRecursively_marked w₂.heap.next marked₂) ?_ fun _ h => h.elim
  rintro data _ rfl
  refine wp_getCommitHash newCommit.hash ?_
  exact wp_onStore (P := fun _ s => s = _) rfl fun _ _ h => by rw [h]; exact step

/-- A commit that can be found is checked out, with the answers of its root in the store. -/
theorem checkout_answers {h : ContextHash} {id : HashId} {commit : Commit}
    {entries : OrdMap KeyFragment (NodeKind × HashId)}
    (resolves : getContextHash h w.repo = .ok (some id))
    (hcommit : getValue id w.repo = .ok (some (.commit commit)))
    (hroot : getValue commit.rootHash w.repo = .ok (some (.tree entries))) :
    TezedgeIndex.checkout h w =
      (.ok (some ⟨some id, .tree (entries.mapPosition fun i => w.heap.next + i)⟩),
        { w with heap := loadHeap w.heap entries }) := by
  have commits : TezedgeIndex.findCommit id w = (.ok (some commit), w) := by
    simp only [TezedgeIndex.findCommit, TezedgeIndex.findEntry, Call.askRepo, Exec.query, bind,
      Exec.bind, hcommit]
    rfl
  have roots : TezedgeIndex.findTree commit.rootHash w =
      (.ok (some (entries.mapPosition fun i => w.heap.next + i)),
        { w with heap := loadHeap w.heap entries }) := by
    simp only [TezedgeIndex.findTree, TezedgeIndex.findEntry, Call.askRepo, Exec.query, bind,
      Exec.bind, hroot]
    rfl
  rw [TezedgeIndex.checkout]
  simp only [Call.askRepo, Exec.mapErr, Exec.query, bind, Exec.bind, resolves, commits, roots]
  rfl

/-- What a call keeps. -/
structure Lasts (w w' : World System) : Prop where
  durable : Durable w'
  carries : Carries w w'

theorem Lasts.grows (durable : Durable w) (grows : Grows w w') : Lasts w w' := by
  refine ⟨durable.grows grows, ?_⟩
  intro id v live hv
  rw [grows.repo]
  exact ⟨live, hv⟩

theorem Lasts.step {R : Addr → Prop} (durable : Durable w) (sound : Sound w)
    (step : Step R w w') : Lasts w w' := by
  refine ⟨durable.step sound step, ?_⟩
  intro id v live hv
  obtain ⟨live', _, same⟩ := step.keeps.old id live
  exact ⟨live', same.trans hv⟩

/-- A commit that can be checked out. -/
structure Commited (w : World System) (h : ContextHash) (answer : ContextKey → Answer) : Prop where
  parts : ∃ id commit entries, getContextHash h w.repo = .ok (some id) ∧ Live w.repo id ∧
    getValue id w.repo = .ok (some (.commit commit)) ∧ Live w.repo commit.rootHash ∧
    getValue commit.rootHash w.repo = .ok (some (.tree entries)) ∧
    ∀ key, answerIn w (storedContent w.repo commit.rootHash) key = answer key

theorem commit_lasts (sound : Sound w) (durable : Durable w) (ok : ContextOk w c) :
    Exec.wp (c.commit author message date)
      (fun h w' => Lasts w w' ∧ Commited w' h (treeAnswer w c.tree.root))
      (fun w' => Lasts w w') w := by
  refine Exec.wp_mono (commit_wrote sound ok) ?_ fun w' step => Lasts.step durable sound step
  intro h w' wrote
  obtain ⟨w₁, commit, id, data, prepared, heap, wrote, _⟩ := wrote
  obtain ⟨w₀, step, collection, _⟩ := prepared.collection
  have lasts₀ := Lasts.step durable sound step
  have sound₀ := step.sound sound
  have within₀ : Within w₀.heap c.tree.root := ok.within.mono step.next.ge
  have stored := collection.stored lasts₀.durable heap wrote
  have durable' := lasts₀.durable.written sound₀ within₀ collection stored
  have carries : Carries w w' := by
    intro j v live hv
    obtain ⟨live₀, hv₀⟩ := lasts₀.carries live hv
    exact ⟨(stored.live j).mpr live₀, stored.kept hv₀⟩
  refine ⟨⟨durable', carries⟩, ?_⟩
  obtain ⟨_, newRoot⟩ := collection.newRoot
  obtain ⟨_, newCommit⟩ := collection.newCommit
  obtain ⟨value, mem, serializes⟩ := collection.rootMem
  have encodes : EncodesEntry w'.heap (.tree c.tree.root) value := by
    rw [heap]
    refine ((Serializes.marks collection.marks).mpr serializes).encodes collection.rootMarked ?_
    intro tree htree
    cases htree
    exact collection.marks.within.mpr within₀
  have hvalue := stored.written mem
  cases serializes with
  | @tree _ entries _ =>
      refine ⟨id, commit, entries, ?_, (stored.live _).mpr newCommit.live,
        stored.written collection.commitMem, (stored.live _).mpr newRoot.live, hvalue, ?_⟩
      · show Except.ok (w'.repo.store.contextHashes (Digest.defaultHasher h.bytes)) = _
        rw [wrote.contextHashes, Function.update_self]
      · intro key
        rw [← encodes.answer durable' hvalue]
        refine carries.treeAnswer durable sound ?_ ?_ ok.within key
        · intro a
          rw [heap, collection.marks.entry, step.entry]
        · intro a j hj
          rw [heap, collection.marks.entryHash]
          exact step.cached a j hj

/-- `find` depends on the answers only. -/
theorem find_congr (c c' : TezedgeContext) (tight : Tight w.heap) (tight' : Tight w'.heap)
    (within : Within w.heap c.tree.root) (within' : Within w'.heap c'.tree.root)
    (present : Present w c.tree.root) (key : ContextKey)
    (same : ∀ key, treeAnswer w' c'.tree.root key = treeAnswer w c.tree.root key) :
    (c'.find key w').1 = (c.find key w).1 := by
  have mapped : ∀ (c : TezedgeContext) (w : World System), (c.find key w).1 =
      match (c.tree.find key w).1 with
      | .ok a => .ok a
      | .err e => .err (.merkleStorageError e)
      | .panic => .panic := by
    intro c w
    simp only [TezedgeContext.find, Exec.mapErr]
    rcases c.tree.find key w with ⟨_ | _ | _, _⟩ <;> rfl
  have present' : Present w' c'.tree.root := by
    intro key
    rw [same]
    exact present key
  rw [mapped, mapped]
  by_cases hkey : key = []
  · rw [hkey]
    rfl
  · rw [(find_reads tight within present hkey).1, (find_reads tight' within' present' hkey).1, same]

end Calls

/-! ## Whole runs -/

section Runs

variable {s s' s'' : Session System}

/-- The call marks no node whose entry it does not write: `hash` is only called on
contexts whose root has marked nodes. -/
def Op.Saves (s : Session System) : Op → Prop
  | .cycleStarted => False
  | .hash i _ _ date => TezedgeContext.commitTime date = none ∨ ∀ c ∈ s.contexts[i]?,
      ∀ p ∈ c.tree.root.entries, (s.world.heap.node p.2).commited = true
  | _ => True

/-- What holds of a process whose commits last. -/
structure DurableSession (s : Session System) : Prop where
  sound : SoundSession s
  durable : Durable s.world

/-- A call on nodes and store that returns its value. -/
theorem lasts_onWorld {α : Type} {x : Call System ContextError α} {reply : α → Reply}
    (spec : Exec.wp x (fun _ w => Lasts s.world w) (fun w => Lasts s.world w) s.world) :
    Exec.wp (do
        let a ← Session.onWorld x
        pure (reply a)) (fun _ s' => Lasts s.world s'.world)
      (fun s' => Lasts s.world s'.world) s := by
  rw [Exec.wp_bind, wp_onWorld]
  exact Exec.wp_mono spec (fun _ _ h => h) fun _ h => h

theorem perform_lasts {op : Op} (session : DurableSession s) (saves : op.Saves s) :
    Lasts s.world (Session.perform op s).2.world := by
  obtain ⟨sound, durable⟩ := session
  have here : Lasts s.world s.world := Lasts.grows durable (Grows.refl sound.sound)
  have ok : ∀ {i : Nat} {c : TezedgeContext}, s.contexts[i]? = some c → ContextOk s.world c :=
    fun hc => sound.contexts _ (List.mem_of_getElem? hc)
  have edited : op.Edits → Lasts s.world (Session.perform op s).2.world := fun edits =>
    Lasts.grows durable (Exec.wp_state (perform_edited sound edits)).grows
  cases op with
  | cycleStarted => exact saves.elim
  | getMerkleRoot i =>
      refine Exec.wp_state (P := fun s' => Lasts s.world s'.world)
        (wp_withContext (fun _ => here) fun c hc => lasts_onWorld ?_)
      refine Exec.wp_mono (getMerkleRoot_spec sound.sound.good (region_all _) (ok hc).within
        fun _ _ => trivial) ?_ ?_
      · exact fun _ w h => Lasts.step durable sound.sound h.1
      · exact fun w h => Lasts.step durable sound.sound h.1
  | hash i author message date =>
      refine Exec.wp_state (P := fun s' => Lasts s.world s'.world)
        (wp_withContext (fun _ => here) fun c hc => lasts_onWorld ?_)
      refine Exec.wp_mono (hash_step sound.sound (ok hc) (saves.imp_right fun all => all c hc)) ?_ ?_
      · exact fun _ w step => Lasts.step durable sound.sound step
      · exact fun w step => Lasts.step durable sound.sound step
  | commit i author message date =>
      refine Exec.wp_state (P := fun s' => Lasts s.world s'.world)
        (wp_withContext (fun _ => here) fun c hc => lasts_onWorld ?_)
      exact Exec.wp_mono (commit_lasts sound.sound durable (ok hc)) (fun _ _ h => h.1) fun _ h => h
  | _ => exact edited trivial

theorem perform_durable {op : Op} (session : DurableSession s) (saves : op.Saves s) :
    DurableSession (Session.perform op s).2 := by
  refine ⟨(perform_later session.sound ?_).sound, (perform_lasts session saves).durable⟩
  rintro rfl
  exact saves

theorem RunsIf.lasts (run : RunsIf (fun s op => op.Saves s) s s') (session : DurableSession s) :
    DurableSession s' ∧ Carries s.world s'.world := by
  induction run with
  | refl => exact ⟨session, fun live hv => ⟨live, hv⟩⟩
  | tail _ step ih =>
      obtain ⟨op, saves, rfl⟩ := step
      obtain ⟨session', carries⟩ := ih
      refine ⟨perform_durable session' saves, ?_⟩
      intro id v live hv
      obtain ⟨live', hv'⟩ := carries live hv
      exact (perform_lasts session' saves).carries live' hv'

theorem durableSession_start (disabled : Bool) (schedule : List Nat) :
    DurableSession (.start disabled schedule) where
  sound := soundSession_new disabled schedule 0
  durable := by
    refine ⟨?_, ?_, ?_, ?_⟩
    · exact fun ha => absurd ha (Nat.not_lt_zero _)
    · exact fun live => absurd live.1 (Nat.not_lt_zero _)
    · exact fun ha => absurd ha (Nat.not_lt_zero _)
    · exact fun ha => absurd ha (Nat.not_lt_zero _)

theorem commit_answers {i : Nat} {c : TezedgeContext} {author message : String} {date : Int64}
    (session : DurableSession s) (hc : s.contexts[i]? = some c) :
    Exec.wp (Session.perform (.commit i author message date))
      (fun reply s' => ∀ h, reply = .contextHash h →
        Commited s'.world h (treeAnswer s.world c.tree.root)) (fun _ => True) s := by
  refine wp_withContext ?_ ?_
  · intro none
    rw [hc] at none
    cases none
  · intro c' hc'
    rw [hc] at hc'
    cases hc'
    rw [Exec.wp_bind, wp_onWorld]
    refine Exec.wp_mono (commit_lasts session.sound.sound session.durable
      (session.sound.contexts c (List.mem_of_getElem? hc))) ?_ fun _ _ => trivial
    rintro h w' ⟨_, commited⟩ h' ⟨⟩
    exact commited

/-- A context that was committed can be checked out, at once and later, and finds what the
committed one found. -/
theorem commit_durable {disabled : Bool} {schedule : List Nat} {i : Nat} {c : TezedgeContext}
    {author message : String} {date : Int64} {h : ContextHash}
    (run : RunsIf (fun s op => op.Saves s) (.start disabled schedule) s)
    (hc : s.contexts[i]? = some c)
    (call : Session.perform (.commit i author message date) s = (.ok (.contextHash h), s'))
    (later : RunsIf (fun s op => op.Saves s) s' s'')
    (resolves : getContextHash h s''.world.repo = getContextHash h s'.world.repo) :
    ∃ c' w, TezedgeIndex.checkout h s''.world = (.ok (some c'), w) ∧
      ∀ key, (c'.find key w).1 = (c.find key s.world).1 := by
  obtain ⟨session, _⟩ := run.lasts (durableSession_start disabled schedule)
  have ok := session.sound.contexts c (List.mem_of_getElem? hc)
  have commited : Commited s'.world h (treeAnswer s.world c.tree.root) :=
    Exec.wp_ok (commit_answers session hc) call h rfl
  have session' : DurableSession s' := by
    have after := @perform_durable _ s (.commit i author message date) session trivial
    rw [call] at after
    exact after
  obtain ⟨session'', carries⟩ := later.lasts session'
  obtain ⟨id, commit, entries, hid, live, hcommit, liveRoot, hroot, answer⟩ := commited.parts
  obtain ⟨liveRoot'', hroot''⟩ := carries liveRoot hroot
  refine ⟨_, _, checkout_answers (resolves.trans hid) (carries live hcommit).2 hroot'', ?_⟩
  intro key
  have loaded := Grows.load session''.sound.sound liveRoot'' hroot''
  have within : Within (loadHeap s''.world.heap entries)
      (entries.mapPosition fun i => s''.world.heap.next + i) := by
    cases encodes_loadHeap s''.world.heap entries with
    | tree _ _ within => exact within
  refine find_congr c ⟨some id, .tree (entries.mapPosition fun i => s''.world.heap.next + i)⟩
    (fun _ hentry => (session.sound.sound.nodes _).within hentry)
    (fun _ hentry => (loaded.sound.nodes _).within hentry) ok.within within
    (session.durable.present session.sound.sound ok.within) key ?_
  intro key
  calc treeAnswer _ (entries.mapPosition fun i => s''.world.heap.next + i) key
      = answerIn s''.world (storedContent s''.world.repo commit.rootHash) key :=
        treeAnswer_load hroot'' key
    _ = answerIn s'.world (storedContent s'.world.repo commit.rootHash) key :=
        carries.stored session'.durable session'.sound.sound liveRoot hroot key
    _ = treeAnswer s.world c.tree.root key := answer key

end Runs

end Lasting

section Sample

local instance durableDigest : Digest := sampleDigest

/-- What a key finds in a context that is checked out. -/
def findAt (h : ContextHash) (key : ContextKey) (w : World System) :
    Option (Outcome ContextError (Option ContextValue)) :=
  match TezedgeIndex.checkout h w with
  | (.ok (some c), w') => some (c.find key w').1
  | _ => none

/-- A context is committed and hashed, and a second one is made from it. -/
def hashedLate : Session System :=
  (Session.start false []).after
    [.new, .add 0 ["a", "b"] [1], .commit 1 "author" "message" 1, .hash 1 "author" "message" 1,
      .add 1 ["c"] [2]]

theorem commit_durable_hashedLate :
    let commited := Session.perform (.commit 2 "author" "message" 2) hashedLate
    ∃ h c' w, answeredHash commited.1 = some h ∧
      TezedgeIndex.checkout h commited.2.world = (.ok (some c'), w) ∧
      (c'.find ["a", "b"] w).1 = .ok (some [1]) ∧ (c'.find ["c"] w).1 = .ok (some [2]) := by
  intro commited
  have run : RunsIf (fun s op => op.Saves s) (.start false []) hashedLate := by
    refine runsIf_cons .new trivial ?_
    refine runsIf_cons (.add 0 ["a", "b"] [1]) trivial ?_
    refine runsIf_cons (.commit 1 "author" "message" 1) trivial ?_
    refine runsIf_cons (.hash 1 "author" "message" 1) ?_ ?_
    · show _ ∨ ∀ c ∈ _, ∀ p ∈ _, _
      decide +kernel
    · exact runsIf_cons (.add 1 ["c"] [2]) trivial .refl
  obtain ⟨h, answer⟩ : ∃ h, answeredHash commited.1 = some h :=
    Option.isSome_iff_exists.mp (by decide +kernel)
  obtain ⟨c, hc⟩ : ∃ c, hashedLate.contexts[2]? = some c :=
    Option.isSome_iff_exists.mp (by decide +kernel)
  obtain ⟨c', w, checkout, same⟩ := commit_durable run hc (answeredHash_eq answer) .refl rfl
  have found : ∀ {key outcome},
      (hashedLate.contexts[2]?.map fun c => (c.find key hashedLate.world).1) = some outcome →
      (c'.find key w).1 = outcome := by
    intro key outcome here
    rw [hc] at here
    exact (same key).trans (Option.some.inj here)
  exact ⟨h, c', w, answer, checkout, found (by decide +kernel), found (by decide +kernel)⟩

/-- `hash` marks the nodes of a context, and the commit that follows does not write them. -/
theorem hash_loses_entries :
    let s := (Session.start false []).after
      [.new, .add 0 ["a", "b"] [1], .hash 1 "author" "message" 1]
    let commited := Session.perform (.commit 1 "author" "message" 1) s
    ∃ h c, answeredHash commited.1 = some h ∧ s.contexts[1]? = some c ∧
      ¬ ∃ c' w, TezedgeIndex.checkout h commited.2.world = (.ok (some c'), w) ∧
        ∀ key, (c'.find key w).1 = (c.find key s.world).1 := by
  intro s commited
  obtain ⟨h, answer⟩ : ∃ h, answeredHash commited.1 = some h :=
    Option.isSome_iff_exists.mp (by decide +kernel)
  obtain ⟨c, hc⟩ : ∃ c, s.contexts[1]? = some c :=
    Option.isSome_iff_exists.mp (by decide +kernel)
  refine ⟨h, c, answer, hc, ?_⟩
  rintro ⟨c', w, checkout, same⟩
  have lost : ((answeredHash commited.1).bind fun h =>
      (findAt h ["a", "b"] commited.2.world).map Outcome.isOk) = some false := by decide +kernel
  have there : (s.contexts[1]?.map fun c => (c.find ["a", "b"] s.world).1.isOk) = some true := by
    decide +kernel
  rw [answer, Option.bind_some, findAt, checkout] at lost
  rw [hc] at there
  have equal := congrArg Outcome.isOk (same ["a", "b"])
  have differ : false = true := (Option.some.inj lost).symm.trans (equal.trans (Option.some.inj there))
  cases differ

end Sample

end NodeFuzzer
