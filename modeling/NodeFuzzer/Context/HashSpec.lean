import Mathlib.Data.List.ReduceOption
import NodeFuzzer.Context.Hash

/-!
# What the hash of a node is

`HashOf w a h` says that `h` is the hash of the node at `a`, without computing it: the
hash of the id the node has, or the hash of its entry.  Ids that a store may forget
(those of a read-only runner) are not `Known` and never count; a node with such an id
must have the hash it would have without it.

Hashing returns that hash and changes the hash of no node (`entryHash_spec`,
`hashTree_spec`).  It fails only on nodes that have none, or when the store runs out
of ids.  What else a call may change is said once, by `Step`.
-/

namespace NodeFuzzer

open KeyValueStoreBackend

/-! ## Stores -/

/-- How a store looks to the nodes. -/
class StoreView (S : Type) where
  /-- Holds of the store in every state. -/
  Inv : S → Prop
  /-- Ids in use. -/
  Live : S → HashId → Prop
  /-- Ids whose hash stays when the entries are cleared. -/
  Known : HashId → Prop
  /-- States in which handing out an id may have failed. -/
  Exhausted : S → Prop

open StoreView

/-- Everything in use is as before; what came into use has no value. -/
structure Keeps {S : Type} [KeyValueStoreBackend S] [StoreView S] (s s' : S) : Prop where
  old : ∀ id, Live s id →
    Live s' id ∧ getHash id s' = getHash id s ∧ getValue id s' = getValue id s
  blank : ∀ id, Live s' id → ¬ Live s id → getValue id s' = .ok none
  contexts : ∀ h, getContextHash h s' = getContextHash h s

/-- What hashing needs of a store: an id that is handed out was not in use, and those
in use stay as they are. -/
class LawfulStore (S : Type) [KeyValueStoreBackend S] extends StoreView S where
  vacant : ∀ h s, Inv s → Exec.wp (getVacantEntryHash h)
    (fun id s' => Inv s' ∧ ¬ Live s id ∧ Live s' id ∧ getHash id s' = .ok (some h) ∧
      getValue id s' = .ok none ∧ Keeps s s')
    (fun s' => Inv s' ∧ Exhausted s' ∧ Keeps s s') s

namespace Keeps

variable {S : Type} [KeyValueStoreBackend S] [StoreView S] {s s' s'' : S}

theorem refl (s : S) : Keeps s s :=
  ⟨fun _ h => ⟨h, rfl, rfl⟩, fun _ h h' => absurd h h', fun _ => rfl⟩

theorem trans (h : Keeps s s') (h' : Keeps s' s'') : Keeps s s'' where
  old := by
    intro id live
    obtain ⟨live', hash, value⟩ := h.old id live
    obtain ⟨live'', hash', value'⟩ := h'.old id live'
    exact ⟨live'', hash'.trans hash, value'.trans value⟩
  blank := by
    intro id live'' fresh
    by_cases live' : Live s' id
    · rw [(h'.old id live').2.2]
      exact h.blank id live' fresh
    · exact h'.blank id live'' live'
  contexts := fun k => (h'.contexts k).trans (h.contexts k)

end Keeps

variable {S : Type} [KeyValueStoreBackend S] [LawfulStore S]

/-! ## The hash of a node -/

/-- The node has no id that stays. -/
def Unknown (w : World S) (a : Addr) : Prop :=
  ∀ id, (w.heap.node a).entryHash = some id → ¬ Known S id

theorem Unknown.of_none {w : World S} {a : Addr} (h : (w.heap.node a).entryHash = none) :
    Unknown w a := by
  intro id hid
  rw [h] at hid
  cases hid

variable [Digest]

/-- The hash of a node. -/
inductive HashOf (w : World S) : Addr → EntryHash → Prop
  | known {a : Addr} {id : HashId} {h : EntryHash}
      (cached : (w.heap.node a).entryHash = some id) (known : Known S id)
      (hash : getHash id w.repo = .ok (some h)) : HashOf w a h
  | blob {a : Addr} {value : ContextValue} (unknown : Unknown w a)
      (entry : (w.heap.node a).entry = some (.blob value)) :
      HashOf w a (Digest.blake2b (blobString value))
  | tree {a : Addr} {tree : Tree} {hash : Addr → EntryHash} {h : EntryHash}
      (unknown : Unknown w a) (entry : (w.heap.node a).entry = some (.tree tree))
      (children : ∀ p ∈ tree.entries, HashOf w p.2 (hash p.2))
      (treeHash : TreeHash
        (tree.entries.map fun p => (p.1, (w.heap.node p.2).nodeKind, hash p.2)) h) :
      HashOf w a h

theorem HashOf.unique {w : World S} {a : Addr} {h h' : EntryHash} (hash : HashOf w a h)
    (hash' : HashOf w a h') : h = h' := by
  induction hash generalizing h' with
  | known cached known hash =>
      cases hash' with
      | known cached' _ hash' =>
          rw [cached] at cached'
          cases cached'
          rw [hash] at hash'
          cases hash'
          rfl
      | blob unknown => exact absurd known (unknown _ cached)
      | tree unknown => exact absurd known (unknown _ cached)
  | blob unknown entry =>
      cases hash' with
      | known cached known => exact absurd known (unknown _ cached)
      | blob _ entry' =>
          rw [entry] at entry'
          cases entry'
          rfl
      | tree _ entry' =>
          rw [entry] at entry'
          cases entry'
  | @tree a tree hash h unknown entry children treeHash ih =>
      cases hash' with
      | known cached known => exact absurd known (unknown _ cached)
      | blob _ entry' =>
          rw [entry] at entry'
          cases entry'
      | @tree _ tree' hash' _ _ entry' children' treeHash' =>
          rw [entry] at entry'
          cases entry'
          have hsame : tree.entries.map (fun p => (p.1, (w.heap.node p.2).nodeKind, hash p.2)) =
              tree.entries.map fun p => (p.1, (w.heap.node p.2).nodeKind, hash' p.2) := by
            apply List.map_congr_left
            intro p hp
            rw [ih p hp (children' p hp)]
          rw [hsame] at treeHash
          exact treeHash.unique treeHash'

instance : Nonempty EntryHash := ⟨⟨List.replicate 32 0, List.length_replicate⟩⟩

/-- The hash of a node that has one. -/
noncomputable def hashAt (w : World S) (a : Addr) : EntryHash := Classical.epsilon (HashOf w a)

theorem HashOf.hashAt_eq {w : World S} {a : Addr} {h : EntryHash} (hash : HashOf w a h) :
    hashAt w a = h :=
  (Classical.epsilon_spec ⟨h, hash⟩ : HashOf w a (hashAt w a)).unique hash

/-- The kind and the hash of a node. -/
noncomputable def label (w : World S) (a : Addr) : NodeKind × EntryHash :=
  ((w.heap.node a).nodeKind, hashAt w a)

/-- The bindings of a directory. -/
noncomputable def bindings (w : World S) (entries : List (KeyFragment × Addr)) : List Binding :=
  entries.map fun p => (p.1, label w p.2)

/-- Every node of a directory has a hash. -/
def Hashed (w : World S) (entries : List (KeyFragment × Addr)) : Prop :=
  ∀ p ∈ entries, ∃ h, HashOf w p.2 h

/-- The hash of a directory. -/
def TreeHashOf (w : World S) (tree : Tree) (h : EntryHash) : Prop :=
  Hashed w tree.entries ∧ TreeHash (bindings w tree.entries) h

theorem map_hash_eq_bindings {w : World S} {entries : List (KeyFragment × Addr)}
    {hash : Addr → EntryHash} (h : ∀ p ∈ entries, HashOf w p.2 (hash p.2)) :
    entries.map (fun p => (p.1, (w.heap.node p.2).nodeKind, hash p.2)) = bindings w entries := by
  apply List.map_congr_left
  intro p hp
  rw [label, (h p hp).hashAt_eq]

theorem hashOf_tree_iff {w : World S} {a : Addr} {tree : Tree} {h : EntryHash}
    (unknown : Unknown w a) (entry : (w.heap.node a).entry = some (.tree tree)) :
    HashOf w a h ↔ TreeHashOf w tree h := by
  constructor
  · intro hash
    cases hash with
    | known cached known => exact absurd known (unknown _ cached)
    | blob _ entry' =>
        rw [entry] at entry'
        cases entry'
    | tree _ entry' children treeHash =>
        rw [entry] at entry'
        cases entry'
        rw [map_hash_eq_bindings children] at treeHash
        exact ⟨fun p hp => ⟨_, children p hp⟩, treeHash⟩
  · rintro ⟨hashed, treeHash⟩
    have children : ∀ p ∈ tree.entries, HashOf w p.2 (hashAt w p.2) := by
      intro p hp
      obtain ⟨k, hk⟩ := hashed p hp
      rw [hk.hashAt_eq]
      exact hk
    exact .tree unknown entry children (by rwa [map_hash_eq_bindings children])

/-- A hash is kept by a change that keeps the entries of the nodes, and the hashes of
the nodes whose ids it changes. -/
theorem HashOf.transfer {w w' : World S}
    (kind : ∀ a, (w'.heap.node a).nodeKind = (w.heap.node a).nodeKind)
    (entry : ∀ a, Unknown w a → (w'.heap.node a).entry = (w.heap.node a).entry)
    (cached : ∀ a id h, (w.heap.node a).entryHash = some id → Known S id →
      getHash id w.repo = .ok (some h) → HashOf w' a h)
    (unknown : ∀ a h, Unknown w a → Unknown w' a ∨ (HashOf w a h → HashOf w' a h))
    {a : Addr} {h : EntryHash} (hash : HashOf w a h) : HashOf w' a h := by
  induction hash with
  | known hid known hash => exact cached _ _ _ hid known hash
  | @blob a value unknown' entry' =>
      rcases unknown a _ unknown' with hunknown | hkeep
      · exact .blob hunknown ((entry a unknown').trans entry')
      · exact hkeep (.blob unknown' entry')
  | @tree a tree hash h unknown' entry' children treeHash ih =>
      rcases unknown a h unknown' with hunknown | hkeep
      · refine .tree hunknown ((entry a unknown').trans entry') ih ?_
        simp only [kind]
        exact treeHash
      · exact hkeep (.tree unknown' entry' children treeHash)

/-- Every node of a directory has an id. -/
def HasIds (w : World S) (entries : List (KeyFragment × Addr)) : Prop :=
  ∀ p ∈ entries, (w.heap.node p.2).entryHash ≠ none

/-! ## States and steps -/

/-- What holds of the nodes and the store in every state. -/
structure Good (w : World S) : Prop where
  inv : Inv w.repo
  /-- An id that a node keeps is in use. -/
  live : ∀ {a id}, (w.heap.node a).entryHash = some id → Known S id → Live w.repo id
  /-- A directory without an id is newer than its nodes. -/
  older : ∀ {a tree p}, Unknown w a → (w.heap.node a).entry = some (.tree tree) →
    p ∈ tree.entries → p.2 < a
  /-- No node holds a commit of its own. -/
  notCommit : ∀ {a commit}, Unknown w a → (w.heap.node a).entry ≠ some (.commit commit)

/-- Nodes whose ids can be relied on, with all that is below them. -/
structure Region (R : Addr → Prop) (w : World S) : Prop where
  closed : ∀ {a tree p}, R a → Unknown w a → (w.heap.node a).entry = some (.tree tree) →
    p ∈ tree.entries → R p.2
  held : ∀ {a id}, R a → (w.heap.node a).entryHash = some id → ¬ Known S id →
    Live w.repo id ∧ ∃ h, HashOf w a h ∧ getHash id w.repo = .ok (some h)

/-- The id was just handed out for a hash. -/
structure NewId (w : World S) (id : HashId) (h : EntryHash) : Prop where
  live : Live w.repo id
  hash : getHash id w.repo = .ok (some h)
  blank : getValue id w.repo = .ok none
  unused : Known S id → ∀ a, (w.heap.node a).entryHash ≠ some id

/-- One change that hashing nodes of `R` makes. -/
inductive Write (R : Addr → Prop) (w : World S) : World S → Prop
  | repo {s : S} (inv : Inv s) (keeps : Keeps w.repo s) : Write R w { w with repo := s }
  | cache {a : Addr} {id : HashId} {h : EntryHash} (mem : R a)
      (vacant : (w.heap.node a).entryHash = none) (hash : HashOf w a h) (new : NewId w id h) :
      Write R w { w with heap := w.heap.set a { w.heap.node a with entryHash := some id } }

/-! ### Giving a node an id -/

/-- The world in which node `a` was given an id. -/
def World.withId (w : World S) (a : Addr) (id : HashId) : World S :=
  { w with heap := w.heap.set a { w.heap.node a with entryHash := some id } }

section WithId

variable {w : World S} {a b : Addr} {id : HashId} {h k : EntryHash}

section Nodes

omit [KeyValueStoreBackend S] [LawfulStore S] [Digest]

theorem World.withId_here :
    (w.withId a id).heap.node a = { w.heap.node a with entryHash := some id } :=
  Heap.set_node_self ..

theorem World.withId_other (ne : b ≠ a) : (w.withId a id).heap.node b = w.heap.node b :=
  Heap.set_node_of_ne ne _

theorem World.withId_node (b : Addr) : (w.withId a id).heap.node b =
    { w.heap.node b with entryHash := ((w.withId a id).heap.node b).entryHash } := by
  by_cases hb : b = a
  · rw [hb, World.withId_here]
  · rw [World.withId_other hb]

theorem World.withId_nodeKind (b : Addr) :
    ((w.withId a id).heap.node b).nodeKind = (w.heap.node b).nodeKind := by
  rw [World.withId_node b]

theorem World.withId_entry (b : Addr) :
    ((w.withId a id).heap.node b).entry = (w.heap.node b).entry := by
  rw [World.withId_node b]

end Nodes

omit [Digest] in
theorem Unknown.of_withId (vacant : (w.heap.node a).entryHash = none)
    (hb : Unknown (w.withId a id) b) : Unknown w b := by
  by_cases hba : b = a
  · rw [hba]
    exact Unknown.of_none vacant
  · intro j hj
    exact hb j (by rw [World.withId_other hba]; exact hj)

/-- A node that is given the id of its hash, and the nodes above it, hash to the same. -/
theorem HashOf.withId (hk : HashOf w b k) (vacant : (w.heap.node a).entryHash = none)
    (hash : HashOf w a h) (new : NewId w id h) : HashOf (w.withId a id) b k := by
  refine hk.transfer World.withId_nodeKind (fun c _ => World.withId_entry c) ?_ ?_
  · intro c j l hj known hl
    have hca : c ≠ a := by
      rintro rfl
      rw [vacant] at hj
      cases hj
    exact .known (by rw [World.withId_other hca]; exact hj) known hl
  · intro c l hc
    by_cases hca : c = a
    · by_cases known : Known S id
      · right
        intro hl
        rw [hca] at hl ⊢
        rw [hl.unique hash]
        exact .known (by rw [World.withId_here]) known new.hash
      · left
        intro j hj
        rw [hca, World.withId_here] at hj
        cases hj
        exact known
    · left
      intro j hj
      rw [World.withId_other hca] at hj
      exact hc j hj

theorem HashOf.of_withId (hk : HashOf (w.withId a id) b k)
    (vacant : (w.heap.node a).entryHash = none) (hash : HashOf w a h) (new : NewId w id h) :
    HashOf w b k := by
  refine hk.transfer (fun c => (World.withId_nodeKind c).symm)
    (fun c _ => (World.withId_entry c).symm) ?_ (fun _ _ hc => Or.inl (hc.of_withId vacant))
  intro c j l hj known hl
  by_cases hca : c = a
  · rw [hca] at hj ⊢
    rw [World.withId_here] at hj
    cases hj
    cases new.hash.symm.trans hl
    exact hash
  · rw [World.withId_other hca] at hj
    exact .known hj known hl

omit [Digest] in
theorem Good.withId (good : Good w) (vacant : (w.heap.node a).entryHash = none)
    (new : NewId w id h) : Good (w.withId a id) where
  inv := good.inv
  live := by
    intro b j hj known
    by_cases hb : b = a
    · rw [hb, World.withId_here] at hj
      cases hj
      exact new.live
    · rw [World.withId_other hb] at hj
      exact good.live hj known
  older := by
    intro b tree p hb hentry hp
    exact good.older (hb.of_withId vacant) ((World.withId_entry b).symm.trans hentry) hp
  notCommit := by
    intro b commit hb hentry
    exact good.notCommit (hb.of_withId vacant) ((World.withId_entry b).symm.trans hentry)

theorem Region.withId {R : Addr → Prop} (region : Region R w)
    (vacant : (w.heap.node a).entryHash = none) (hash : HashOf w a h) (new : NewId w id h) :
    Region R (w.withId a id) where
  closed := by
    intro b tree p hR hb hentry hp
    exact region.closed hR (hb.of_withId vacant) ((World.withId_entry b).symm.trans hentry) hp
  held := by
    intro b j hR hj hknown
    by_cases hb : b = a
    · rw [hb] at hj ⊢
      rw [World.withId_here] at hj
      cases hj
      exact ⟨new.live, h, hash.withId vacant hash new, new.hash⟩
    · rw [World.withId_other hb] at hj
      obtain ⟨live, k, hk, hhash⟩ := region.held hR hj hknown
      exact ⟨live, k, hk.withId vacant hash new, hhash⟩

end WithId

/-- What hashing nodes of `R` may do: hand out ids, and give them to nodes that had
none. -/
structure Step (R : Addr → Prop) (w w' : World S) : Prop where
  good : Good w'
  region : Region R w'
  path : Relation.ReflTransGen (Write R) w w'
  keeps : Keeps w.repo w'.repo
  next : w'.heap.next = w.heap.next
  node : ∀ a, w'.heap.node a = { w.heap.node a with entryHash := (w'.heap.node a).entryHash }
  cached : ∀ a id, (w.heap.node a).entryHash = some id → (w'.heap.node a).entryHash = some id
  outside : ∀ a, ¬ R a → w'.heap.node a = w.heap.node a
  /-- A directory gets its id after its nodes. -/
  filled : ∀ {a tree}, (w.heap.node a).entryHash = none → (w'.heap.node a).entryHash ≠ none →
    (w.heap.node a).entry = some (.tree tree) → HasIds w' tree.entries
  hashOf : ∀ a h, HashOf w' a h ↔ HashOf w a h

namespace Step

variable {R : Addr → Prop} {w w' w'' : World S}

theorem refl (good : Good w) (region : Region R w) : Step R w w where
  good := good
  region := region
  path := .refl
  keeps := Keeps.refl _
  next := rfl
  node := fun _ => rfl
  cached := fun _ _ h => h
  outside := fun _ _ => rfl
  filled := fun none some => absurd none some
  hashOf := fun _ _ => Iff.rfl

/-- An id of a node stays. -/
theorem hasId (h : Step R w w') {a : Addr} (ha : (w.heap.node a).entryHash ≠ none) :
    (w'.heap.node a).entryHash ≠ none := by
  obtain ⟨id, hid⟩ := Option.ne_none_iff_exists'.mp ha
  rw [h.cached a id hid]
  exact Option.some_ne_none id

theorem hasIds (h : Step R w w') {entries : List (KeyFragment × Addr)}
    (ids : HasIds w entries) : HasIds w' entries := fun p hp => h.hasId (ids p hp)

theorem trans (h : Step R w w') (h' : Step R w' w'') : Step R w w'' where
  good := h'.good
  region := h'.region
  path := h.path.trans h'.path
  keeps := h.keeps.trans h'.keeps
  next := h'.next.trans h.next
  node := by
    intro a
    rw [h'.node a, h.node a]
  cached := fun a id hid => h'.cached a id (h.cached a id hid)
  outside := fun a ha => (h'.outside a ha).trans (h.outside a ha)
  filled := by
    intro a tree none some hentry
    by_cases hmid : (w'.heap.node a).entryHash = .none
    · refine h'.filled hmid some ?_
      rw [h.node a]
      exact hentry
    · exact h'.hasIds (h.filled none hmid hentry)
  hashOf := fun a k => (h'.hashOf a k).trans (h.hashOf a k)

theorem nodeKind (h : Step R w w') (a : Addr) :
    (w'.heap.node a).nodeKind = (w.heap.node a).nodeKind := by
  rw [h.node a]

theorem entry (h : Step R w w') (a : Addr) :
    (w'.heap.node a).entry = (w.heap.node a).entry := by
  rw [h.node a]

theorem hashAt (h : Step R w w') (a : Addr) : hashAt w' a = NodeFuzzer.hashAt w a := by
  have hsame : HashOf w' a = HashOf w a := funext fun k => propext (h.hashOf a k)
  rw [NodeFuzzer.hashAt, NodeFuzzer.hashAt, hsame]

theorem bindings (h : Step R w w') (entries : List (KeyFragment × Addr)) :
    bindings w' entries = NodeFuzzer.bindings w entries := by
  apply List.map_congr_left
  intro p _
  rw [label, label, h.nodeKind, h.hashAt]

theorem hashed (h : Step R w w') (entries : List (KeyFragment × Addr)) :
    Hashed w' entries ↔ Hashed w entries := by
  simp only [Hashed, h.hashOf]

theorem treeHashOf (h : Step R w w') (tree : Tree) (k : EntryHash) :
    TreeHashOf w' tree k ↔ TreeHashOf w tree k := by
  rw [TreeHashOf, TreeHashOf, h.hashed, h.bindings]

theorem unknown (h : Step R w w') {a : Addr} (ha : Unknown w' a) : Unknown w a :=
  fun id hid => ha id (h.cached a id hid)

/-- An id that a node got is one that was just handed out. -/
theorem fresh (h : Step R w w') {a : Addr} {id : HashId}
    (hid : (w'.heap.node a).entryHash = some id) :
    (w.heap.node a).entryHash = some id ∨ Live w'.repo id ∧ getValue id w'.repo = .ok none := by
  have path := h.path
  clear h
  induction path generalizing a id with
  | refl => exact Or.inl hid
  | tail _ write ih =>
      cases write with
      | repo inv keeps =>
          refine (ih hid).imp_right ?_
          intro new
          obtain ⟨live, _, value⟩ := keeps.old id new.1
          exact ⟨live, value.trans new.2⟩
      | @cache b id' h' mem vacant hash new =>
          by_cases ha : a = b
          · rw [ha, Heap.set_node_self] at hid
            cases hid
            exact Or.inr ⟨new.live, new.blank⟩
          · rw [Heap.set_node_of_ne ha] at hid
            exact ih hid

/-- No id is given to two nodes. -/
theorem single (h : Step R w w') (known : ∀ id, Known S id) {a b : Addr} {id : HashId}
    (ha : (w'.heap.node a).entryHash = some id) (hb : (w'.heap.node b).entryHash = some id) :
    a = b ∨ (w.heap.node a).entryHash = some id ∧ (w.heap.node b).entryHash = some id := by
  have path := h.path
  clear h
  induction path with
  | refl => exact Or.inr ⟨ha, hb⟩
  | tail _ write ih =>
      cases write with
      | repo inv keeps => exact ih ha hb
      | @cache c id' h' mem vacant hash new =>
          by_cases hac : a = c
          · rw [hac, Heap.set_node_self] at ha
            cases ha
            by_cases hbc : b = c
            · exact Or.inl (hac.trans hbc.symm)
            · rw [Heap.set_node_of_ne hbc] at hb
              exact absurd hb (new.unused (known _) b)
          · rw [Heap.set_node_of_ne hac] at ha
            by_cases hbc : b = c
            · rw [hbc, Heap.set_node_self] at hb
              cases hb
              exact absurd ha (new.unused (known _) a)
            · rw [Heap.set_node_of_ne hbc] at hb
              exact ih ha hb

/-- Hashing some of the nodes of a region. -/
theorem widen {R' : Addr → Prop} (h : Step R' w w') (sub : ∀ a, R' a → R a)
    (region : Region R w) : Step R w w' where
  good := h.good
  region := by
    refine ⟨?_, ?_⟩
    · intro a tree p ha hunknown hentry hp
      exact region.closed ha (h.unknown hunknown) ((h.entry a).symm.trans hentry) hp
    · intro a id ha hid unknown
      by_cases ha' : R' a
      · exact h.region.held ha' hid unknown
      · rw [h.outside a ha'] at hid
        obtain ⟨live, k, hash, hk⟩ := region.held ha hid unknown
        obtain ⟨live', hash', _⟩ := h.keeps.old id live
        exact ⟨live', k, (h.hashOf a k).mpr hash, hash'.trans hk⟩
  path := by
    refine Relation.ReflTransGen.mono ?_ _ _ h.path
    intro u v write
    cases write with
    | repo inv keeps => exact .repo inv keeps
    | cache mem vacant hash new => exact .cache (sub _ mem) vacant hash new
  keeps := h.keeps
  next := h.next
  node := h.node
  cached := h.cached
  outside := fun a ha => h.outside a fun ha' => ha (sub a ha')
  filled := h.filled
  hashOf := h.hashOf

/-- Handing out an id. -/
theorem ofRepo {s : S} (good : Good w) (region : Region R w) (inv : Inv s)
    (keeps : Keeps w.repo s) : Step R w { w with repo := s } := by
  have forward : ∀ a h, HashOf w a h → HashOf { w with repo := s } a h := by
    intro a h hash
    refine HashOf.transfer ?_ ?_ ?_ ?_ hash
    · exact fun _ => rfl
    · exact fun _ _ => rfl
    · intro b id k hid known hk
      exact .known hid known ((keeps.old id (good.live hid known)).2.1.trans hk)
    · exact fun _ _ unknown => Or.inl unknown
  have back : ∀ a h, HashOf { w with repo := s } a h → HashOf w a h := by
    intro a h hash
    refine HashOf.transfer ?_ ?_ ?_ ?_ hash
    · exact fun _ => rfl
    · exact fun _ _ => rfl
    · intro b id k hid known hk
      exact .known hid known ((keeps.old id (good.live hid known)).2.1.symm.trans hk)
    · exact fun _ _ unknown => Or.inl unknown
  refine ⟨⟨inv, ?_, good.older, good.notCommit⟩, ⟨region.closed, ?_⟩,
    .single (.repo inv keeps), keeps, rfl, fun _ => rfl, fun _ _ hid => hid, fun _ _ => rfl,
    fun none some => absurd none some, fun a h => ⟨back a h, forward a h⟩⟩
  · exact fun hid known => (keeps.old _ (good.live hid known)).1
  · intro a id ha hid unknown
    obtain ⟨live, h, hash, hh⟩ := region.held ha hid unknown
    exact ⟨(keeps.old id live).1, h, forward a h hash, (keeps.old id live).2.1.trans hh⟩

/-- Giving its id to a node. -/
theorem ofCache {a : Addr} {id : HashId} {h : EntryHash} (good : Good w) (region : Region R w)
    (ha : R a) (vacant : (w.heap.node a).entryHash = none) (hash : HashOf w a h)
    (new : NewId w id h)
    (ids : ∀ {tree}, (w.heap.node a).entry = some (.tree tree) → HasIds w tree.entries) :
    Step R w (w.withId a id) where
  good := good.withId vacant new
  region := region.withId vacant hash new
  path := .single (.cache ha vacant hash new)
  keeps := Keeps.refl _
  next := rfl
  node := World.withId_node
  cached := by
    intro b j hj
    have hb : b ≠ a := by
      rintro rfl
      rw [vacant] at hj
      cases hj
    rw [World.withId_other hb]
    exact hj
  outside := fun b hb => World.withId_other fun heq => hb (heq ▸ ha)
  filled := by
    intro b tree none some hentry p hp
    have hba : b = a := by
      by_contra hne
      rw [World.withId_other hne] at some
      exact some none
    subst hba
    by_cases hpb : p.2 = b
    · rw [hpb]
      exact some
    · rw [World.withId_other hpb]
      exact ids hentry p hp
  hashOf := fun _ _ =>
    ⟨fun hk => hk.of_withId vacant hash new, fun hk => hk.withId vacant hash new⟩

end Step

/-! ## Hashing directories -/

/-- The id is in use and has the hash. -/
def Points (w : World S) (id : HashId) (h : EntryHash) : Prop :=
  Live w.repo id ∧ getHash id w.repo = .ok (some h)

section Directories

variable {R : Addr → Prop} {w w₁ w₂ : World S} {L : Prop}

theorem Points.step {id : HashId} {h : EntryHash} (points : Points w₁ id h)
    (step : Step R w₁ w₂) : Points w₂ id h := by
  obtain ⟨live, hash⟩ := points
  obtain ⟨live', hash', _⟩ := step.keeps.old id live
  exact ⟨live', hash'.trans hash⟩

theorem putHash_spec (good : Good w) (region : Region R w) (string : Bytes) :
    Exec.wp (putHash string)
      (fun id w' => Step R w w' ∧ NewId w' id (Digest.blake2b string) ∧ w'.heap = w.heap ∧
        ¬ Live w.repo id)
      (fun w' => Step R w w' ∧ Exhausted w'.repo) w := by
  rw [putHash, Exec.wp_mapErr, Call.onRepo, Exec.wp_onPart]
  refine Exec.wp_mono (LawfulStore.vacant (Digest.blake2b string) w.repo good.inv) ?_ ?_
  · rintro id s ⟨inv, fresh, live, hash, blank, keeps⟩
    refine ⟨Step.ofRepo good region inv keeps, ⟨live, hash, blank, ?_⟩, rfl, fresh⟩
    intro known a hid
    exact fresh (good.live hid known)
  · rintro s ⟨inv, exhausted, keeps⟩
    exact ⟨Step.ofRepo good region inv keeps, exhausted⟩

/-- Every node of a directory had a hash, and has an id for it now. -/
def Ready (w w₁ : World S) (entries : List (KeyFragment × Addr)) : Prop :=
  Hashed w entries ∧ HasIds w₁ entries

theorem Ready.step {entries : List (KeyFragment × Addr)} (ready : Ready w w₁ entries)
    (step : Step R w₁ w₂) : Ready w w₂ entries := ⟨ready.1, step.hasIds ready.2⟩

theorem Ready.nil : Ready w w₁ [] :=
  ⟨fun _ hp => absurd hp List.not_mem_nil, fun _ hp => absurd hp List.not_mem_nil⟩

/-- `nodeHash` returns the hash of every node of a directory, or there is an excuse. -/
def NodeSpec (R : Addr → Prop) (w : World S) (L : Prop)
    (nodeHash : Addr → Call S HashingError EntryHash) (entries : List (KeyFragment × Addr)) : Prop :=
  ∀ p ∈ entries, ∀ w₁, Step R w w₁ →
    Exec.wp (nodeHash p.2)
      (fun h w₂ => Step R w₁ w₂ ∧ HashOf w p.2 h ∧ (w₂.heap.node p.2).entryHash ≠ none)
      (fun w₂ => Step R w₁ w₂ ∧ (Exhausted w₂.repo ∨ L)) w₁

variable {nodeHash : Addr → Call S HashingError EntryHash}
variable {entries : List (KeyFragment × Addr)}

theorem NodeSpec.sublist {sub : List (KeyFragment × Addr)}
    (node : NodeSpec R w L nodeHash entries) (h : ∀ p ∈ sub, p ∈ entries) :
    NodeSpec R w L nodeHash sub := fun p hp => node p (h p hp)

theorem hashNodes_spec (node : NodeSpec R w L nodeHash entries) (step : Step R w w₁) :
    Exec.wp (hashNodes nodeHash entries)
      (fun bs w₂ => Step R w₁ w₂ ∧ Ready w w₂ entries ∧ bs = bindings w entries)
      (fun w₂ => Step R w₁ w₂ ∧ (Exhausted w₂.repo ∨ L)) w₁ := by
  refine Exec.wp_mapEach (I := fun done bs w₂ =>
    Step R w₁ w₂ ∧ Ready w w₂ done ∧ bs = bindings w done) ?_ ?_
  · exact ⟨Step.refl step.good step.region, Ready.nil, rfl⟩
  · rintro done p bs w₂ hp ⟨step₂, ready, rfl⟩
    rw [Exec.wp_bind, Call.readNode, Exec.wp_gets, Exec.wp_bind]
    refine Exec.wp_mono (node p hp w₂ (step.trans step₂)) ?_ ?_
    · rintro h w₃ ⟨step₃, hash, hasId⟩
      refine ⟨step₂.trans step₃, ⟨?_, ?_⟩, ?_⟩
      · intro q hq
        rcases List.mem_append.mp hq with hq | hq
        · exact ready.1 q hq
        · rw [List.mem_singleton.mp hq]
          exact ⟨h, hash⟩
      · intro q hq
        rcases List.mem_append.mp hq with hq | hq
        · exact step₃.hasId (ready.2 q hq)
        · rw [List.mem_singleton.mp hq]
          exact hasId
      · rw [bindings, bindings, List.map_append, (step.trans step₂).nodeKind, ← hash.hashAt_eq]
        rfl
    · rintro w₃ ⟨step₃, excuse⟩
      exact ⟨step₂.trans step₃, excuse⟩

/-- An inode stands for a partition: its pointers are ids of the hashes below it. -/
inductive Represents (w w₁ : World S) :
    List (KeyFragment × Addr) → Inode → Partition Addr → Prop
  | empty : Represents w w₁ [] .empty .empty
  | value (entries : List (KeyFragment × Addr)) :
      Represents w w₁ entries (.value entries) (.value entries)
  | tree {entries : List (KeyFragment × Addr)} {depth : UInt32} {pointers : List (Nat × HashId)}
      {child : Fin 32 → Partition Addr} (ready : Ready w w₁ entries)
      (points : List.Forall₂ (fun p q => p.1 = q.1 ∧ Points w₁ p.2 q.2) pointers
        (Partition.pointers fun i => (child i).map (label w))) :
      Represents w w₁ entries (.tree depth entries.length pointers)
        (.tree depth entries.length child)

/-- Hashing an inode gives the hash of its partition. -/
theorem hashLongInode_spec {inode : Inode} {p : Partition Addr}
    (node : NodeSpec R w L nodeHash entries) (step : Step R w w₁)
    (represents : Represents w w₁ entries inode p) (ne : entries ≠ []) :
    Exec.wp (hashLongInode nodeHash inode)
      (fun id w₂ => Step R w₁ w₂ ∧ Ready w w₂ entries ∧
        ∃ s, (p.map (label w)).string = some s ∧ NewId w₂ id (Digest.blake2b s))
      (fun w₂ => Step R w₁ w₂ ∧ (Exhausted w₂.repo ∨ L)) w₁ := by
  cases represents with
  | empty => exact absurd rfl ne
  | value =>
      rw [hashLongInode, Exec.wp_bind]
      refine Exec.wp_mono (hashNodes_spec node step) ?_ (fun _ h => h)
      rintro bs w₂ ⟨step₂, ready, rfl⟩
      refine Exec.wp_mono (putHash_spec step₂.good step₂.region _) ?_ ?_
      · rintro id w₃ ⟨step₃, new, _⟩
        exact ⟨step₂.trans step₃, ready.step step₃, _, rfl, new⟩
      · rintro w₃ ⟨step₃, exhausted⟩
        exact ⟨step₂.trans step₃, Or.inl exhausted⟩
  | @tree _ depth pointers child ready points =>
      rw [hashLongInode, Exec.wp_bind]
      have read : ∀ {ps : List (Nat × HashId)} {qs : List (Nat × EntryHash)},
          List.Forall₂ (fun p q => p.1 = q.1 ∧ Points w₁ p.2 q.2) ps qs →
          Exec.wp (Exec.mapEach (fun p : Nat × HashId => do
              let hash ← getHashOr (S := S) (.hashIdNotFound p.2) p.2
              pure (p.1, hash)) ps) (fun hashes w₂ => w₂ = w₁ ∧ hashes = qs)
            (fun w₂ => Step R w₁ w₂ ∧ (Exhausted w₂.repo ∨ L)) w₁ := by
        intro ps qs h
        induction h with
        | nil => exact ⟨rfl, rfl⟩
        | @cons p q ps qs hpq _ ih =>
            rw [Exec.mapEach, Exec.wp_bind, Exec.wp_bind]
            refine wp_getHashOr hpq.2.2 ?_
            rw [Exec.wp_pure, Exec.wp_bind]
            refine Exec.wp_mono ih ?_ (fun _ h => h)
            rintro hashes w₂ ⟨rfl, rfl⟩
            exact ⟨rfl, by rw [hpq.1]⟩
      refine Exec.wp_mono (read points) ?_ (fun _ h => h)
      rintro hashes w₂ ⟨rfl, rfl⟩
      refine Exec.wp_mono (putHash_spec step.good step.region _) ?_ ?_
      · rintro id w₃ ⟨step₃, new, _⟩
        exact ⟨step₃, ready.step step₃, _, rfl, new⟩
      · rintro w₃ ⟨step₃, exhausted⟩
        exact ⟨step₃, Or.inl exhausted⟩

/-- The pointer of a tree to one of its parts. -/
noncomputable def pointer (w : World S) (i : Fin 32) (p : Partition Addr) :
    Option (Nat × EntryHash) :=
  (p.map (label w)).string.map fun s => (i.val, Digest.blake2b s)

/-- The pointers have the hashes they stand for. -/
def PointsAll (w : World S) : List (Nat × HashId) → List (Nat × EntryHash) → Prop :=
  List.Forall₂ fun p q => p.1 = q.1 ∧ Points w p.2 q.2

theorem PointsAll.step {ps : List (Nat × HashId)} {qs : List (Nat × EntryHash)}
    (points : PointsAll w₁ ps qs) (step : Step R w₁ w₂) : PointsAll w₂ ps qs :=
  points.imp fun _ _ h => ⟨h.1, h.2.step step⟩

theorem pushPointer_spec {sub : List (KeyFragment × Addr)} {inode : Inode} {p : Partition Addr}
    {depth : UInt32} {i : Fin 32} (node : NodeSpec R w L nodeHash sub) (step : Step R w w₁)
    (partitions : Partitions depth sub p) (represents : Represents w w₁ sub inode p) :
    Exec.wp (pushPointer nodeHash i inode)
      (fun r w₂ => Step R w₁ w₂ ∧ Ready w w₂ sub ∧ PointsAll w₂ r.toList (pointer w i p).toList)
      (fun w₂ => Step R w₁ w₂ ∧ (Exhausted w₂.repo ∨ L)) w₁ := by
  have push : ∀ {id : HashId} {s : Bytes} {w₂ : World S}, (p.map (label w)).string = some s →
      Points w₂ id (Digest.blake2b s) →
      PointsAll w₂ (some (i.val, id)).toList (pointer w i p).toList := by
    intro id s w₂ hs points
    rw [pointer, hs]
    exact .cons ⟨rfl, points⟩ .nil
  cases partitions with
  | empty =>
      cases represents with
      | empty =>
          exact ⟨Step.refl step.good step.region, Ready.nil, .nil⟩
  | value _ ne short =>
      cases represents with
      | value =>
          rw [pushPointer, Exec.wp_bind]
          · refine Exec.wp_mono (hashLongInode_spec node step (.value sub) ne) ?_ (fun _ h => h)
            rintro id w₂ ⟨step₂, ready, s, hs, new⟩
            exact ⟨step₂, ready, push hs ⟨new.live, new.hash⟩⟩
          · exact Inode.noConfusion
  | tree long _ _ _ =>
      have ne : sub ≠ [] := List.ne_nil_of_length_pos (by omega)
      cases represents with
      | tree ready' points' =>
          rw [pushPointer, Exec.wp_bind]
          · refine Exec.wp_mono (hashLongInode_spec node step (.tree ready' points') ne) ?_
              (fun _ h => h)
            rintro id w₂ ⟨step₂, ready, s, hs, new⟩
            exact ⟨step₂, ready, push hs ⟨new.live, new.hash⟩⟩
          · exact Inode.noConfusion

/-- What the loop of `partition_entries` has done: the parts so far are divided and
hashed. -/
structure LoopInv (R : Addr → Prop) (w w₁ : World S) (depth : UInt32)
    (entries : List (KeyFragment × Addr)) (done : List (Fin 32))
    (rs : List (Option (Nat × HashId))) (w₂ : World S) : Prop where
  step : Step R w₁ w₂
  parts : ∀ i ∈ done, ∃ sub, atIndex depth i entries = some sub ∧
    Partitions (depth + 1) sub (childAt depth entries i) ∧ Ready w w₂ sub
  points : PointsAll w₂ rs.reduceOption
    (done.filterMap fun i => pointer w i (childAt depth entries i))

theorem LoopInv.extend {depth : UInt32} {done : List (Fin 32)} {i : Fin 32}
    {rs : List (Option (Nat × HashId))} {r : Option (Nat × HashId)} {w₃ : World S}
    {sub : List (KeyFragment × Addr)} {p : Partition Addr}
    (h : LoopInv R w w₁ depth entries done rs w₂) (step : Step R w₂ w₃)
    (split : atIndex depth i entries = some sub) (partitions : Partitions (depth + 1) sub p)
    (ready : Ready w w₃ sub) (points : PointsAll w₃ r.toList (pointer w i p).toList) :
    LoopInv R w w₁ depth entries (done ++ [i]) (rs ++ [r]) w₃ := by
  have hchild := childAt_eq split partitions
  refine ⟨h.step.trans step, ?_, ?_⟩
  · intro j hj
    rcases List.mem_append.mp hj with hj | hj
    · obtain ⟨sub', split', partitions', ready'⟩ := h.parts j hj
      exact ⟨sub', split', partitions', ready'.step step⟩
    · rw [List.mem_singleton.mp hj, hchild]
      exact ⟨sub, split, partitions, ready⟩
  · have hr : [r].reduceOption = r.toList := by cases r <;> rfl
    have hi : [i].filterMap (fun i => pointer w i (childAt depth entries i)) =
        (pointer w i p).toList := by
      rw [hchild.symm]
      cases hp : pointer w i (childAt depth entries i) <;> simp [hp]
    rw [List.reduceOption_append, List.filterMap_append, hr, hi]
    exact List.rel_append (h.points.step step) points

/-- When the loop ends, the pointers stand for the divided entries. -/
theorem LoopInv.represents {depth : UInt32} {rs : List (Option (Nat × HashId))}
    (h : LoopInv R w w₁ depth entries (List.finRange 32) rs w₂) (long : 32 < entries.length)
    (next : depth.toNat + 1 < 2 ^ 32) :
    ∃ p, Partitions depth entries p ∧
      Represents w w₂ entries (.tree depth entries.length rs.reduceOption) p := by
  choose sub split partitions ready using fun i => h.parts i (List.mem_finRange i)
  refine ⟨_, .tree long next split partitions, .tree ⟨?_, ?_⟩ h.points⟩
  · intro p hp
    obtain ⟨i, hi⟩ := (mem_iff_exists_part split p).mp hp
    exact (ready i).1 p hi
  · intro p hp
    obtain ⟨i, hi⟩ := (mem_iff_exists_part split p).mp hp
    exact (ready i).2 p hi

/-- Partitioning divides the entries, or they cannot be divided. -/
theorem partitionEntries_spec (depth : UInt32) (node : NodeSpec R w L nodeHash entries)
    (step : Step R w w₁) :
    Exec.wp (partitionEntries nodeHash depth entries)
      (fun inode w₂ => Step R w₁ w₂ ∧
        ∃ p, Partitions depth entries p ∧ Represents w w₂ entries inode p)
      (fun w₂ => Step R w₁ w₂ ∧
        (Exhausted w₂.repo ∨ L ∨ ¬ ∃ p, Partitions depth entries p)) w₁ := by
  -- Induction on the depths that are left.
  obtain ⟨left, hleft⟩ : ∃ left, left = 2 ^ 32 - depth.toNat := ⟨_, rfl⟩
  induction left generalizing depth entries w₁ with
  | zero =>
      have := depth.toNat_lt
      omega
  | succ left ih =>
      have same := Step.refl step.good step.region
      rw [partitionEntries]
      split
      next hempty =>
        subst hempty
        exact ⟨same, _, .empty depth, .empty⟩
      next ne =>
      split
      next short => exact ⟨same, _, .value depth ne short, .value entries⟩
      next hlong =>
      have long : 32 < entries.length := by omega
      split
      next next =>
        rw [Exec.wp_bind]
        refine Exec.wp_mono (Exec.wp_mapEach (I := LoopInv R w w₁ depth entries) ?_ ?_) ?_
          (fun _ h => h)
        · exact ⟨same, fun _ hi => absurd hi List.not_mem_nil, .nil⟩
        · intro done i rs w₂ _ loop
          rw [Exec.wp_bind]
          refine Exec.wp_orAbort _ ?_ ?_
          · intro sub hsub
            have hmem : ∀ p ∈ sub, p ∈ entries := by
              obtain ⟨_, rfl⟩ := atIndex_eq_some_iff.mp hsub
              exact fun p hp => List.mem_of_mem_filter hp
            rw [Exec.wp_bind]
            refine Exec.wp_mono (ih (depth + 1) (node.sublist hmem) (step.trans loop.step)
              (by rw [toNat_succ next]; omega)) ?_ ?_
            · rintro inode w₃ ⟨step₃, p, partitions, represents⟩
              refine Exec.wp_mono (pushPointer_spec (node.sublist hmem)
                ((step.trans loop.step).trans step₃) partitions represents) ?_ ?_
              · rintro r w₄ ⟨step₄, ready, points⟩
                exact loop.extend (step₃.trans step₄) hsub partitions ready points
              · rintro w₄ ⟨step₄, excuse⟩
                exact ⟨(loop.step.trans step₃).trans step₄, excuse.imp_right Or.inl⟩
            · rintro w₃ ⟨step₃, excuse⟩
              refine ⟨loop.step.trans step₃, excuse.imp_right (Or.imp_right ?_)⟩
              rintro hnone ⟨p, hp⟩
              obtain ⟨sub', q, hsub', hq⟩ := (hp.split long).2 i
              rw [hsub] at hsub'
              cases hsub'
              exact hnone ⟨q, hq⟩
          · intro hnone
            refine ⟨loop.step, Or.inr (Or.inr ?_)⟩
            rintro ⟨p, hp⟩
            obtain ⟨sub, q, hsub, hq⟩ := (hp.split long).2 i
            rw [hnone] at hsub
            cases hsub
        · intro rs w₂ loop
          exact ⟨loop.step, loop.represents long next⟩
      next last =>
        refine ⟨same, Or.inr (Or.inr ?_)⟩
        rintro ⟨p, hp⟩
        exact last (hp.split long).1

/-- `hash_tree` gives a new id to the hash of the directory, or it has none. -/
theorem hashTree_spec {tree : Tree} (node : NodeSpec R w L nodeHash tree.entries)
    (step : Step R w w₁) :
    Exec.wp (hashTree nodeHash tree)
      (fun id w₂ => Step R w₁ w₂ ∧ HasIds w₂ tree.entries ∧
        ∃ h, TreeHashOf w tree h ∧ NewId w₂ id h)
      (fun w₂ => Step R w₁ w₂ ∧ (Exhausted w₂.repo ∨ L ∨ ¬ ∃ h, TreeHashOf w tree h)) w₁ := by
  have hlength : (bindings w tree.entries).length = tree.len := List.length_map _
  rw [hashTree]
  split
  next long =>
    have hlong : 256 < tree.entries.length := long
    have ne : tree.entries ≠ [] := List.ne_nil_of_length_pos (by omega)
    rw [Exec.wp_bind]
    refine Exec.wp_mono (partitionEntries_spec 0 node step) ?_ ?_
    · rintro inode w₂ ⟨step₂, p, partitions, represents⟩
      refine Exec.wp_mono (hashLongInode_spec node (step.trans step₂) represents ne) ?_ ?_
      · rintro id w₃ ⟨step₃, ready, s, hs, new⟩
        refine ⟨step₂.trans step₃, ready.2, _, ⟨ready.1, s, ?_, rfl⟩, new⟩
        exact .long (by rw [hlength]; exact long) (partitions.map (label w)) hs
      · rintro w₃ ⟨step₃, excuse⟩
        exact ⟨step₂.trans step₃, excuse.imp_right Or.inl⟩
    · rintro w₂ ⟨step₂, excuse⟩
      refine ⟨step₂, excuse.imp_right (Or.imp_right ?_)⟩
      rintro hnone ⟨h, _, s, string, _⟩
      cases string with
      | short length => omega
      | long _ partitions _ => exact hnone (Partitions.of_map (label w) partitions)
  next short =>
    rw [hashShortInode, Exec.wp_bind]
    refine Exec.wp_mono (hashNodes_spec node step) ?_ ?_
    · rintro bs w₂ ⟨step₂, ready, rfl⟩
      refine Exec.wp_mono (putHash_spec step₂.good step₂.region _) ?_ ?_
      · rintro id w₃ ⟨step₃, new, _⟩
        exact ⟨step₂.trans step₃, step₃.hasIds ready.2, _,
          ⟨ready.1, _, .short (by omega), rfl⟩, new⟩
      · rintro w₃ ⟨step₃, exhausted⟩
        exact ⟨step₂.trans step₃, Or.inl exhausted⟩
    · rintro w₂ ⟨step₂, excuse⟩
      exact ⟨step₂, excuse.imp_right Or.inl⟩

end Directories

/-! ## Hashing nodes -/

section Nodes

variable {R : Addr → Prop} {w : World S}

/-- An id whose hashes are those of the node. -/
def IdOf (w w' : World S) (a : Addr) (id : HashId) : Prop :=
  Live w'.repo id ∧ (w'.heap.node a).entryHash = some id ∧
    ∀ h, getHash id w'.repo = .ok (some h) ↔ HashOf w a h

theorem IdOf.hasId {w w' : World S} {a : Addr} {id : HashId} (h : IdOf w w' a id) :
    (w'.heap.node a).entryHash ≠ none := by
  rw [h.2.1]
  exact Option.some_ne_none id

/-- The id a node has is one of its hash. -/
theorem Region.idOf {a : Addr} {id : HashId} (good : Good w) (region : Region R w) (ha : R a)
    (hid : (w.heap.node a).entryHash = some id) : IdOf w w a id := by
  by_cases known : Known S id
  · refine ⟨good.live hid known, hid, fun h => ⟨.known hid known, ?_⟩⟩
    intro hash
    cases hash with
    | known hid' _ hash =>
        rw [hid] at hid'
        cases hid'
        exact hash
    | blob unknown => exact absurd known (unknown id hid)
    | tree unknown => exact absurd known (unknown id hid)
  · obtain ⟨live, h, hash, hh⟩ := region.held ha hid known
    refine ⟨live, hid, fun k => ⟨?_, ?_⟩⟩
    · intro hk
      rw [hh] at hk
      cases hk
      exact hash
    · intro hk
      rw [hk.unique hash]
      exact hh

/-- The hash of a node is read through its id. -/
theorem wp_entryHash {fuel : Nat} {a : Addr} {Q : EntryHash → World S → Prop}
    {E : World S → Prop}
    (id : Exec.wp (entryHashId fuel a) (fun id w' => IdOf w w' a id ∧
      (∀ h, HashOf w a h → Q h w') ∧ ((¬ ∃ h, HashOf w a h) → E w')) E w) :
    Exec.wp (entryHash fuel a) Q E w := by
  rw [entryHash, Exec.wp_bind]
  refine Exec.wp_mono id ?_ (fun _ h => h)
  rintro id w' ⟨⟨_, _, hash⟩, ok, none⟩
  rw [getHashOr, Exec.wp_bind, Exec.wp_mapErr]
  refine Exec.wp_query _ ?_ ?_
  · intro found hfound
    refine Exec.wp_orFail _ _ ?_ ?_
    · rintro h rfl
      exact ok h ((hash h).mp hfound)
    · rintro rfl
      refine none ?_
      rintro ⟨h, hh⟩
      rw [(hash h).mpr hh] at hfound
      cases hfound
  · intro error herror
    refine none ?_
    rintro ⟨h, hh⟩
    rw [(hash h).mpr hh] at herror
    cases herror

/-- Giving a node the id that was made for its hash. -/
theorem cache_spec {a : Addr} {id : HashId} {h : EntryHash} {w₁ : World S} {E : World S → Prop}
    (ha : R a) (vacant : (w₁.heap.node a).entryHash = none) (hash : HashOf w a h)
    (step : Step R w w₁) (new : NewId w₁ id h)
    (ids : ∀ {tree}, (w₁.heap.node a).entry = some (.tree tree) → HasIds w₁ tree.entries) :
    Exec.wp (do
        Call.updateNode a fun node => { node with entryHash := some id }
        pure id : Call S HashingError HashId)
      (fun id w' => Step R w w' ∧ IdOf w w' a id) E w₁ := by
  have cache := Step.ofCache step.good step.region ha vacant ((step.hashOf a h).mpr hash) new
    ids
  rw [Exec.wp_bind, Call.updateNode, Exec.wp_modify, Exec.wp_pure]
  refine ⟨step.trans cache, new.live, ?_, fun k => ⟨?_, ?_⟩⟩
  · rw [Heap.set_node_self]
  · intro hk
    rw [new.hash] at hk
    cases hk
    exact hash
  · intro hk
    rw [hk.unique hash]
    exact new.hash

/-- Nodes older than a node of the region. -/
theorem Region.below {a : Addr} (good : Good w) (region : Region R w) :
    Region (fun b => R b ∧ b < a) w where
  closed := fun hb unknown hentry hp => ⟨region.closed hb.1 unknown hentry hp,
    (good.older unknown hentry hp).trans hb.2⟩
  held := fun hb hid unknown => region.held hb.1 hid unknown

/-- `entry_hash_id` gives an id that has the hash of the node. -/
theorem entryHashId_spec (fuel : Nat) {a : Addr} (good : Good w) (region : Region R w) (ha : R a) :
    Exec.wp (entryHashId fuel a) (fun id w' => Step R w w' ∧ IdOf w w' a id)
      (fun w' => Step R w w' ∧ (Exhausted w'.repo ∨ fuel ≤ a ∨ ¬ ∃ h, HashOf w a h)) w := by
  induction fuel generalizing w a R with
  | zero => exact ⟨Step.refl good region, Or.inr (Or.inl (Nat.zero_le a))⟩
  | succ fuel ih =>
      rw [entryHashId, Exec.wp_bind, Call.readNode, Exec.wp_gets]
      cases hcached : (w.heap.node a).entryHash with
      | some id => exact ⟨Step.refl good region, region.idOf good ha hcached⟩
      | none =>
          have unknown : Unknown w a := Unknown.of_none hcached
          rw [Exec.wp_bind]
          refine Exec.wp_orFail _ _ ?_ ?_
          · intro entry hentry
            rw [Exec.wp_bind]
            cases entry with
            | commit commit => exact absurd hentry (good.notCommit unknown)
            | blob value =>
                refine Exec.wp_mono (putHash_spec good region _) ?_ ?_
                · rintro id w₁ ⟨step, new, heap, _⟩
                  refine cache_spec ha ?_ (.blob unknown hentry) step new ?_
                  · rw [heap]
                    exact hcached
                  · intro tree htree
                    rw [heap, hentry] at htree
                    cases htree
                · rintro w₁ ⟨step, exhausted⟩
                  exact ⟨step, Or.inl exhausted⟩
            | tree tree =>
                -- The nodes below `a` are older, so that hashing them leaves `a` alone.
                have below := region.below (a := a) good
                have childless : (∃ p ∈ tree.entries, ¬ ∃ h, HashOf w p.2 h) →
                    ¬ ∃ h, HashOf w a h := by
                  rintro ⟨p, hp, hnone⟩ ⟨h, hash⟩
                  exact hnone (((hashOf_tree_iff unknown hentry).mp hash).1 p hp)
                have node : NodeSpec (fun b => R b ∧ b < a) w
                    (fuel + 1 ≤ a ∨ ¬ ∃ h, HashOf w a h) (entryHash fuel) tree.entries := by
                  intro p hp w₁ step
                  have older := good.older unknown hentry hp
                  have hp' := region.closed ha unknown hentry hp
                  refine wp_entryHash (Exec.wp_mono (ih step.good step.region ⟨hp', older⟩) ?_ ?_)
                  · rintro id w₂ ⟨step₂, idOf⟩
                    refine ⟨idOf, ?_, ?_⟩
                    · exact fun h hash => ⟨step₂, (step.hashOf _ h).mp hash, idOf.hasId⟩
                    · intro hnone
                      refine ⟨step₂, Or.inr (Or.inr (childless ⟨p, hp, ?_⟩))⟩
                      exact fun ⟨h, hash⟩ => hnone ⟨h, (step.hashOf _ h).mpr hash⟩
                  · rintro w₂ ⟨step₂, exhausted | deep | hnone⟩
                    · exact ⟨step₂, Or.inl exhausted⟩
                    · exact ⟨step₂, Or.inr (Or.inl (Nat.lt_of_le_of_lt deep older))⟩
                    · refine ⟨step₂, Or.inr (Or.inr (childless ⟨p, hp, ?_⟩))⟩
                      exact fun ⟨h, hash⟩ => hnone ⟨h, (step.hashOf _ h).mpr hash⟩
                refine Exec.wp_mono (hashTree_spec node (Step.refl good below)) ?_ ?_
                · rintro id w₁ ⟨step, ids, h, treeHash, new⟩
                  have same := step.outside a fun hb => absurd hb.2 (lt_irrefl a)
                  refine cache_spec ha ?_ ((hashOf_tree_iff unknown hentry).mpr treeHash)
                    (step.widen (fun _ hb => hb.1) region) new ?_
                  · rw [same]
                    exact hcached
                  · intro tree' htree
                    rw [same, hentry] at htree
                    cases htree
                    exact ids
                · rintro w₁ ⟨step, excuse⟩
                  refine ⟨step.widen (fun _ hb => hb.1) region, excuse.imp_right ?_⟩
                  rintro (excuse | hnone)
                  · exact excuse
                  · refine Or.inr ?_
                    rintro ⟨h, hash⟩
                    exact hnone ⟨h, (hashOf_tree_iff unknown hentry).mp hash⟩
          · intro hentry
            refine ⟨Step.refl good region, Or.inr (Or.inr ?_)⟩
            rintro ⟨h, hash⟩
            cases hash with
            | known hid =>
                rw [hcached] at hid
                cases hid
            | blob _ hentry' =>
                rw [hentry] at hentry'
                cases hentry'
            | tree _ hentry' =>
                rw [hentry] at hentry'
                cases hentry'

/-- `entry_hash` gives the hash of the node. -/
theorem entryHash_spec (fuel : Nat) {a : Addr} (good : Good w) (region : Region R w) (ha : R a) :
    Exec.wp (entryHash fuel a)
      (fun h w' => Step R w w' ∧ HashOf w a h ∧ (w'.heap.node a).entryHash ≠ none)
      (fun w' => Step R w w' ∧ (Exhausted w'.repo ∨ fuel ≤ a ∨ ¬ ∃ h, HashOf w a h)) w := by
  refine wp_entryHash (Exec.wp_mono (entryHashId_spec fuel good region ha) ?_ (fun _ h => h))
  rintro id w' ⟨step, idOf⟩
  exact ⟨idOf, fun h hash => ⟨step, hash, idOf.hasId⟩, fun hnone => ⟨step, Or.inr (Or.inr hnone)⟩⟩

/-- Hashing the nodes of a directory. -/
theorem nodeSpec_entryHash (fuel : Nat) {entries : List (KeyFragment × Addr)}
    (mem : ∀ p ∈ entries, R p.2) :
    NodeSpec R w ((∃ p ∈ entries, fuel ≤ p.2) ∨ ¬ Hashed w entries) (entryHash fuel) entries := by
  intro p hp w₁ step
  refine Exec.wp_mono (entryHash_spec fuel step.good step.region (mem p hp)) ?_ ?_
  · rintro h w₂ ⟨step₂, hash, hasId⟩
    exact ⟨step₂, (step.hashOf _ h).mp hash, hasId⟩
  · rintro w₂ ⟨step₂, excuse⟩
    refine ⟨step₂, excuse.imp_right (Or.imp ?_ ?_)⟩
    · exact fun deep => ⟨p, hp, deep⟩
    · rintro hnone hashed
      obtain ⟨h, hash⟩ := hashed p hp
      exact hnone ⟨h, (step.hashOf _ h).mpr hash⟩

end Nodes

end NodeFuzzer
