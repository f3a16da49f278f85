import NodeFuzzer.Context.Directory
import NodeFuzzer.Context.History

/-!
# The hash of contents

The hash of a node that keeps no hash is the one of its value, or of the names, kinds and
hashes below it.  Directories of one form that have the same hash have the same values at
the same keys, as long as BLAKE2b does not collide on the strings hashed on the way
(`treeValueAt_of_hash`).  A directory has a hash if and only if it and the directories in
it can be divided (`exists_treeHashOf_iff`).
-/

namespace NodeFuzzer

open KeyValueStoreBackend StoreView

/-! ## Nodes without a store -/

section Heaps

variable [Digest]

/-- The hash of what is below a node. -/
inductive Merkle (heap : Heap) : Addr → EntryHash → Prop
  | blob {a : Addr} {value : ContextValue} (entry : (heap.node a).entry = some (.blob value)) :
      Merkle heap a (Digest.blake2b (blobString value))
  | tree {a : Addr} {tree : Tree} {hash : Addr → EntryHash} {h : EntryHash}
      (entry : (heap.node a).entry = some (.tree tree))
      (children : ∀ p ∈ tree.entries, Merkle heap p.2 (hash p.2))
      (treeHash : TreeHash (tree.entries.map fun p => (p.1, (heap.node p.2).nodeKind, hash p.2)) h) :
      Merkle heap a h

/-- The hash of a node that has one. -/
noncomputable def merkleAt (heap : Heap) (a : Addr) : EntryHash :=
  Classical.epsilon (Merkle heap a)

/-- The bindings of a directory. -/
noncomputable def merkleBindings (heap : Heap) (tree : Tree) : List Binding :=
  tree.entries.map fun p => (p.1, (heap.node p.2).nodeKind, merkleAt heap p.2)

/-- The strings hashed on the way to the hash of a directory. -/
inductive HashedBelow (heap : Heap) : Tree → Bytes → Prop
  | self {tree : Tree} {s : Bytes} (h : TreeHashed (merkleBindings heap tree) s) :
      HashedBelow heap tree s
  | value {tree : Tree} {name : KeyFragment} {a : Addr} {value : ContextValue}
      (get : tree.get name = some a) (entry : (heap.node a).entry = some (.blob value)) :
      HashedBelow heap tree (blobString value)
  | directory {tree child : Tree} {name : KeyFragment} {a : Addr} {s : Bytes}
      (get : tree.get name = some a) (entry : (heap.node a).entry = some (.tree child))
      (h : HashedBelow heap child s) : HashedBelow heap tree s

end Heaps

/-- All names in keys of values are shorter than 2^64 bytes. -/
def ShortBelow (heap : Heap) (tree : Tree) : Prop :=
  ∀ key value, treeValueAt heap tree key = some value → ∀ name ∈ key, ShortName name

/-- A directory and those in it are small, or can be divided into inodes. -/
def Divisible (heap : Heap) (root : Tree) : Prop :=
  ∀ key, (rawTree heap root key).len ≤ 256 ∨
    (∀ name ∈ (rawTree heap root key).keys, Hashable name) ∧
      Separable 0 (rawTree heap root key).keys

theorem Divisible.below {heap : Heap} {tree child : Tree} {name : KeyFragment} {a : Addr}
    (divisible : Divisible heap tree) (get : tree.get name = some a)
    (entry : (heap.node a).entry = some (.tree child)) : Divisible heap child := by
  intro key
  have here := divisible (name :: key)
  simp only [rawTree, get, entry] at here
  exact here

theorem divisible_empty (heap : Heap) : Divisible heap .empty := by
  intro key
  have here : rawTree heap .empty key = .empty := by
    cases key <;> rfl
  rw [here]
  exact Or.inl (Nat.zero_le _)

theorem ShortBelow.below {heap : Heap} {tree child : Tree} {name : KeyFragment} {a : Addr}
    (short : ShortBelow heap tree) (get : tree.get name = some a)
    (entry : (heap.node a).entry = some (.tree child)) : ShortBelow heap child := by
  intro key value h
  have here : treeValueAt heap tree (name :: key) = some value := by
    rw [treeValueAt, get]
    cases key with
    | nil => cases h
    | cons first key =>
        show valueAt heap a (first :: key) = _
        rw [valueAt, entry]
        exact h
  exact fun other mem => short (name :: key) value here other (List.mem_cons_of_mem _ mem)

/-- In trees of one form a value is below every name. -/
theorem ShortBelow.names {heap : Heap} {tree : Tree} (short : ShortBelow heap tree)
    (canonical : Canonical heap) (within : Within heap tree) :
    ∀ name ∈ tree.keys, ShortName name := by
  intro name mem
  obtain ⟨p, hp, rfl⟩ := List.mem_map.mp mem
  obtain ⟨key, value, h⟩ := canonical.exists_valueAt (within p hp)
  have here : treeValueAt heap tree (p.1 :: key) = some value := by
    rw [treeValueAt, OrdMap.mem_entries.mp hp]
    exact h
  exact short _ value here p.1 List.mem_cons_self

/-- Values have strings of their own. -/
theorem blobString_inj {v v' : ContextValue} (h : blobString v = blobString v') : v = v' := by
  have lengths : (toBe 8 v.length).length = (toBe 8 v'.length).length := by simp
  exact (List.append_inj h lengths).2

/-! ## Nodes of a process -/

section Worlds

variable {S : Type} [KeyValueStoreBackend S] [LawfulStore S] [Digest] {w : World S}

/-- Nodes without known ids have the hashes of what is below them. -/
theorem hashOf_iff_merkle (unknown : ∀ a, Unknown w a) {a : Addr} {h : EntryHash} :
    HashOf w a h ↔ Merkle w.heap a h := by
  constructor
  · intro hash
    induction hash with
    | known cached known => exact absurd known (unknown _ _ cached)
    | blob _ entry => exact .blob entry
    | tree _ entry _ treeHash ih => exact .tree entry ih treeHash
  · intro hash
    induction hash with
    | blob entry => exact .blob (unknown _) entry
    | tree entry _ treeHash ih => exact .tree (unknown _) entry ih treeHash

theorem bindings_eq_merkle (unknown : ∀ a, Unknown w a) (tree : Tree) :
    bindings w tree.entries = merkleBindings w.heap tree := by
  have same : HashOf w = Merkle w.heap :=
    funext fun a => funext fun h => propext (hashOf_iff_merkle unknown)
  rw [bindings, merkleBindings]
  refine List.map_congr_left ?_
  intro p _
  rw [label, hashAt, merkleAt, same]

/-- What a name of a directory stands for, seen from another directory with the same hash. -/
theorem TreeHashOf.partner {t t' : Tree} {h : EntryHash} {name : KeyFragment} {a : Addr}
    (hash : TreeHashOf w t h)
    (binds : ∀ name kind k, Binds w t name kind k ↔ Binds w t' name kind k)
    (get : t.get name = some a) :
    ∃ b k, t'.get name = some b ∧ (w.heap.node b).nodeKind = (w.heap.node a).nodeKind ∧
      HashOf w a k ∧ HashOf w b k := by
  obtain ⟨k, here⟩ := hash.1 (name, a) (OrdMap.mem_entries.mpr get)
  obtain ⟨b, get', kind, there⟩ := (binds name _ k).mp ⟨a, get, rfl, here⟩
  exact ⟨b, k, get', kind, here, there⟩

/-- Directories with the same hash have the same values. -/
theorem treeValueAt_of_hash (canonical : Canonical w.heap) (unknown : ∀ a, Unknown w a)
    {t t' : Tree} {h : EntryHash}
    (inj : Set.InjOn Digest.blake2b {s | HashedBelow w.heap t s ∨ HashedBelow w.heap t' s})
    (within : Within w.heap t) (within' : Within w.heap t') (short : ShortBelow w.heap t)
    (short' : ShortBelow w.heap t') (hash : TreeHashOf w t h) (hash' : TreeHashOf w t' h)
    (key : ContextKey) : treeValueAt w.heap t key = treeValueAt w.heap t' key := by
  -- Induction on a bound of the addresses in the first directory.
  obtain ⟨n, bound⟩ : ∃ n, ∀ p ∈ t.entries, p.2 < n := ⟨w.heap.next, within⟩
  induction n using Nat.strong_induction_on generalizing t t' h key with
  | _ n ih =>
      have strings : Set.InjOn Digest.blake2b (hashedStrings w t ∪ hashedStrings w t') := by
        refine inj.mono ?_
        intro s hs
        rw [Set.mem_union, hashedStrings, hashedStrings, bindings_eq_merkle unknown,
          bindings_eq_merkle unknown] at hs
        exact hs.imp .self .self
      have binds := hash.binds_iff hash' strings (short.names canonical within)
        (short'.names canonical within')
      cases key with
      | nil => rfl
      | cons name key =>
          rw [treeValueAt, treeValueAt]
          cases ha : t.get name with
          | none =>
              cases hb : t'.get name with
              | none => rfl
              | some b =>
                  obtain ⟨a, _, get, _⟩ :=
                    hash'.partner (fun name kind k => (binds name kind k).symm) hb
                  rw [ha] at get
                  cases get
          | some a =>
              obtain ⟨b, k, hb, kind, hashA, hashB⟩ := hash.partner binds ha
              rw [hb, Option.bind_some, Option.bind_some]
              have lt := within.get ha
              cases canonical.nodes a lt with
              | @leaf v kindA entryA =>
                  cases canonical.nodes b (within'.get hb) with
                  | @leaf v' _ entryB =>
                      have heq := (hashA.unique (.blob (unknown a) entryA)).symm.trans
                        (hashB.unique (.blob (unknown b) entryB))
                      have value : v = v' := blobString_inj
                        (inj (Or.inl (.value ha entryA)) (Or.inr (.value hb entryB)) heq)
                      cases key <;> simp only [valueAt, entryA, entryB, value]
                  | directory kindB =>
                      rw [kindA, kindB] at kind
                      cases kind
              | @directory child kindA entryA _ older =>
                  cases canonical.nodes b (within'.get hb) with
                  | leaf kindB =>
                      rw [kindA, kindB] at kind
                      cases kind
                  | @directory child' _ entryB =>
                      have below := ih a (bound _ (OrdMap.mem_entries.mpr ha)) ?_
                        (canonical.within entryA) (canonical.within entryB)
                        (short.below ha entryA) (short'.below hb entryB)
                        ((hashOf_tree_iff (unknown a) entryA).mp hashA)
                        ((hashOf_tree_iff (unknown b) entryB).mp hashB) key older
                      · cases key with
                        | nil => simp only [valueAt, entryA, entryB]
                        | cons first key =>
                            rw [valueAt, valueAt, entryA, entryB]
                            exact below
                      · exact inj.mono fun s hs => hs.imp (.directory ha entryA) (.directory hb entryB)

omit [LawfulStore S] in
/-- A list of bindings has a hash when it is short or can be divided. -/
theorem exists_treeHash_iff {l : List Binding} (nodup : (l.map Prod.fst).Nodup) :
    (∃ h, TreeHash l h) ↔
      l.length ≤ 256 ∨ (∀ p ∈ l, Hashable p.1) ∧ Separable 0 (l.map Prod.fst) := by
  constructor
  · intro hash
    obtain ⟨_, s, string, _⟩ := hash
    cases string with
    | short length => exact Or.inl length
    | long length partitions =>
        have divided := (exists_partitions_iff nodup).mp ⟨_, partitions⟩
        exact Or.inr (divided.resolve_left (by omega))
  · intro divided
    by_cases length : l.length ≤ 256
    · exact ⟨_, _, .short length, rfl⟩
    · obtain ⟨p, partitions⟩ :=
        (exists_partitions_iff nodup).mpr (Or.inr (divided.resolve_left length))
      have ne : l ≠ [] := List.ne_nil_of_length_pos (by omega)
      obtain ⟨s, string⟩ := Option.isSome_iff_exists.mp (partitions.string_isSome.mpr ne)
      exact ⟨_, s, .long (by omega) partitions string, rfl⟩

/-- A directory has a hash when it and the directories in it can be divided. -/
theorem exists_treeHashOf_iff (canonical : Canonical w.heap) (unknown : ∀ a, Unknown w a)
    {tree : Tree} (within : Within w.heap tree) :
    (∃ h, TreeHashOf w tree h) ↔ Divisible w.heap tree := by
  obtain ⟨n, bound⟩ : ∃ n, ∀ p ∈ tree.entries, p.2 < n := ⟨w.heap.next, within⟩
  induction n using Nat.strong_induction_on generalizing tree with
  | _ n ih =>
      have names : (bindings w tree.entries).map Prod.fst = tree.keys := by
        rw [bindings, List.map_map]
        rfl
      have length : (bindings w tree.entries).length = tree.len := List.length_map _
      have hashables : (∀ p ∈ bindings w tree.entries, Hashable p.1) ↔
          ∀ name ∈ tree.keys, Hashable name := by
        rw [← names, List.forall_mem_map]
      have here := exists_treeHash_iff (l := bindings w tree.entries)
        (by rw [names]; exact tree.keys_nodup)
      rw [names, length, hashables] at here
      constructor
      · intro hash key
        obtain ⟨h, hashed, treeHash⟩ := hash
        cases key with
        | nil => exact here.mp ⟨h, treeHash⟩
        | cons name key =>
            rw [rawTree]
            cases ha : tree.get name with
            | none => exact Or.inl (Nat.zero_le _)
            | some a =>
                have mem := OrdMap.mem_entries.mpr ha
                obtain ⟨k, hk⟩ := hashed (name, a) mem
                cases canonical.nodes a (within.get ha) with
                | leaf _ entry =>
                    simp only [entry]
                    exact Or.inl (Nat.zero_le _)
                | directory _ entry _ older =>
                    simp only [entry]
                    have below := (hashOf_tree_iff (unknown a) entry).mp hk
                    exact (ih a (bound _ mem) (canonical.within entry) older).mp ⟨k, below⟩ key
      · intro divisible
        obtain ⟨h, treeHash⟩ := here.mpr (divisible [])
        refine ⟨h, ?_, treeHash⟩
        intro p hp
        have get := OrdMap.mem_entries.mp hp
        cases canonical.nodes p.2 (within p hp) with
        | leaf _ entry => exact ⟨_, .blob (unknown p.2) entry⟩
        | directory _ entry _ older =>
            obtain ⟨k, below⟩ := (ih p.2 (bound p hp) (canonical.within entry) older).mpr
              (divisible.below get entry)
            exact ⟨k, (hashOf_tree_iff (unknown p.2) entry).mpr below⟩

end Worlds

end NodeFuzzer
