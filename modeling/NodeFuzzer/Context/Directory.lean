import Mathlib.Data.Finset.Sort
import Mathlib.Data.Fintype.BigOperators
import NodeFuzzer.Context.InMemory

/-!
# Directories of any size

Two properties of `hash_tree` over a store.  The hash of a directory binds the names,
kinds and hashes of its nodes (`hashTree_binding`).  Dividing a large directory into
inodes ends with a result exactly when no 33 of its names agree at all depths
(`partitionEntries_returns_iff`).  There are names that do: those of
`collidingTree` make it panic.
-/

namespace NodeFuzzer

open KeyValueStoreBackend StoreView

section Binding

variable {S : Type} [KeyValueStoreBackend S] [LawfulStore S] [Digest]

/-! ## Binding -/

/-- A name stands for a node with the kind and the hash. -/
def Binds (w : World S) (tree : Tree) (name : KeyFragment) (kind : NodeKind) (h : EntryHash) :
    Prop :=
  ∃ a, tree.get name = some a ∧ (w.heap.node a).nodeKind = kind ∧ HashOf w a h

/-- The byte strings hashed for a directory. -/
def hashedStrings (w : World S) (tree : Tree) : Set Bytes :=
  {s | TreeHashed (bindings w tree.entries) s}

theorem mem_bindings_iff {w : World S} {tree : Tree} (hashed : Hashed w tree.entries)
    {name : KeyFragment} {kind : NodeKind} {h : EntryHash} :
    (name, kind, h) ∈ bindings w tree.entries ↔ Binds w tree name kind h := by
  constructor
  · intro hmem
    obtain ⟨p, hp, heq⟩ := List.mem_map.mp hmem
    obtain ⟨k, hk⟩ := hashed p hp
    rw [label, hk.hashAt_eq] at heq
    cases heq
    exact ⟨p.2, OrdMap.mem_entries.mp hp, rfl, hk⟩
  · rintro ⟨a, hget, rfl, hash⟩
    refine List.mem_map.mpr ⟨(name, a), OrdMap.mem_entries.mpr hget, ?_⟩
    rw [label, hash.hashAt_eq]

theorem shortName_bindings {w : World S} {tree : Tree}
    (names : ∀ name ∈ tree.keys, ShortName name) : ∀ b ∈ bindings w tree.entries, ShortName b.1 := by
  intro b hb
  obtain ⟨p, hp, rfl⟩ := List.mem_map.mp hb
  exact names p.1 (List.mem_map.mpr ⟨p, hp, rfl⟩)

/-- Directories with one hash have the same bindings. -/
theorem TreeHashOf.binds_iff {w w' : World S} {t t' : Tree} {h : EntryHash}
    (hash : TreeHashOf w t h) (hash' : TreeHashOf w' t' h)
    (inj : Set.InjOn Digest.blake2b (hashedStrings w t ∪ hashedStrings w' t'))
    (names : ∀ name ∈ t.keys, ShortName name) (names' : ∀ name ∈ t'.keys, ShortName name)
    (name : KeyFragment) (kind : NodeKind) (k : EntryHash) :
    Binds w t name kind k ↔ Binds w' t' name kind k := by
  rw [← mem_bindings_iff hash.1, ← mem_bindings_iff hash'.1]
  exact hash.2.binding hash'.2 inj (shortName_bindings names) (shortName_bindings names') _

/-- What a returned call of `hash_tree` says. -/
theorem treeHashOf_of_hashTree {R : Addr → Prop} {w w' : World S} {tree : Tree} {fuel : Nat}
    {id : HashId} {h : EntryHash} (good : Good w) (region : Region R w)
    (nodes : ∀ p ∈ tree.entries, R p.2)
    (run : hashTree (entryHash fuel) tree w = (.ok id, w'))
    (hash : getHash id w'.repo = .ok (some h)) : TreeHashOf w tree h := by
  have spec := hashTree_spec (nodeSpec_entryHash fuel nodes) (Step.refl good region)
  obtain ⟨_, _, k, treeHash, new⟩ := Exec.wp_ok spec run
  rw [new.hash] at hash
  cases hash
  exact treeHash

/-- The partition of a large directory on which `hash_tree` returned. -/
theorem partition_of_hashTree {R : Addr → Prop} {w w' : World S} {tree : Tree} {fuel : Nat}
    {id : HashId} (good : Good w) (region : Region R w) (nodes : ∀ p ∈ tree.entries, R p.2)
    (run : hashTree (entryHash fuel) tree w = (.ok id, w')) (long : 256 < tree.len) :
    ∃ inode w₁ p, partitionEntries (entryHash fuel) 0 tree.entries w = (.ok inode, w₁) ∧
      Partitions 0 tree.entries p ∧ Represents w w₁ tree.entries inode p := by
  have spec := partitionEntries_spec 0 (nodeSpec_entryHash fuel nodes) (Step.refl good region)
  rw [hashTree, if_pos long] at run
  cases hpart : partitionEntries (entryHash fuel) 0 tree.entries w with
  | mk outcome w₁ =>
      have hbind : (partitionEntries (entryHash fuel) 0 tree.entries >>=
          hashLongInode (entryHash fuel)) w = Exec.bind _ _ w := rfl
      rw [hbind, Exec.bind, hpart] at run
      cases outcome with
      | err e => cases run
      | panic => cases run
      | ok inode =>
          obtain ⟨_, p, partitions, represents⟩ := Exec.wp_ok spec hpart
          exact ⟨inode, w₁, p, rfl, partitions, represents⟩

/-- Directories that `hash_tree` gives the same hash have the same bindings, as long as
BLAKE2b does not collide on the strings hashed for them.  In the partition of a large
one, every binding lies in exactly one value. -/
theorem hashTree_binding {R₁ R₂ : Addr → Prop} {w₁ w₂ w₁' w₂' : World S} {t₁ t₂ : Tree}
    {fuel₁ fuel₂ : Nat} {id₁ id₂ : HashId} {h : EntryHash} (good₁ : Good w₁) (good₂ : Good w₂)
    (region₁ : Region R₁ w₁) (region₂ : Region R₂ w₂)
    (nodes₁ : ∀ p ∈ t₁.entries, R₁ p.2) (nodes₂ : ∀ p ∈ t₂.entries, R₂ p.2)
    (run₁ : hashTree (entryHash fuel₁) t₁ w₁ = (.ok id₁, w₁'))
    (run₂ : hashTree (entryHash fuel₂) t₂ w₂ = (.ok id₂, w₂'))
    (hash₁ : getHash id₁ w₁'.repo = .ok (some h)) (hash₂ : getHash id₂ w₂'.repo = .ok (some h))
    (inj : Set.InjOn Digest.blake2b (hashedStrings w₁ t₁ ∪ hashedStrings w₂ t₂))
    (names₁ : ∀ name ∈ t₁.keys, ShortName name) (names₂ : ∀ name ∈ t₂.keys, ShortName name) :
    (∀ name kind k, Binds w₁ t₁ name kind k ↔ Binds w₂ t₂ name kind k) ∧
      (256 < t₁.len → ∃ inode w p,
        partitionEntries (entryHash fuel₁) 0 t₁.entries w₁ = (.ok inode, w) ∧
        Represents w₁ w t₁.entries inode p ∧
        ∀ e ∈ t₁.entries, ∃! k : Fin p.leaves.length, e ∈ p.leaves.get k) := by
  constructor
  · have treeHash₁ := treeHashOf_of_hashTree good₁ region₁ nodes₁ run₁ hash₁
    have treeHash₂ := treeHashOf_of_hashTree good₂ region₂ nodes₂ run₂ hash₂
    exact treeHash₁.binds_iff treeHash₂ inj names₁ names₂
  · intro long
    obtain ⟨inode, w, p, hrun, partitions, represents⟩ :=
      partition_of_hashTree good₁ region₁ nodes₁ run₁ long
    refine ⟨inode, w, p, hrun, represents, ?_⟩
    exact fun e he => partitions.existsUnique_leaf t₁.keys_nodup he

end Binding

section Sample

local instance : Digest := sampleDigest

/-- Some nodes in memory, all with one value. -/
def sameValues (n : Nat) : World System where
  heap := ⟨n, fun a => if a < n then ⟨.leaf, false, none, some (.blob [1])⟩ else default⟩
  repo := .new false []

theorem sameValues_get {n : Nat} {a : Addr} (h : a < n) : (sameValues n).heap.node a =
    ⟨.leaf, false, none, some (.blob [1])⟩ := if_pos h

theorem sameValues_node (n : Nat) (a : Addr) : ((sameValues n).heap.node a).entryHash = none ∧
    ∀ entry, ((sameValues n).heap.node a).entry = some entry → entry = .blob [1] := by
  by_cases h : a < n
  · rw [sameValues_get h]
    exact ⟨rfl, fun entry h => (Option.some.inj h).symm⟩
  · have node : (sameValues n).heap.node a = default := if_neg h
    rw [node]
    exact ⟨rfl, fun entry h => by cases h⟩

theorem good_sameValues (n : Nat) : Good (sameValues n) where
  inv := System.inv_new false []
  live := by
    intro a id h
    rw [(sameValues_node n a).1] at h
    cases h
  older := by
    intro a tree p _ hentry
    cases (sameValues_node n a).2 _ hentry
  notCommit := by
    intro a commit _ hentry
    cases (sameValues_node n a).2 _ hentry

theorem region_sameValues (n : Nat) : Region (fun _ => True) (sameValues n) where
  closed := fun _ _ _ _ => trivial
  held := by
    intro a id _ h
    rw [(sameValues_node n a).1] at h
    cases h

/-- What is hashed of each node. -/
def oneHash : EntryHash := Digest.blake2b (blobString [1])

theorem hashOf_sameValues {n : Nat} {a : Addr} (h : a < n) : HashOf (sameValues n) a oneHash := by
  refine .blob (Unknown.of_none (sameValues_node n a).1) ?_
  rw [sameValues_get h]

/-- A name of two letters. -/
def twoLetters (i : Nat) : KeyFragment :=
  String.ofList [Char.ofNat (97 + i / 20), Char.ofNat (97 + i % 20)]

/-- One name more than are hashed as a list. -/
def manyNames : List KeyFragment := (List.range 257).map twoLetters

theorem manyNames_sorted : manyNames.Pairwise (· < ·) := by
  rw [← List.isChain_iff_pairwise]
  decide +kernel

/-- A directory with these names. -/
def manyEntries (addr : Nat → Addr) : Tree where
  entries := (List.range 257).map fun i => (twoLetters i, addr i)
  sorted := by
    have sorted := manyNames_sorted
    rw [manyNames, List.pairwise_map] at sorted
    rwa [List.pairwise_map]

theorem manyEntries_keys (addr : Nat → Addr) : (manyEntries addr).keys = manyNames := by
  rw [OrdMap.keys, manyEntries, List.map_map]
  rfl

theorem manyEntries_mem {addr : Nat → Addr} {n : Nat} (below : ∀ i, addr i < n)
    {p : KeyFragment × Addr} (h : p ∈ (manyEntries addr).entries) : p.2 < n := by
  obtain ⟨i, _, rfl⟩ := List.mem_map.mp h
  exact below i

/-- The bindings, whichever nodes the names stand for. -/
def manyBindings : List Binding := manyNames.map fun name => (name, .leaf, oneHash)

theorem manyBindings_length : manyBindings.length = 257 := by
  simp [manyBindings, manyNames]

theorem bindings_manyEntries {addr : Nat → Addr} {n : Nat} (below : ∀ i, addr i < n) :
    bindings (sameValues n) (manyEntries addr).entries = manyBindings := by
  rw [bindings, manyEntries, manyBindings, manyNames, List.map_map, List.map_map]
  refine List.map_congr_left fun i _ => ?_
  show (twoLetters i, label (sameValues n) (addr i)) = (twoLetters i, .leaf, oneHash)
  rw [label, (hashOf_sameValues (below i)).hashAt_eq, sameValues_get (below i)]

/-- The bindings in one part of the directory. -/
def manyPart (i : Fin 32) : List Binding := manyBindings.filter fun b => hasIndex 0 i b.1

theorem manyPart_value (i : Fin 32) : manyPart i ≠ [] ∧ (manyPart i).length ≤ 32 := by
  revert i
  decide +kernel

theorem manyNames_hashable : ∀ name ∈ manyNames, Hashable name := by decide +kernel

/-- Names that agree are in one part. -/
theorem manyNames_separable : Separable 0 manyNames := by
  intro group mem agree
  rcases group.eq_empty_or_nonempty with rfl | ⟨a, ha⟩
  · exact Nat.zero_le _
  · obtain ⟨j, hj⟩ := Option.isSome_iff_exists.mp
      ((index_isSome 0 a).mpr (manyNames_hashable a (mem a ha)))
    have sub : group ⊆ ((manyPart ⟨j.toNat, index_lt hj⟩).map Prod.fst).toFinset := by
      intro b hb
      have same : index 0 b = some j :=
        (agree b hb a ha 0 (le_refl _) (by decide)).trans hj
      refine List.mem_toFinset.mpr (List.mem_map.mpr ⟨(b, .leaf, oneHash), ?_, rfl⟩)
      exact List.mem_filter.mpr
        ⟨List.mem_map.mpr ⟨b, mem b hb, rfl⟩, hasIndex_iff.mpr ⟨j, same, rfl⟩⟩
    refine (Finset.card_le_card sub).trans ((List.toFinset_card_le _).trans ?_)
    rw [List.length_map]
    exact (manyPart_value _).2

/-- The directory is divided once. -/
theorem partitions_many : Partitions 0 manyBindings
    (.tree 0 manyBindings.length fun i => .value (manyPart i)) := by
  have long : 32 < manyBindings.length := by
    rw [manyBindings_length]
    decide
  have split : ∀ i : Fin 32, atIndex 0 i manyBindings = some (manyPart i) := by
    intro i
    refine atIndex_eq fun p hp => ?_
    obtain ⟨name, hname, rfl⟩ := List.mem_map.mp hp
    exact manyNames_hashable name hname
  exact .tree long (by decide) split fun i =>
    .value _ (manyPart_value i).1 (manyPart_value i).2

/-- The strings hashed for the directory. -/
def manyStrings : List Bytes :=
  treeString 0 manyBindings.length (Partition.pointers fun i => .value (manyPart i)) ::
    (List.finRange 32).map fun i => valueString (manyPart i)

theorem mem_manyStrings {s : Bytes} (h : TreeHashed manyBindings s) : s ∈ manyStrings := by
  have long : 256 < manyBindings.length := by
    rw [manyBindings_length]
    decide
  have self : ∀ {p s}, Partitions 0 manyBindings p → p.string = some s → s ∈ manyStrings := by
    intro p s partitions string
    cases partitions.unique partitions_many
    rw [← Option.some.inj string]
    exact List.mem_cons_self
  cases h with
  | self string =>
      cases string with
      | short short => omega
      | long _ partitions string => exact self partitions string
  | below _ partitions hashed =>
      cases hashed with
      | self string => exact self partitions string
      | child i below =>
          cases partitions.unique partitions_many
          cases below with
          | self string =>
              cases string
              exact List.mem_cons_of_mem _ (List.mem_map.mpr ⟨i, List.mem_finRange i, rfl⟩)

/-- No two of them collide. -/
theorem manyStrings_inj : Set.InjOn Digest.blake2b {s | s ∈ manyStrings} := by
  have nodup : (manyStrings.map fun s =>
      s.foldl (fun n b => (n * 257 + b.toNat + 1) % 2 ^ 256) 0).Nodup := by
    decide +kernel
  have small : ∀ s : Bytes,
      s.foldl (fun n b => (n * 257 + b.toNat + 1) % 2 ^ 256) 0 < 256 ^ 32 := by
    intro s
    induction s using List.reverseRecOn with
    | nil => exact Nat.pos_of_ne_zero (by decide)
    | append_singleton s b _ =>
        rw [List.foldl_append]
        exact Nat.mod_lt _ (by decide)
  intro s hs s' hs' heq
  refine List.inj_on_of_nodup_map nodup hs hs' ?_
  exact toBe_inj (small s) (small s') (congrArg EntryHash.bytes heq)

/-- A large directory over one node, and one over two nodes with the same value. -/
theorem hashTree_binding_many :
    (∀ name kind k, Binds (sameValues 1) (manyEntries fun _ => 0) name kind k ↔
      Binds (sameValues 2) (manyEntries fun i => i % 2) name kind k) ∧
    ∃ inode w p, partitionEntries (entryHash 1) 0 (manyEntries fun _ => 0).entries (sameValues 1) =
        (.ok inode, w) ∧
      Represents (sameValues 1) w (manyEntries fun _ => 0).entries inode p ∧
      ∀ e ∈ (manyEntries fun _ => 0).entries, ∃! k : Fin p.leaves.length, e ∈ p.leaves.get k := by
  have returned : ∀ (n : Nat) (addr : Nat → Addr), (∀ i, addr i < n) →
      (hashTree (entryHash 1) (manyEntries addr) (sameValues n)).1.isOk = true →
      ∃ id w' h, hashTree (entryHash 1) (manyEntries addr) (sameValues n) = (.ok id, w') ∧
        getHash id w'.repo = .ok (some h) ∧ TreeHash manyBindings h := by
    intro n addr below ok
    obtain ⟨id, hid⟩ := Outcome.exists_of_isOk ok
    have run : hashTree (entryHash 1) (manyEntries addr) (sameValues n) =
        (.ok id, (hashTree (entryHash 1) (manyEntries addr) (sameValues n)).2) := Prod.ext hid rfl
    have spec := @hashTree_spec _ _ _ _ _ _ _ _ _ (manyEntries addr)
      (nodeSpec_entryHash 1 fun p _ => trivial)
      (Step.refl (good_sameValues n) (region_sameValues n))
    obtain ⟨_, _, h, treeHash, new⟩ := Exec.wp_ok spec run
    rw [← bindings_manyEntries below]
    exact ⟨id, _, h, run, new.hash, treeHash.2⟩
  obtain ⟨id₁, w₁', h, run₁, hash₁, treeHash₁⟩ :=
    returned 1 (fun _ => 0) (fun _ => Nat.one_pos) (by decide +kernel)
  obtain ⟨id₂, w₂', h₂, run₂, hash₂, treeHash₂⟩ :=
    returned 2 (fun i => i % 2) (fun i => Nat.mod_lt i Nat.two_pos) (by decide +kernel)
  rw [treeHash₂.unique treeHash₁] at hash₂
  have short : ∀ addr, ∀ name ∈ (manyEntries addr).keys, ShortName name := by
    intro addr name hname
    rw [manyEntries_keys] at hname
    have all : ∀ name ∈ manyNames, ShortName name := by
      unfold ShortName
      decide +kernel
    exact all name hname
  have strings : ∀ (n : Nat) (addr : Nat → Addr), (∀ i, addr i < n) →
      hashedStrings (sameValues n) (manyEntries addr) ⊆ {s | s ∈ manyStrings} := by
    intro n addr below s hs
    rw [hashedStrings, bindings_manyEntries below] at hs
    exact mem_manyStrings hs
  have both := hashTree_binding (good_sameValues 1) (good_sameValues 2) (region_sameValues 1)
    (region_sameValues 2) (fun _ _ => trivial) (fun _ _ => trivial) run₁ run₂ hash₁ hash₂
    (manyStrings_inj.mono (Set.union_subset
      (strings 1 (fun _ => 0) fun _ => Nat.one_pos)
      (strings 2 (fun i => i % 2) fun i => Nat.mod_lt i Nat.two_pos))) (short _) (short _)
  refine ⟨both.1, both.2 ?_⟩
  show 256 < (manyEntries fun _ => 0).entries.length
  rw [manyEntries, List.length_map, List.length_range]
  decide

end Sample

/-! ## Division into inodes -/

section Division

variable {S : Type} [KeyValueStoreBackend S] [Digest]

/-- Dividing a directory returns exactly when it is small, or when its names can be
hashed and no 33 of them agree at all depths. -/
theorem partitionEntries_returns_iff [LawfulStore S] {R : Addr → Prop} {w : World S} {tree : Tree} {fuel : Nat}
    (good : Good w) (region : Region R w)
    (nodes : ∀ p ∈ tree.entries, R p.2 ∧ p.2 < fuel) (hashed : Hashed w tree.entries)
    (room : ¬ Exhausted (partitionEntries (entryHash fuel) 0 tree.entries w).2.repo) :
    (∃ inode w', partitionEntries (entryHash fuel) 0 tree.entries w = (.ok inode, w')) ↔
      tree.len ≤ 32 ∨ (∀ name ∈ tree.keys, Hashable name) ∧ Separable 0 tree.keys := by
  have spec := partitionEntries_spec 0 (nodeSpec_entryHash fuel fun p hp => (nodes p hp).1)
    (Step.refl good region)
  have hashable : (∀ name ∈ tree.keys, Hashable name) ↔ ∀ p ∈ tree.entries, Hashable p.1 := by
    simp only [OrdMap.keys, List.forall_mem_map]
  rw [hashable]
  refine Iff.trans ?_ (exists_partitions_iff tree.keys_nodup)
  constructor
  · rintro ⟨inode, w', run⟩
    obtain ⟨_, p, partitions, _⟩ := Exec.wp_ok spec run
    exact ⟨p, partitions⟩
  · intro partitions
    have excuse : ∀ w', Step R w w' ∧ (Exhausted w'.repo ∨
        ((∃ p ∈ tree.entries, fuel ≤ p.2) ∨ ¬ Hashed w tree.entries) ∨
          ¬ ∃ p, Partitions 0 tree.entries p) → Exhausted w'.repo := by
      rintro w' ⟨_, full | (⟨p, hp, deep⟩ | hnone) | hnone⟩
      · exact full
      · exact absurd (nodes p hp).2 (Nat.not_lt.mpr deep)
      · exact absurd hashed hnone
      · exact absurd partitions hnone
    have := Exec.wp_mono spec (fun _ _ h => h) excuse
    unfold Exec.wp at this
    rcases hrun : partitionEntries (entryHash fuel) 0 tree.entries w with ⟨inode | e | _, w'⟩
    · exact ⟨inode, w', rfl⟩
    · rw [hrun] at this room
      exact absurd this room
    · rw [hrun] at this room
      exact absurd this room

/-- More than 32 entries whose names agree at all depths make the division panic. -/
theorem partitionEntries_panic (nodeHash : Addr → Call S HashingError EntryHash) (w : World S)
    {depth : UInt32} {entries : List (KeyFragment × Addr)} (long : 32 < entries.length)
    (hashable : ∀ p ∈ entries, Hashable p.1)
    (agree : ∀ p ∈ entries, ∀ q ∈ entries, Agree depth p.1 q.1) :
    partitionEntries nodeHash depth entries w = (.panic, w) := by
  -- Induction on the depths that are left: at each, one part has all the entries.
  obtain ⟨left, hleft⟩ : ∃ left, left = 2 ^ 32 - depth.toNat := ⟨_, rfl⟩
  induction left generalizing depth with
  | zero =>
      have := depth.toNat_lt
      omega
  | succ left ih =>
      have ne : entries ≠ [] := List.ne_nil_of_length_pos (by omega)
      rw [partitionEntries, if_neg ne, if_neg (by omega)]
      split
      next next =>
        obtain ⟨p, hp⟩ := List.exists_mem_of_ne_nil entries ne
        obtain ⟨j, hj⟩ := Option.isSome_iff_exists.mp
          ((index_isSome depth p.1).mpr (hashable p hp))
        have hall : ∀ q ∈ entries, index depth q.1 = some j := fun q hq =>
          (agree q hq p hp depth (le_refl _) next).trans hj
        have hpart : ∀ i : Fin 32, atIndex depth i entries =
            some (if j.toNat = i.val then entries else []) := by
          intro i
          rw [atIndex_eq hashable]
          split
          next hi =>
            rw [List.filter_eq_self.mpr]
            exact fun q hq => hasIndex_iff.mpr ⟨j, hall q hq, hi⟩
          next hi =>
            rw [List.filter_eq_nil_iff.mpr]
            intro q hq hhas
            obtain ⟨k, hk, heq⟩ := hasIndex_iff.mp hhas
            rw [hall q hq] at hk
            cases hk
            exact hi heq
        have hrec := ih (fun q hq r hr => (agree q hq r hr).succ next)
          (by rw [toNat_succ next]; omega)
        have body : ∀ i : Fin 32, (do
              let part ← Exec.orAbort (atIndex depth i entries)
              let ti ← partitionEntries nodeHash (depth + 1) part
              pushPointer nodeHash i ti : Call S HashingError (Option (Nat × HashId))) w =
            if j.toNat = i.val then (.panic, w) else (.ok none, w) := by
          intro i
          rw [hpart]
          by_cases hi : j.toNat = i.val
          · rw [if_pos hi, if_pos hi]
            show Exec.bind (partitionEntries nodeHash (depth + 1) entries) _ w = _
            rw [Exec.bind, hrec]
          · rw [if_neg hi, if_neg hi]
            show Exec.bind (partitionEntries nodeHash (depth + 1) []) _ w = _
            rw [partitionEntries, if_pos rfl]
            rfl
        have loop := Exec.mapEach_panic (b := none) (List.mem_finRange ⟨j.toNat, index_lt hj⟩)
          ((body _).trans (if_pos rfl)) fun i hi => (body i).trans (if_neg fun heq =>
            hi (Fin.ext heq.symm))
        show Exec.bind _ _ _ = _
        rw [Exec.bind, loop]
      next => rfl

end Division

/-- The names of nine words. -/
def collidingNames : Finset KeyFragment :=
  Finset.univ.image fun bits : Fin 9 → Bool => collidingName (List.ofFn bits)

/-- A directory of 512 names that agree at all depths. -/
def collidingTree : Tree where
  entries := (collidingNames.sort (· ≤ ·)).map fun name => (name, 0)
  sorted := by
    rw [List.pairwise_map]
    exact collidingNames.sortedLT_sort.pairwise

theorem mem_collidingNames {name : KeyFragment} (h : name ∈ collidingNames) :
    ∃ bits : List Bool, bits.length = 9 ∧ name = collidingName bits := by
  obtain ⟨bits, _, rfl⟩ := Finset.mem_image.mp h
  exact ⟨List.ofFn bits, List.length_ofFn, rfl⟩

theorem collidingTree_len : collidingTree.len = 512 := by
  have hcard : collidingNames.card = 512 := by
    rw [collidingNames, Finset.card_image_of_injective]
    · rw [Finset.card_univ, Fintype.card_fun, Fintype.card_bool, Fintype.card_fin]
      rfl
    · intro bits bits' h
      exact List.ofFn_injective (collidingName_injective (by simp) h)
  rw [OrdMap.len, collidingTree, List.length_map, Finset.length_sort, hcard]

theorem collidingTree_mem {p : KeyFragment × Addr} (h : p ∈ collidingTree.entries) :
    ∃ bits : List Bool, bits.length = 9 ∧ p.1 = collidingName bits := by
  obtain ⟨name, hname, rfl⟩ := List.mem_map.mp h
  exact mem_collidingNames ((Finset.mem_sort _).mp hname)

section Sample

local instance : Digest := sampleDigest

/-- A directory of 257 names, over the store in memory. -/
theorem partitionEntries_returns_many : ∃ inode w',
    partitionEntries (entryHash 1) 0 (manyEntries fun _ => 0).entries (sameValues 1) =
      (.ok inode, w') := by
  refine (partitionEntries_returns_iff (good_sameValues 1) (region_sameValues 1) ?_ ?_ ?_).mpr
    (Or.inr ⟨?_, ?_⟩)
  · intro p hp
    exact ⟨trivial, manyEntries_mem (fun _ => Nat.one_pos) hp⟩
  · intro p hp
    exact ⟨_, hashOf_sameValues (manyEntries_mem (fun _ => Nat.one_pos) hp)⟩
  · show ¬ System.Full _
    decide +kernel
  · intro name hname
    rw [manyEntries_keys] at hname
    exact manyNames_hashable name hname
  · rw [manyEntries_keys]
    exact manyNames_separable

theorem partitionEntries_collidingTree_panic :
    collidingTree.len = 512 ∧
      (partitionEntries (entryHash 1) 0 collidingTree.entries (sameValues 1)).1 = .panic := by
  refine ⟨collidingTree_len, ?_⟩
  have hlen : 32 < collidingTree.entries.length := by
    have := collidingTree_len
    rw [OrdMap.len] at this
    omega
  rw [partitionEntries_panic (entryHash 1) (sameValues 1) hlen]
  · intro p hp
    obtain ⟨bits, hbits, hname⟩ := collidingTree_mem hp
    rw [hname, Hashable, utf8_collidingName_length, hbits]
    decide
  · intro p hp q hq
    obtain ⟨bits, hbits, hname⟩ := collidingTree_mem hp
    obtain ⟨bits', hbits', hname'⟩ := collidingTree_mem hq
    rw [hname, hname']
    exact collidingName_agree (hbits.trans hbits'.symm) (by omega) 0

end Sample

end NodeFuzzer
