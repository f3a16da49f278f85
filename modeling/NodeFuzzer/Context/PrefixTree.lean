import NodeFuzzer.Context.PrefixListing

/-!
# The tree of strings below a prefix

`_get_context_tree_by_prefix` writes the first level of the tree itself and leaves the
others to `get_context_recursive`; each takes one from the depth for the next level.  Where
everything below a commit is in the store, what a query with a depth returns is what the
query without one returns, cut off at that depth.
-/

namespace NodeFuzzer

open KeyValueStoreBackend Filter

namespace StringTreeEntry

/-- What is at a path. -/
def get : StringTreeEntry → List String → Option StringTreeEntry
  | t, [] => some t
  | .tree entries, name :: path => (OrdMap.find name entries).bind fun t => t.get path
  | .blob _, _ :: _ => none
  | .null, _ :: _ => none

/-- Everything at a distance is replaced by `Null`. -/
def truncate : Nat → StringTreeEntry → StringTreeEntry
  | 0, _ => .null
  | d + 1, .tree entries => .tree (entries.map fun p => (p.1, p.2.truncate d))
  | _ + 1, .blob value => .blob value
  | _ + 1, .null => .null

/-- No depth is no limit. -/
def upTo : Option Nat → StringTreeEntry → StringTreeEntry
  | none, t => t
  | some d, t => t.truncate d

@[simp] theorem upTo_none (t : StringTreeEntry) : t.upTo none = t := rfl

@[simp] theorem upTo_zero (t : StringTreeEntry) : t.upTo (some 0) = .null := by
  simp [upTo, truncate]

theorem upTo_tree {depth : Option Nat} (h : depth ≠ some 0)
    (entries : List (String × StringTreeEntry)) : (tree entries).upTo depth =
      .tree (entries.map fun p => (p.1, p.2.upTo (depth.map (· - 1)))) := by
  cases depth with
  | none => simp
  | some d =>
      cases d with
      | zero => exact absurd rfl h
      | succ d => rfl

theorem upTo_blob {depth : Option Nat} (h : depth ≠ some 0) (value : String) :
    (blob value).upTo depth = .blob value := by
  cases depth with
  | none => rfl
  | some d =>
      cases d with
      | zero => exact absurd rfl h
      | succ d => rfl

theorem ofEntries_sorted {entries : List (String × StringTreeEntry)}
    (sorted : entries.Pairwise fun p q => p.1 < q.1) : ofEntries entries = .tree entries := by
  rw [ofEntries, OrdMap.foldl_insertEntry (by simpa using sorted), List.nil_append]

end StringTreeEntry

/-! ## Trees as strings -/

/-- The tree of strings of a tree: its values, hex encoded. -/
def dumped : Contents → StringTreeEntry
  | .value v => .blob (hexEncode v)
  | .directory names child =>
      .tree ((NameTree.inOrder names).map fun name => (name, dumped (child name)))

/-- It has at a path what the tree has there. -/
theorem get_dumped (t : Contents) (path : ContextKey) :
    (dumped t).get path = (t.get path).map dumped := by
  induction path generalizing t with
  | nil => cases t <;> simp [dumped, StringTreeEntry.get]
  | cons name path ih =>
      cases t with
      | value v => rfl
      | directory names child =>
          rw [NameTree.get_directory_cons, dumped, StringTreeEntry.get, OrdMap.find_map_pair]
          simp only [NameTree.inOrder, Finset.mem_sort]
          split
          · exact ih (child name)
          · rfl

theorem dumped_eq_blob {t : Contents} {value : String} :
    dumped t = .blob value ↔ ∃ v, t = .value v ∧ value = hexEncode v := by
  cases t with
  | value v => simp [dumped, eq_comm]
  | directory names child => simp [dumped]

theorem dumped_ne_null (t : Contents) : dumped t ≠ .null := by
  cases t <;> simp [dumped]

/-- A directory of the store as strings, cut off at a depth. -/
theorem upTo_dumped {depth : Option Nat} (h : depth ≠ some 0)
    (entries : OrdMap KeyFragment (NodeKind × HashId)) (child : KeyFragment → Contents) :
    (dumped (.directory entries.keys.toFinset child)).upTo depth =
      .tree (entries.entries.map fun p =>
        (p.1, (dumped (child p.1)).upTo (depth.map (· - 1)))) := by
  rw [dumped, NameTree.inOrder, sort_keys, StringTreeEntry.upTo_tree h, OrdMap.keys]
  simp only [List.map_map]
  rfl

/-! ## Trees that are all there -/

variable {S : Type} [KeyValueStoreBackend S]

/-- The walk below the entries of a directory returns their trees, cut off at a depth. -/
def Dumps (repo : S) (fuel : Nat) (child : KeyFragment → Contents)
    (entries : OrdMap KeyFragment (NodeKind × HashId)) : Prop :=
  ∀ p ∈ entries.entries, ∃ value, storedEntry repo p.2.2 = some value ∧
    ∀ depth, storedDump repo fuel depth value = .ok ((dumped (child p.1)).upTo depth)

/-- The first level and the others put the trees below them together in the same way. -/
theorem Dumps.level {repo : S} {fuel : Nat} {child : KeyFragment → Contents}
    {entries : OrdMap KeyFragment (NodeKind × HashId)} (dumps : Dumps repo fuel child entries)
    {depth : Option Nat} (h : depth ≠ some 0) :
    (storedLevel repo (fun name value =>
      (storedDump repo fuel (depth.map (· - 1)) value).map fun t => (name, t)) entries).map
        .ofEntries = .ok ((dumped (.directory entries.keys.toFinset child)).upTo depth) := by
  have sorted : (entries.entries.map fun p =>
      (p.1, (dumped (child p.1)).upTo (depth.map (· - 1)))).Pairwise fun p q => p.1 < q.1 :=
    List.pairwise_map.mpr entries.sorted
  rw [upTo_dumped h, ← StringTreeEntry.ofEntries_sorted sorted, storedLevel,
    Outcome.each_ok (g := fun p => (p.1, (dumped (child p.1)).upTo (depth.map (· - 1))))]
  · rfl
  · intro p hp
    obtain ⟨value, hvalue, run⟩ := dumps p hp
    simp only [hvalue, run]
    rfl

/-- The walk of an entry returns its tree, cut off at the depth. -/
theorem StoredAs.dumps {repo : S} {id : HashId} {t : Contents} (stored : StoredAs repo id t) :
    ∃ value, storedEntry repo id = some value ∧ ∀ᶠ fuel in atTop, ∀ depth,
      storedDump repo fuel depth value = .ok ((dumped t).upTo depth) := by
  induction stored with
  | @value id v found =>
      refine ⟨.blob v, storedEntry_eq_some.mpr ⟨found, by simp⟩, eventually_succ ?_⟩
      refine .of_forall fun fuel depth => ?_
      by_cases h : depth = some 0
      · simp [storedDump, h]
      · rw [storedDump, if_neg h, dumped, StringTreeEntry.upTo_blob h]
  | @directory id entries child found below ih =>
      refine ⟨.tree entries, storedEntry_eq_some.mpr ⟨found, by simp⟩, eventually_succ ?_⟩
      have children : ∀ᶠ fuel in atTop, Dumps repo fuel child entries := eventually_storedEntry ih
      refine children.mono fun fuel dumps depth => ?_
      by_cases h : depth = some 0
      · simp [storedDump, h]
      · rw [storedDump, if_neg h]
        exact dumps.level h

/-- The query returns the directory at the prefix, cut off at the depth. -/
theorem StoredAs.tree {repo : S} {root : HashId} {names : Finset KeyFragment}
    {child : KeyFragment → Contents} (stored : StoredAs repo root (.directory names child))
    (keyPrefix : ContextKey) : ∀ᶠ fuel in atTop, ∀ depth,
      storedTree repo fuel root keyPrefix depth =
        .ok ((dumped (directoryAt (.directory names child) keyPrefix)).upTo depth) := by
  obtain ⟨found, child', run, below, directory⟩ := stored.under keyPrefix
  have children : ∀ᶠ fuel in atTop, Dumps repo fuel child' found :=
    eventually_storedEntry fun p hp => (below p hp).dumps
  refine children.mono fun fuel dumps depth => ?_
  by_cases h : depth = some 0
  · simp [storedTree, h]
  · simp only [storedTree, if_neg h, run, directory]
    exact dumps.level h

/-- The query with a depth returns what the query without one does, cut off at that depth;
and that is the values under the prefix, hex encoded, at their paths. -/
theorem contextTreeByPrefix_truncates {w : World S} {id : HashId} {commit : Commit}
    {names : Finset KeyFragment} {child : KeyFragment → Contents}
    (found : getValue id w.repo = .ok (some (.commit commit)))
    (stored : StoredAs w.repo commit.rootHash (.directory names child)) (keyPrefix : ContextKey) :
    ∃ t : StringTreeEntry,
      (∀ path value, t.get path = some (.blob value) ↔ path ≠ [] ∧ ∃ v,
        (NameTree.directory names child).get (keyPrefix ++ path) = some (.value v) ∧
          value = hexEncode v) ∧
      (∀ path, t.get path ≠ some .null) ∧
      ∃ n, ∀ fuel, n ≤ fuel →
        (TezedgeIndex.getContextTreeByPrefix fuel id keyPrefix none w).1 = .ok t ∧
        ∀ d, (TezedgeIndex.getContextTreeByPrefix fuel id keyPrefix (some d) w).1 =
          .ok (t.truncate d) := by
  refine ⟨dumped (directoryAt (.directory names child) keyPrefix), ?_, ?_, ?_⟩
  · intro path value
    rw [get_dumped, Option.map_eq_some_iff]
    simp only [dumped_eq_blob]
    constructor
    · intro h
      obtain ⟨s, hs, v, hv, hex⟩ := h
      subst hv
      obtain ⟨hne, hget⟩ := get_directoryAt.mp hs
      exact ⟨hne, v, hget, hex⟩
    · intro h
      obtain ⟨hne, v, hget, hex⟩ := h
      exact ⟨.value v, get_directoryAt.mpr ⟨hne, hget⟩, v, rfl, hex⟩
  · intro path h
    rw [get_dumped, Option.map_eq_some_iff] at h
    obtain ⟨s, _, null⟩ := h
    exact dumped_ne_null s null
  · obtain ⟨n, hn⟩ := eventually_atTop.mp (stored.tree keyPrefix)
    refine ⟨n, fun fuel hfuel => ⟨Outcome.of_mapErr_ok ?_, fun d => Outcome.of_mapErr_ok ?_⟩⟩
    · rw [getContextTreeByPrefix_ends found, hn fuel hfuel none, StringTreeEntry.upTo_none]
    · rw [getContextTreeByPrefix_ends found, hn fuel hfuel (some d), StringTreeEntry.upTo]

theorem contextTreeByPrefix_truncates_ofThree :
    ∃ t : StringTreeEntry,
      (∀ path value, t.get path = some (.blob value) ↔ path ≠ [] ∧ ∃ v,
        (NameTree.directory {"a", "d"} threeBelow).get ([] ++ path) = some (.value v) ∧
          value = hexEncode v) ∧
      (∀ path, t.get path ≠ some .null) ∧
      ∃ n, ∀ fuel, n ≤ fuel →
        (TezedgeIndex.getContextTreeByPrefix fuel (nth 0) [] none commitOfThree).1 = .ok t ∧
        ∀ d, (TezedgeIndex.getContextTreeByPrefix fuel (nth 0) [] (some d) commitOfThree).1 =
          .ok (t.truncate d) :=
  contextTreeByPrefix_truncates rfl commitOfThree_stored []

end NodeFuzzer
