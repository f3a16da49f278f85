import Mathlib.Order.Filter.AtTopBot.Basic
import Mathlib.Order.Filter.Finite
import NodeFuzzer.Context.Contents
import NodeFuzzer.Context.ReadonlyIpc
import NodeFuzzer.Context.StoredWalk

/-!
# What a query by prefix lists

Where everything below a commit is in the store (`StoredAs`), both listings return the
values whose keys properly extend the prefix, in the order of their keys.
-/

namespace NodeFuzzer

open KeyValueStoreBackend Filter
open TezedgeIndex (keyToString stringToKey)

variable {S : Type} [KeyValueStoreBackend S]

/-! ## Keys and strings -/

theorem stringToKey_keyToString {key : ContextKey} (hkey : key ≠ [])
    (plain : ∀ name ∈ key, '/' ∉ name.toList) : stringToKey (keyToString key) = key := by
  have slash : "/".toList = ['/'] := rfl
  have parts : (key.map String.toList).map String.ofList = key := by
    rw [List.map_map]
    exact (List.map_congr_left fun name _ => String.ofList_toList).trans (List.map_id key)
  rw [stringToKey, keyToString, String.toList_intercalate, slash, List.splitOn_intercalate, parts]
  · intro l hl
    obtain ⟨name, hname, rfl⟩ := List.mem_map.mp hl
    exact plain name hname
  · simpa using hkey

/-! ## Enough calls -/

/-- What holds one call deeper from some depth on holds from some depth on. -/
theorem eventually_succ {P : Nat → Prop} (h : ∀ᶠ fuel in atTop, P (fuel + 1)) :
    ∀ᶠ fuel in atTop, P fuel := by
  obtain ⟨n, hn⟩ := eventually_atTop.mp h
  refine eventually_atTop.mpr ⟨n + 1, ?_⟩
  intro fuel hfuel
  obtain ⟨k, rfl⟩ := Nat.exists_eq_add_of_le hfuel
  rw [Nat.add_right_comm]
  exact hn (n + k) (Nat.le_add_right n k)

theorem eventually_forall_mem {α : Type} {l : List α} {P : Nat → α → Prop}
    (h : ∀ a ∈ l, ∀ᶠ fuel in atTop, P fuel a) : ∀ᶠ fuel in atTop, ∀ a ∈ l, P fuel a :=
  (eventually_all_finite l.finite_toSet).mpr h

/-- What holds of each entry from some depth on holds of all from some depth on. -/
theorem eventually_storedEntry {repo : S} {l : List (KeyFragment × NodeKind × HashId)}
    {P : Nat → KeyFragment × NodeKind × HashId → Serialized → Prop}
    (h : ∀ p ∈ l, ∃ value, storedEntry repo p.2.2 = some value ∧ ∀ᶠ fuel in atTop, P fuel p value) :
    ∀ᶠ fuel in atTop, ∀ p ∈ l, ∃ value, storedEntry repo p.2.2 = some value ∧ P fuel p value := by
  refine eventually_forall_mem fun p hp => ?_
  obtain ⟨value, hvalue, holds⟩ := h p hp
  exact holds.mono fun fuel now => ⟨value, hvalue, now⟩

theorem Outcome.of_mapErr_ok {ε α : Type} {o : Outcome ε α} {a : α}
    (h : (o.mapErr fun _ => ()) = .ok a) : o = .ok a := by
  cases o <;> cases h
  rfl

/-! ## Trees that are all there -/

/-- The store has the tree below an id. -/
inductive StoredAs (repo : S) : HashId → Contents → Prop
  | value {id : HashId} {v : ContextValue} (found : getValue id repo = .ok (some (.blob v))) :
      StoredAs repo id (.value v)
  | directory {id : HashId} {entries : OrdMap KeyFragment (NodeKind × HashId)}
      {child : KeyFragment → Contents} (found : getValue id repo = .ok (some (.tree entries)))
      (below : ∀ p ∈ entries.entries, StoredAs repo p.2.2 (child p.1)) :
      StoredAs repo id (.directory entries.keys.toFinset child)

/-- The names of a directory in their order. -/
theorem sort_keys (entries : OrdMap KeyFragment (NodeKind × HashId)) :
    entries.keys.toFinset.sort (· ≤ ·) = entries.keys := by
  refine (List.toFinset_sort (· ≤ ·) entries.keys_nodup).mpr ?_
  rw [OrdMap.keys, List.pairwise_map]
  exact entries.sorted.imp fun h => h.le

theorem StoredAs.lists {repo : S} {id : HashId} {t : Contents} (stored : StoredAs repo id t) :
    ∃ entry, storedEntry repo id = some entry ∧ ∀ᶠ fuel in atTop, ∀ key,
      storedValues repo fuel key entry =
        .ok (t.values.map fun p => (stringToKey (keyToString (key ++ p.1)), p.2)) := by
  induction stored with
  | @value id v found =>
      refine ⟨.blob v, storedEntry_eq_some.mpr ⟨found, by simp⟩, eventually_succ ?_⟩
      refine Eventually.of_forall fun fuel key => ?_
      simp [storedValues, NameTree.values]
  | @directory id entries child found below ih =>
      refine ⟨.tree entries, storedEntry_eq_some.mpr ⟨found, by simp⟩, eventually_succ ?_⟩
      refine (eventually_storedEntry ih).mono fun fuel run key => ?_
      rw [storedValues, Outcome.each_ok (g := fun p => (child p.1).values.map fun q =>
        (stringToKey (keyToString (key ++ p.1 :: q.1)), q.2))]
      · rw [NameTree.values, sort_keys]
        simp only [Outcome.map, Outcome.bind, List.map_flatMap, List.map_map, OrdMap.keys,
          List.flatMap_map, Function.comp_def]
        rfl
      · intro p hp
        obtain ⟨entry, hentry, hvalues⟩ := run p hp
        simp only [hentry, hvalues, List.append_assoc, List.singleton_append]

/-- The directory at a path, an empty one where there is none. -/
def directoryAt (t : Contents) (path : ContextKey) : Contents :=
  match t.get path with
  | some (.directory names child) => .directory names child
  | _ => .directory ∅ fun _ => .value []

@[simp] theorem directoryAt_nil (names : Finset KeyFragment) (child : KeyFragment → Contents) :
    directoryAt (.directory names child) [] = .directory names child := by
  simp [directoryAt]

theorem directoryAt_cons {names : Finset KeyFragment} {child : KeyFragment → Contents}
    {first : KeyFragment} (mem : first ∈ names) (rest : ContextKey) :
    directoryAt (.directory names child) (first :: rest) = directoryAt (child first) rest := by
  rw [directoryAt, NameTree.get_directory_cons, if_pos mem, directoryAt]

theorem directoryAt_cons_of_notMem {names : Finset KeyFragment} {child : KeyFragment → Contents}
    {first : KeyFragment} (gone : first ∉ names) (rest : ContextKey) :
    directoryAt (.directory names child) (first :: rest) = .directory ∅ fun _ => .value [] := by
  rw [directoryAt, NameTree.get_directory_cons, if_neg gone]

theorem directoryAt_value (v : ContextValue) (path : ContextKey) :
    directoryAt (.value v) path = .directory ∅ fun _ => .value [] := by
  cases path <;> simp [directoryAt]

/-- The values below the directory at a path are those whose keys properly extend the path. -/
theorem get_directoryAt {t : Contents} {path rest : ContextKey} {v : ContextValue} :
    (directoryAt t path).get rest = some (.value v) ↔
      rest ≠ [] ∧ t.get (path ++ rest) = some (.value v) := by
  rw [NameTree.get_append, directoryAt]
  cases rest with
  | nil =>
      split
      next => simp
      next => simp
  | cons name rest =>
      split
      next names child hget => simp [hget]
      next hother =>
        simp only [NameTree.get_directory_cons, Finset.notMem_empty, if_false]
        -- Nothing is below a value.
        cases hget : t.get path with
        | none => simp
        | some s =>
            cases s with
            | value v' => simp
            | directory names child => exact absurd hget (hother names child)

/-- The values below a prefix with their keys. -/
def valuesUnder (t : Contents) (keyPrefix : ContextKey) : List (ContextKey × ContextValue) :=
  (directoryAt t keyPrefix).values.map fun p => (keyPrefix ++ p.1, p.2)

/-- They are the values whose keys properly extend the prefix. -/
theorem mem_valuesUnder {t : Contents} {keyPrefix key : ContextKey} {v : ContextValue} :
    (key, v) ∈ valuesUnder t keyPrefix ↔
      keyPrefix <+: key ∧ key ≠ keyPrefix ∧ t.get key = some (.value v) := by
  constructor
  · intro h
    obtain ⟨p, hp, heq⟩ := List.mem_map.mp h
    obtain ⟨rfl, rfl⟩ := Prod.mk.inj heq
    obtain ⟨hne, value⟩ := get_directoryAt.mp (NameTree.mem_values.mp hp)
    exact ⟨List.prefix_append _ _, by simpa using hne, value⟩
  · intro h
    obtain ⟨hstart, hne, hget⟩ := h
    obtain ⟨rest, rfl⟩ := hstart
    have value := get_directoryAt.mpr ⟨by simpa using hne, hget⟩
    exact List.mem_map.mpr ⟨(rest, v), NameTree.mem_values.mpr value, rfl⟩

theorem valuesUnder_sorted (t : Contents) (keyPrefix : ContextKey) :
    ((valuesUnder t keyPrefix).map Prod.fst).Pairwise (List.Lex (· < ·)) := by
  rw [valuesUnder, List.map_map, List.pairwise_map]
  exact (List.pairwise_map.mp (NameTree.values_sorted _)).imp fun h => h.append_left _ _

theorem storedUnder_cons {repo : S} {root : HashId} {first : KeyFragment} {rest : ContextKey}
    {entries below : OrdMap KeyFragment (NodeKind × HashId)} {p : NodeKind × HashId}
    (hroot : storedEntry repo root = some (.tree entries)) (child : entries.get first = some p)
    (hbelow : storedEntry repo p.2 = some (.tree below)) :
    storedUnder repo root (first :: rest) = storedUnder repo p.2 rest := by
  simp only [storedUnder, hroot, storedFind, child, hbelow]

theorem mem_names_iff {entries : OrdMap KeyFragment (NodeKind × HashId)} {name : KeyFragment} :
    name ∈ entries.keys.toFinset ↔ ∃ p, entries.get name = some p := by
  rw [List.mem_toFinset, OrdMap.mem_keys]

/-- The directory at a prefix is found, and all below it is there. -/
theorem StoredAs.under {repo : S} {root : HashId} {names : Finset KeyFragment}
    {child : KeyFragment → Contents} (stored : StoredAs repo root (.directory names child))
    (keyPrefix : ContextKey) : ∃ found, ∃ child' : KeyFragment → Contents,
      storedUnder repo root keyPrefix = some found ∧
      (∀ p ∈ found.entries, StoredAs repo p.2.2 (child' p.1)) ∧
      directoryAt (.directory names child) keyPrefix = .directory found.keys.toFinset child' := by
  induction keyPrefix generalizing root names child with
  | nil =>
      cases stored with
      | @directory _ entries _ found below =>
          have hroot := storedEntry_eq_some.mpr ⟨found, by simp⟩
          exact ⟨entries, child, by simp only [storedUnder, hroot, storedFind], below, by simp⟩
  | cons first rest ih =>
      cases stored with
      | @directory _ entries _ found below =>
          have hroot := storedEntry_eq_some.mpr ⟨found, by simp⟩
          cases hchild : entries.get first with
          | none =>
              have gone : first ∉ entries.keys.toFinset := by
                rw [mem_names_iff, hchild]
                simp
              refine ⟨.empty, fun _ => .value [], ?_, (fun p hp => by cases hp), directoryAt_cons_of_notMem gone rest⟩
              simp only [storedUnder, hroot, storedFind, hchild]
          | some p =>
              have mem := mem_names_iff.mpr ⟨p, hchild⟩
              have here := below (first, p) (OrdMap.mem_entries.mpr hchild)
              rw [directoryAt_cons mem]
              dsimp only at here
              cases hc : child first with
              | value v =>
                  rw [hc] at here
                  cases here with
                  | value blob =>
                      have hblob := storedEntry_eq_some.mpr ⟨blob, by simp⟩
                      refine ⟨.empty, fun _ => .value [], ?_, (fun p hp => by cases hp), directoryAt_value v rest⟩
                      simp only [storedUnder, hroot, storedFind, hchild, hblob]
              | directory names' child' =>
                  rw [hc] at here
                  obtain ⟨found', child'', run, below', values⟩ := ih here
                  refine ⟨found', child'', ?_, below', values⟩
                  cases here with
                  | directory found'' _ =>
                      have hbelow := storedEntry_eq_some.mpr ⟨found'', by simp⟩
                      rw [storedUnder_cons hroot hchild hbelow, run]

/-! ## Listings of trees that are all there -/

section Exact

variable {w : World S} {id : HashId} {commit : Commit} {names : Finset KeyFragment}
  {child : KeyFragment → Contents}

/-- The listing of a tree that is all there. -/
theorem StoredAs.listing {repo : S} {root : HashId}
    (stored : StoredAs repo root (.directory names child)) (keyPrefix : ContextKey) :
    ∀ᶠ fuel in atTop, storedListing repo fuel root keyPrefix =
      .ok (if (valuesUnder (.directory names child) keyPrefix).isEmpty then none
        else some ((valuesUnder (.directory names child) keyPrefix).map fun p =>
          (stringToKey (keyToString p.1), p.2))) := by
  obtain ⟨found, child', run, below, directory⟩ := stored.under keyPrefix
  have children := eventually_storedEntry fun p hp => (below p hp).lists
  refine children.mono fun fuel run' => ?_
  simp only [storedListing, run, storedLevel]
  rw [Outcome.each_ok (g := fun p => (child' p.1).values.map fun q =>
    (stringToKey (keyToString (keyPrefix ++ p.1 :: q.1)), q.2))]
  · have flat : (found.entries.map fun p => (child' p.1).values.map fun q =>
        (stringToKey (keyToString (keyPrefix ++ p.1 :: q.1)), q.2)).flatten =
          (valuesUnder (.directory names child) keyPrefix).map fun p =>
            (stringToKey (keyToString p.1), p.2) := by
      rw [valuesUnder, directory, NameTree.values, sort_keys, ← List.flatMap_def]
      simp only [List.map_flatMap, OrdMap.keys, List.flatMap_map, List.map_map]
      rfl
    simp only [Outcome.map, Outcome.bind, flat, List.isEmpty_map]
  · intro p hp
    obtain ⟨entry, hentry, hvalues⟩ := run' p hp
    simp only [hentry, hvalues, List.append_assoc, List.singleton_append]

/-- Both queries return the values whose keys properly extend the prefix, each once and in
the order of the keys, or nothing when there are none. -/
theorem keyValuesByPrefix_exact (found : getValue id w.repo = .ok (some (.commit commit)))
    (stored : StoredAs w.repo commit.rootHash (.directory names child))
    (plain : ∀ key s, (NameTree.directory names child).get key = some s →
      ∀ name ∈ key, '/' ∉ name.toList) (keyPrefix : ContextKey) :
    ∃ pairs : List (ContextKey × ContextValue),
      (∀ key v, (key, v) ∈ pairs ↔ keyPrefix <+: key ∧ key ≠ keyPrefix ∧
        (NameTree.directory names child).get key = some (.value v)) ∧
      (pairs.map Prod.fst).Pairwise (List.Lex (· < ·)) ∧
      ∃ n, ∀ fuel, n ≤ fuel →
        (WorkingTree.getKeyValuesByPrefix fuel id keyPrefix w).1 =
          .ok (if pairs = [] then none else some pairs) ∧
        (TezedgeIndex.getContextKeyValuesByPrefix fuel id keyPrefix w).1 =
          .ok (if pairs = [] then none else some pairs) := by
  refine ⟨valuesUnder (.directory names child) keyPrefix, fun key v => mem_valuesUnder,
    valuesUnder_sorted _ _, ?_⟩
  have keys : (valuesUnder (.directory names child) keyPrefix).map (fun p =>
      (stringToKey (keyToString p.1), p.2)) = valuesUnder (.directory names child) keyPrefix := by
    refine (List.map_congr_left ?_).trans (List.map_id _)
    rintro ⟨key, v⟩ hp
    obtain ⟨hstart, hne, value⟩ := mem_valuesUnder.mp hp
    have hkey : key ≠ [] := by
      rintro rfl
      exact hne (List.prefix_nil.mp hstart).symm
    simp only [stringToKey_keyToString hkey (plain key _ value)]
    rfl
  have listing := stored.listing keyPrefix
  simp only [keys, List.isEmpty_iff] at listing
  obtain ⟨n, hn⟩ := eventually_atTop.mp listing
  refine ⟨n, fun fuel hfuel => ⟨Outcome.of_mapErr_ok ?_, Outcome.of_mapErr_ok ?_⟩⟩
  · rw [getKeyValuesByPrefix_ends found, hn fuel hfuel]
  · rw [getContextKeyValuesByPrefix_ends found, hn fuel hfuel]

end Exact

section Sample

/-- The process that has the entries answers with those of a list. -/
def answering (values : List (Option Serialized)) : World ReadonlyIpcBackend where
  heap := .empty
  repo := .tryConnect
    ⟨fun _ => .ok none, fun id => .ok (values[id.index]?).join, fun _ => .ok true, fun _ => .ok none⟩

/-- The id of an entry of such a list. -/
def nth (n : Fin 8) : HashId := ⟨n + 1, Nat.succ_pos _, by omega⟩

/-- A commit, its root, a directory `a` in the root and its value `b`. -/
def commitOfOne (value : Option Serialized) : World ReadonlyIpcBackend :=
  answering [some (.commit ⟨none, nth 1, 0, "author", "message"⟩),
    some (.tree (OrdMap.empty.insert "a" (.nonLeaf, nth 2))),
    some (.tree (OrdMap.empty.insert "b" (.leaf, nth 3))), value]

theorem commitOfOne_stored : StoredAs (commitOfOne (some (.blob [1]))).repo (nth 1)
    (.directory {"a"} fun _ => .directory {"b"} fun _ => .value [1]) := by
  refine @StoredAs.directory _ _ _ _ (OrdMap.empty.insert "a" (.nonLeaf, nth 2)) _ rfl ?_
  intro p hp
  cases List.mem_singleton.mp hp
  refine @StoredAs.directory _ _ _ _ (OrdMap.empty.insert "b" (.leaf, nth 3)) _ rfl ?_
  intro p hp
  cases List.mem_singleton.mp hp
  exact .value rfl

/-- What is below each name of a root with a directory and a value. -/
def threeBelow (name : KeyFragment) : Contents :=
  if name = "a" then .directory {"b", "c"} fun name => .value (if name = "b" then [1] else [2])
  else .value [3]

/-- A commit, its root, a directory in the root with two values, and a value beside it. -/
def commitOfThree : World ReadonlyIpcBackend :=
  answering [some (.commit ⟨none, nth 1, 0, "author", "message"⟩),
    some (.tree ((OrdMap.empty.insert "a" (.nonLeaf, nth 2)).insert "d" (.leaf, nth 5))),
    some (.tree ((OrdMap.empty.insert "b" (.leaf, nth 3)).insert "c" (.leaf, nth 4))),
    some (.blob [1]), some (.blob [2]), some (.blob [3])]

theorem commitOfThree_stored :
    StoredAs commitOfThree.repo (nth 1) (.directory {"a", "d"} threeBelow) := by
  have outer : ((OrdMap.empty.insert "a" (NodeKind.nonLeaf, nth 2)).insert "d"
      (.leaf, nth 5)).entries = [("a", .nonLeaf, nth 2), ("d", .leaf, nth 5)] := by
    decide +kernel
  have inner : ((OrdMap.empty.insert "b" (NodeKind.leaf, nth 3)).insert "c"
      (.leaf, nth 4)).entries = [("b", .leaf, nth 3), ("c", .leaf, nth 4)] := by
    decide +kernel
  have directory : StoredAs commitOfThree.repo (nth 2) (threeBelow "a") := by
    have below := @StoredAs.directory _ _ commitOfThree.repo (nth 2) _
      (fun name => .value (if name = "b" then [1] else [2])) rfl (by
        rw [inner, List.forall_mem_cons, List.forall_mem_singleton]
        exact ⟨.value rfl, .value rfl⟩)
    rwa [OrdMap.keys, inner] at below
  have root := @StoredAs.directory _ _ commitOfThree.repo (nth 1) _ threeBelow rfl (by
    rw [outer, List.forall_mem_cons, List.forall_mem_singleton]
    exact ⟨directory, .value rfl⟩)
  rwa [OrdMap.keys, outer] at root

/-- No name in it has a slash. -/
theorem commitOfThree_plain (key : ContextKey) (s : Contents)
    (hget : (NameTree.directory {"a", "d"} threeBelow).get key = some s) :
    ∀ name ∈ key, '/' ∉ name.toList := by
  rcases key with _ | ⟨first, rest⟩
  · simp
  · rw [NameTree.get_directory_cons, Option.ite_none_right_eq_some] at hget
    obtain ⟨here, hget⟩ := hget
    simp only [Finset.mem_insert, Finset.mem_singleton] at here
    rcases here with rfl | rfl
    · rcases rest with _ | ⟨second, rest⟩
      · simp
      · rw [threeBelow, if_pos rfl, NameTree.get_directory_cons,
          Option.ite_none_right_eq_some] at hget
        obtain ⟨here, hget⟩ := hget
        simp only [Finset.mem_insert, Finset.mem_singleton] at here
        rcases rest with _ | ⟨third, rest⟩
        · rcases here with rfl | rfl <;> simp
        · cases hget
    · rcases rest with _ | ⟨second, rest⟩
      · simp
      · cases hget

theorem keyValuesByPrefix_exact_ofThree :
    ∃ pairs : List (ContextKey × ContextValue),
      (∀ key v, (key, v) ∈ pairs ↔ ["a"] <+: key ∧ key ≠ ["a"] ∧
        (NameTree.directory {"a", "d"} threeBelow).get key = some (.value v)) ∧
      (pairs.map Prod.fst).Pairwise (List.Lex (· < ·)) ∧
      ∃ n, ∀ fuel, n ≤ fuel →
        (WorkingTree.getKeyValuesByPrefix fuel (nth 0) ["a"] commitOfThree).1 =
          .ok (if pairs = [] then none else some pairs) ∧
        (TezedgeIndex.getContextKeyValuesByPrefix fuel (nth 0) ["a"] commitOfThree).1 =
          .ok (if pairs = [] then none else some pairs) :=
  keyValuesByPrefix_exact rfl commitOfThree_stored commitOfThree_plain ["a"]

end Sample

end NodeFuzzer
