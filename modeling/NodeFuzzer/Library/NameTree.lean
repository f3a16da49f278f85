import Mathlib.Data.Finset.Sort
import Mathlib.Data.List.Lex

/-!
# Finite trees of names

A directory has finitely many names and something below each of them.  `walk` lists all
that is in a tree, a directory before what is below it and names in order; this is the
lexical order of the paths, so that no path comes twice.
-/

namespace NodeFuzzer

/-- A value, or a directory with what is below each of its names. -/
inductive NameTree (K V : Type) where
  | value (v : V)
  | directory (names : Finset K) (child : K → NameTree K V)

namespace NameTree

variable {K V : Type} [LinearOrder K]

/-- Names in their order. -/
def inOrder (names : Finset K) : List K := names.sort (· ≤ ·)

/-- What is at the end of a path. -/
def get : NameTree K V → List K → Option (NameTree K V)
  | t, [] => some t
  | .value _, _ :: _ => none
  | .directory names child, name :: path =>
      if name ∈ names then (child name).get path else none

/-- Everything in a tree with its path, a directory first. -/
def walk : NameTree K V → List (List K × NameTree K V)
  | .value v => [([], .value v)]
  | .directory names child =>
      ([], .directory names child) ::
        (names.sort (· ≤ ·)).flatMap fun name =>
          (child name).walk.map fun p => (name :: p.1, p.2)

@[simp] theorem get_nil (t : NameTree K V) : t.get [] = some t := by
  cases t <;> rfl

@[simp] theorem get_value_cons (v : V) (name : K) (path : List K) :
    (NameTree.value v).get (name :: path) = none := rfl

theorem get_directory_cons (names : Finset K) (child : K → NameTree K V) (name : K)
    (path : List K) : (directory names child).get (name :: path) =
      if name ∈ names then (child name).get path else none := rfl

theorem get_append (t : NameTree K V) (path rest : List K) :
    t.get (path ++ rest) = (t.get path).bind fun s => s.get rest := by
  induction path generalizing t with
  | nil => simp
  | cons name path ih =>
      cases t with
      | value v => rfl
      | directory names child =>
          rw [List.cons_append, get_directory_cons, get_directory_cons]
          split
          · exact ih _
          · rfl

/-- `walk` lists what paths lead to. -/
theorem mem_walk {t s : NameTree K V} {path : List K} : (path, s) ∈ t.walk ↔ t.get path = some s := by
  induction t generalizing path with
  | value v =>
      cases path <;> simp [walk, eq_comm]
  | directory names child ih =>
      cases path with
      | nil => simp [walk, eq_comm]
      | cons name path =>
          simp only [walk, List.mem_cons, List.mem_flatMap, Finset.mem_sort, List.mem_map,
            Prod.mk.injEq, reduceCtorEq, false_and, false_or, get_directory_cons]
          constructor
          · intro h
            obtain ⟨first, mem, p, hp, heq, rfl⟩ := h
            obtain ⟨rfl, rfl⟩ := List.cons.inj heq
            rw [if_pos mem]
            exact (ih first).mp hp
          · intro h
            split at h
            next mem => exact ⟨name, mem, (path, s), (ih name).mpr h, rfl, rfl⟩
            next => cases h

/-- The paths of `walk` are in lexical order. -/
theorem walk_sorted (t : NameTree K V) :
    (t.walk.map Prod.fst).Pairwise (List.Lex (· < ·)) := by
  induction t with
  | value v => simp [walk]
  | directory names child ih =>
      rw [walk, List.map_cons, List.pairwise_cons]
      constructor
      · intro path hpath
        simp only [List.map_flatMap, List.map_map, List.mem_flatMap, List.mem_map] at hpath
        obtain ⟨name, _, p, _, rfl⟩ := hpath
        exact .nil
      · rw [List.map_flatMap, List.pairwise_flatMap]
        constructor
        · intro name _
          rw [List.map_map, List.pairwise_map]
          exact (List.pairwise_map.mp (ih name)).imp fun h => .cons h
        · refine (Finset.sortedLT_sort names).pairwise.imp ?_
          intro a b hab x hx y hy
          simp only [List.map_map, List.mem_map] at hx hy
          obtain ⟨p, _, rfl⟩ := hx
          obtain ⟨q, _, rfl⟩ := hy
          exact .rel hab

/-- The values of a tree with their paths. -/
def values : NameTree K V → List (List K × V)
  | .value v => [([], v)]
  | .directory names child =>
      (names.sort (· ≤ ·)).flatMap fun name =>
        (child name).values.map fun p => (name :: p.1, p.2)

/-- A value is what its path leads to. -/
theorem mem_values {t : NameTree K V} {path : List K} {v : V} :
    (path, v) ∈ t.values ↔ t.get path = some (.value v) := by
  induction t generalizing path with
  | value v' => cases path <;> simp [values, eq_comm]
  | directory names child ih =>
      simp only [values, List.mem_flatMap, Finset.mem_sort, List.mem_map, Prod.mk.injEq]
      constructor
      · intro h
        obtain ⟨name, mem, p, hp, rfl, rfl⟩ := h
        rw [get_directory_cons, if_pos mem]
        exact (ih name).mp hp
      · intro h
        cases path with
        | nil => cases h
        | cons name path =>
            rw [get_directory_cons] at h
            split at h
            next mem => exact ⟨name, mem, (path, v), (ih name).mpr h, rfl, rfl⟩
            next => cases h

/-- The values are in the lexical order of their paths. -/
theorem values_sorted (t : NameTree K V) :
    (t.values.map Prod.fst).Pairwise (List.Lex (· < ·)) := by
  induction t with
  | value v => simp [values]
  | directory names child ih =>
      rw [values, List.map_flatMap, List.pairwise_flatMap]
      constructor
      · intro name _
        rw [List.map_map, List.pairwise_map]
        exact (List.pairwise_map.mp (ih name)).imp fun h => .cons h
      · refine (Finset.sortedLT_sort names).pairwise.imp ?_
        intro a b hab x hx y hy
        simp only [List.map_map, List.mem_map] at hx hy
        obtain ⟨p, _, rfl⟩ := hx
        obtain ⟨q, _, rfl⟩ := hy
        exact .rel hab

/-- Where no directory is empty, there is a value. -/
theorem exists_value {t : NameTree K V}
    (nonempty : ∀ path names child, t.get path = some (.directory names child) → names.Nonempty) :
    ∃ path v, t.get path = some (.value v) := by
  induction t with
  | value v => exact ⟨[], v, rfl⟩
  | directory names child ih =>
      obtain ⟨name, hname⟩ := nonempty [] names child rfl
      have below : ∀ path, (directory names child).get (name :: path) = (child name).get path := by
        intro path
        rw [get_directory_cons, if_pos hname]
      obtain ⟨path, v, hv⟩ := ih name fun path names' child' h =>
        nonempty (name :: path) names' child' ((below path).trans h)
      exact ⟨name :: path, v, (below path).trans hv⟩

end NameTree

end NodeFuzzer
