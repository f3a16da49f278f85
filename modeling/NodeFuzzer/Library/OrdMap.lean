import Mathlib.Algebra.GroupWithZero.Nat
import Mathlib.Order.Lattice
import Mathlib.Data.List.Basic
import Mathlib.Data.List.Pairwise

/-!
# Ordered maps as sorted association lists

A map from a linearly ordered key type, kept as the list of its entries in
strictly increasing key order.  The order is a field of the structure, so every
map has exactly one representation: two maps that agree on every key are equal
(`OrdMap.ext_get`), and iterating over a map visits its entries in key order.
-/

namespace NodeFuzzer

/-- A finite map with its entries in strictly increasing key order. -/
structure OrdMap (K V : Type) [LinearOrder K] where
  /-- The entries, smallest key first. -/
  entries : List (K × V)
  /-- Keys strictly increase. -/
  sorted : entries.Pairwise (fun p q => p.1 < q.1)

namespace OrdMap

variable {K V W : Type} [LinearOrder K]

instance [DecidableEq V] : DecidableEq (OrdMap K V) := fun m n =>
  decidable_of_iff (m.entries = n.entries) (by
    cases m
    cases n
    simp)

theorem ext_entries {m n : OrdMap K V} (h : m.entries = n.entries) : m = n := by
  cases m
  cases n
  simpa using h

/-- The map without entries. -/
def empty : OrdMap K V := ⟨[], List.Pairwise.nil⟩

instance : Inhabited (OrdMap K V) := ⟨empty⟩

/-- The value at a key, in a list of entries. -/
def find (k : K) : List (K × V) → Option V
  | [] => none
  | p :: rest => if p.1 = k then some p.2 else find k rest

/-- The value at a key. -/
def get (m : OrdMap K V) (k : K) : Option V := find k m.entries

/-- Put an entry in its place, replacing one with the same key. -/
def insertEntry (k : K) (v : V) : List (K × V) → List (K × V)
  | [] => [(k, v)]
  | p :: rest =>
      if k < p.1 then (k, v) :: p :: rest
      else if p.1 = k then (k, v) :: rest
      else p :: insertEntry k v rest

theorem mem_insertEntry {k : K} {v : V} {l : List (K × V)} {p : K × V}
    (h : p ∈ insertEntry k v l) : p = (k, v) ∨ p ∈ l := by
  induction l with
  | nil => simpa [insertEntry] using h
  | cons q rest ih =>
      simp only [insertEntry] at h
      split at h
      · simpa using h
      · split at h
        · rcases List.mem_cons.mp h with h | h
          · exact Or.inl h
          · exact Or.inr (List.mem_cons_of_mem _ h)
        · rcases List.mem_cons.mp h with h | h
          · exact Or.inr (h ▸ List.mem_cons_self)
          · exact (ih h).imp_right (List.mem_cons_of_mem _)

theorem insertEntry_sorted (k : K) (v : V) {l : List (K × V)}
    (h : l.Pairwise (fun p q => p.1 < q.1)) :
    (insertEntry k v l).Pairwise (fun p q => p.1 < q.1) := by
  induction l with
  | nil => simp [insertEntry]
  | cons q rest ih =>
      obtain ⟨hq, hrest⟩ := List.pairwise_cons.mp h
      simp only [insertEntry]
      split
      next hlt =>
        refine List.pairwise_cons.mpr ⟨?_, h⟩
        intro p hp
        rcases List.mem_cons.mp hp with rfl | hp
        · exact hlt
        · exact lt_trans hlt (hq p hp)
      next hnlt =>
        split
        next heq =>
          refine List.pairwise_cons.mpr ⟨?_, hrest⟩
          intro p hp
          exact heq ▸ hq p hp
        next hne =>
          refine List.pairwise_cons.mpr ⟨?_, ih hrest⟩
          intro p hp
          rcases mem_insertEntry hp with rfl | hp
          · exact lt_of_le_of_ne (not_lt.mp hnlt) hne
          · exact hq p hp

/-- An entry with a key above all others goes to the end. -/
theorem insertEntry_last {k : K} {v : V} {l : List (K × V)} (last : ∀ p ∈ l, p.1 < k) :
    insertEntry k v l = l ++ [(k, v)] := by
  induction l with
  | nil => rfl
  | cons p rest ih =>
      have hp := last p List.mem_cons_self
      rw [insertEntry, if_neg hp.asymm, if_neg hp.ne, ih fun q hq => last q (List.mem_cons_of_mem p hq)]
      rfl

/-- Entries in the order of their keys are inserted as they are. -/
theorem foldl_insertEntry {done l : List (K × V)}
    (sorted : (done ++ l).Pairwise fun p q => p.1 < q.1) :
    l.foldl (fun map p => insertEntry p.1 p.2 map) done = done ++ l := by
  induction l generalizing done with
  | nil => simp
  | cons p rest ih =>
      have last := (List.pairwise_append.mp sorted).2.2
      rw [List.foldl_cons, insertEntry_last fun q hq => last q hq p List.mem_cons_self, ih]
      · simp
      · simpa using sorted

/-- Set the value at a key. -/
def insert (m : OrdMap K V) (k : K) (v : V) : OrdMap K V :=
  ⟨insertEntry k v m.entries, insertEntry_sorted k v m.sorted⟩

/-- Drop a key. -/
def remove (m : OrdMap K V) (k : K) : OrdMap K V :=
  ⟨m.entries.filter (fun p => p.1 ≠ k), m.sorted.filter _⟩

/-- The number of entries. -/
def len (m : OrdMap K V) : Nat := m.entries.length

/-- Whether the map has no entry. -/
def isEmpty (m : OrdMap K V) : Bool := m.entries.isEmpty

/-- The keys, smallest first. -/
def keys (m : OrdMap K V) : List K := m.entries.map Prod.fst

/-- Apply a function to every value. -/
def mapValues (f : V → W) (m : OrdMap K V) : OrdMap K W :=
  ⟨m.entries.map (fun p => (p.1, f p.2)), by
    rw [List.pairwise_map]
    exact m.sorted⟩

/-- Apply a function that may fail to every value. -/
def mapOption (f : V → Option W) (m : OrdMap K V) : Option (OrdMap K W) :=
  if h : ∀ p ∈ m.entries, (f p.2).isSome then
    some ⟨m.entries.pmap (fun p hp => (p.1, (f p.2).get hp)) h,
      m.sorted.pmap h fun _ _ _ _ hlt => hlt⟩
  else none

/-- Replace every value by what a function makes of its position. -/
def mapPosition (f : Nat → W) (m : OrdMap K V) : OrdMap K W :=
  ⟨m.entries.mapIdx (fun i p => (p.1, f i)), by
    rw [List.pairwise_iff_getElem]
    intro i j hi hj hij
    simp only [List.getElem_mapIdx]
    exact List.pairwise_iff_getElem.mp m.sorted i j _ _ hij⟩

/-- The map that holds the last value listed for each key. -/
def ofList (l : List (K × V)) : OrdMap K V :=
  l.foldl (fun m p => m.insert p.1 p.2) empty

/-! ## Lookup laws -/

@[simp] theorem get_empty (k : K) : (empty : OrdMap K V).get k = none := rfl

theorem find_insertEntry (k j : K) (v : V) {l : List (K × V)}
    (h : l.Pairwise (fun p q => p.1 < q.1)) :
    find j (insertEntry k v l) = if k = j then some v else find j l := by
  induction l with
  | nil => simp [insertEntry, find]
  | cons q rest ih =>
      obtain ⟨hq, hrest⟩ := List.pairwise_cons.mp h
      simp only [insertEntry]
      split
      · simp [find]
      · split
        next heq =>
          subst heq
          by_cases hkj : q.1 = j <;> simp [find, hkj]
        next hne =>
          simp only [find, ih hrest]
          by_cases hqj : q.1 = j
          · have hkj : k ≠ j := fun hkj => hne (hqj.trans hkj.symm)
            simp [hqj, hkj]
          · simp [hqj]

theorem get_insert (m : OrdMap K V) (k j : K) (v : V) :
    (m.insert k v).get j = if k = j then some v else m.get j :=
  find_insertEntry k j v m.sorted

@[simp] theorem get_insert_self (m : OrdMap K V) (k : K) (v : V) :
    (m.insert k v).get k = some v := by
  simp [get_insert]

theorem find_map_pair (f : K → V) (l : List K) (k : K) :
    find k (l.map fun a => (a, f a)) = if k ∈ l then some (f k) else none := by
  induction l with
  | nil => rfl
  | cons a rest ih =>
      by_cases h : a = k
      · simp [find, h]
      · simp [find, h, ih, Ne.symm h]

theorem find_filter_ne (k j : K) (l : List (K × V)) :
    find j (l.filter (fun p => p.1 ≠ k)) = if k = j then none else find j l := by
  induction l with
  | nil => simp [find]
  | cons q rest ih =>
      by_cases hqk : q.1 = k
      · rw [List.filter_cons_of_neg (by simpa using hqk), ih]
        by_cases hkj : k = j
        · simp [hkj]
        · simp [find, hqk, hkj]
      · rw [List.filter_cons_of_pos (by simpa using hqk)]
        by_cases hqj : q.1 = j
        · have hkj : k ≠ j := fun hkj => hqk (hqj.trans hkj.symm)
          simp [find, hqj, hkj]
        · simp only [find, hqj, if_false, ih]

theorem get_remove (m : OrdMap K V) (k j : K) :
    (m.remove k).get j = if k = j then none else m.get j :=
  find_filter_ne k j m.entries

@[simp] theorem get_remove_self (m : OrdMap K V) (k : K) : (m.remove k).get k = none := by
  simp [get_remove]

theorem find_eq_some_iff {k : K} {v : V} {l : List (K × V)}
    (h : l.Pairwise (fun p q => p.1 < q.1)) : find k l = some v ↔ (k, v) ∈ l := by
  induction l with
  | nil => simp [find]
  | cons q rest ih =>
      obtain ⟨hq, hrest⟩ := List.pairwise_cons.mp h
      simp only [find, List.mem_cons]
      by_cases hqk : q.1 = k
      · constructor
        · intro hv
          have hv' : q.2 = v := by simpa [hqk] using hv
          exact Or.inl (Prod.ext hqk.symm hv'.symm)
        · rintro (rfl | hmem)
          · simp
          · exact absurd (hq (k, v) hmem) (by simp [hqk])
      · have hne : (k, v) ≠ q := fun he => hqk (by rw [← he])
        simp [hqk, ih hrest, hne]

/-- An entry is what a lookup of its key finds. -/
theorem mem_entries {m : OrdMap K V} {k : K} {v : V} :
    (k, v) ∈ m.entries ↔ m.get k = some v :=
  (find_eq_some_iff m.sorted).symm

theorem mem_keys {m : OrdMap K V} {k : K} : k ∈ m.keys ↔ ∃ v, m.get k = some v := by
  constructor
  · intro h
    obtain ⟨p, hp, rfl⟩ := List.mem_map.mp h
    exact ⟨p.2, mem_entries.mp hp⟩
  · rintro ⟨v, h⟩
    exact List.mem_map.mpr ⟨(k, v), mem_entries.mpr h, rfl⟩

theorem keys_nodup (m : OrdMap K V) : m.keys.Nodup := by
  unfold keys List.Nodup
  rw [List.pairwise_map]
  exact m.sorted.imp (fun h => ne_of_lt h)

theorem sorted_ext {l l' : List (K × V)} (h : l.Pairwise (fun p q => p.1 < q.1))
    (h' : l'.Pairwise (fun p q => p.1 < q.1)) (hmem : ∀ p, p ∈ l ↔ p ∈ l') : l = l' := by
  have nd : ∀ {l : List (K × V)}, l.Pairwise (fun p q => p.1 < q.1) → l.Nodup := fun hl =>
    hl.imp (fun {p q} hlt heq => by
      subst heq
      exact lt_irrefl _ hlt)
  refine List.Perm.eq_of_pairwise ?_ h h' ((List.perm_ext_iff_of_nodup (nd h) (nd h')).mpr hmem)
  intro p q _ _ hpq hqp
  exact absurd (lt_trans hpq hqp) (lt_irrefl _)

/-- A map is determined by its lookups. -/
theorem ext_get {m n : OrdMap K V} (h : ∀ k, m.get k = n.get k) : m = n := by
  refine ext_entries (sorted_ext m.sorted n.sorted ?_)
  rintro ⟨k, v⟩
  rw [mem_entries, mem_entries, h k]

@[simp] theorem get_mapValues (f : V → W) (m : OrdMap K V) (k : K) :
    (m.mapValues f).get k = (m.get k).map f := by
  have hfind : ∀ l : List (K × V),
      find k (l.map (fun p => (p.1, f p.2))) = (find k l).map f := by
    intro l
    induction l with
    | nil => rfl
    | cons p rest ih =>
        simp only [List.map_cons, find, ih]
        split <;> rfl
  exact hfind m.entries

theorem mapOption_eq_some {f : V → Option W} {m : OrdMap K V} {n : OrdMap K W} :
    m.mapOption f = some n ↔ n.mapValues some = m.mapValues f := by
  have values : ∀ h : ∀ p ∈ m.entries, (f p.2).isSome,
      (m.entries.pmap (fun p hp => (p.1, (f p.2).get hp)) h).map (fun p => (p.1, some p.2)) =
        m.entries.map fun p => (p.1, f p.2) := by
    intro h
    rw [List.map_pmap]
    simp only [Option.some_get]
    exact List.pmap_eq_map ..
  unfold mapOption
  constructor
  · intro h
    split at h
    next hall =>
      cases h
      exact ext_entries (values hall)
    next => cases h
  · intro h
    have entries : n.entries.map (fun p => (p.1, some p.2)) = m.entries.map fun p => (p.1, f p.2) :=
      congrArg OrdMap.entries h
    have hall : ∀ p ∈ m.entries, (f p.2).isSome := by
      intro p hp
      have hmem : (p.1, f p.2) ∈ n.entries.map (fun p => (p.1, some p.2)) := by
        rw [entries]
        exact List.mem_map.mpr ⟨p, hp, rfl⟩
      obtain ⟨q, _, hq⟩ := List.mem_map.mp hmem
      have := (Prod.ext_iff.mp hq).2
      simp only at this
      rw [← this]
      rfl
    rw [dif_pos hall]
    refine congrArg some (ext_entries ?_)
    have injective : Function.Injective fun p : K × W => (p.1, some p.2) := by
      intro p q hpq
      simp only [Prod.mk.injEq, Option.some.injEq] at hpq
      exact Prod.ext hpq.1 hpq.2
    apply injective.list_map
    rw [entries]
    exact values hall

theorem mem_mapPosition {f : Nat → W} {m : OrdMap K V} {q : K × W} :
    q ∈ (m.mapPosition f).entries ↔
      ∃ i : Nat, ∃ v, m.entries[i]? = some (q.1, v) ∧ q.2 = f i := by
  rw [mapPosition, List.mem_mapIdx]
  constructor
  · rintro ⟨i, hi, rfl⟩
    exact ⟨i, m.entries[i].2, by rw [List.getElem?_eq_getElem hi], rfl⟩
  · rintro ⟨i, v, hv, hq⟩
    obtain ⟨hi, hget⟩ := List.getElem?_eq_some_iff.mp hv
    exact ⟨i, hi, by rw [hget, ← hq]⟩

theorem isEmpty_iff {m : OrdMap K V} : m.isEmpty = true ↔ ∀ k, m.get k = none := by
  constructor
  · intro h k
    rw [isEmpty, List.isEmpty_iff] at h
    simp [get, h, find]
  · intro h
    have hm : m = empty := ext_get (by simpa using h)
    rw [hm]
    rfl

theorem isEmpty_eq_false_iff {m : OrdMap K V} :
    m.isEmpty = false ↔ ∃ k v, m.get k = some v := by
  rw [← Bool.not_eq_true, isEmpty_iff]
  simp [Option.ne_none_iff_exists', not_forall]

/-! ## Sums over the entries -/

theorem sum_filter_le {α : Type} (f : α → Nat) (p : α → Bool) (l : List α) :
    ((l.filter p).map f).sum ≤ (l.map f).sum := by
  induction l with
  | nil => exact Nat.le_refl _
  | cons a l ih =>
      rw [List.filter_cons]
      split
      · simpa using ih
      · simp only [List.map_cons, List.sum_cons]
        exact Nat.le_add_left_of_le ih

theorem sum_filter_add_le {α : Type} (f : α → Nat) {p : α → Bool} {l : List α} {a : α}
    (mem : a ∈ l) (out : p a = false) : ((l.filter p).map f).sum + f a ≤ (l.map f).sum := by
  induction l with
  | nil => exact absurd mem List.not_mem_nil
  | cons b l ih =>
      rcases List.mem_cons.mp mem with rfl | mem
      · rw [List.filter_cons_of_neg (by simp [out]), List.map_cons, List.sum_cons, Nat.add_comm]
        exact Nat.add_le_add_left (sum_filter_le f p l) _
      · have rest := ih mem
        rw [List.filter_cons]
        split
        · simp only [List.map_cons, List.sum_cons]
          omega
        · simp only [List.map_cons, List.sum_cons]
          omega

/-- A key that leaves takes its share of a sum over the entries with it. -/
theorem sum_remove_le (f : K × V → Nat) (m : OrdMap K V) (k : K) :
    ((m.remove k).entries.map f).sum ≤ (m.entries.map f).sum := sum_filter_le f _ m.entries

theorem sum_remove_add_le (f : K × V → Nat) {m : OrdMap K V} {k : K} {v : V}
    (here : m.get k = some v) :
    ((m.remove k).entries.map f).sum + f (k, v) ≤ (m.entries.map f).sum :=
  sum_filter_add_le f (mem_entries.mpr here) (by simp)

end OrdMap

end NodeFuzzer
