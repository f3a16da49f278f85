import Mathlib.Data.Finset.Card
import Mathlib.Data.List.FinRange
import NodeFuzzer.Context.Types
import NodeFuzzer.Context.OcamlHash

/-!
# Hashes of directories

What the hash of a directory is a hash of.  A directory of at most 256 entries is
hashed as the list of its bindings.  A larger one is first split into inodes: lists
of more than 32 entries are divided by the `index` of their names at each depth,
until every list is short enough to be a value.

`Partitions` is that division as a relation on the whole tree of inodes, and
`Partition.hash` the hash of such a tree; `partitionEntries` computes both at once
over a store.  A list can be divided when no 33 of its names agree at all depths
(`exists_partitions_iff`), the values of a partition hold every entry once
(`Partitions.leaves_perm`), and equal hashes come from equal bindings as long as
BLAKE2b does not collide on the strings hashed (`TreeHash.binding`).
-/

namespace NodeFuzzer

/-- The 32-bit index by which a name is sorted at a depth. -/
def index (depth : UInt32) (name : KeyFragment) : Option UInt32 :=
  (ocamlHashString depth (utf8 name)).map (· % 32)

/-- `ocaml_hash_string` returns on the name. -/
def Hashable (name : KeyFragment) : Prop := (utf8 name).length % 2 ^ 32 < 2 ^ 32 - 4

instance (name : KeyFragment) : Decidable (Hashable name) := inferInstanceAs (Decidable (_ < _))

theorem index_isSome (depth : UInt32) (name : KeyFragment) :
    (index depth name).isSome ↔ Hashable name := by
  rw [index, Option.isSome_map, ocamlHashString_isSome]
  rfl

theorem index_lt {depth i : UInt32} {name : KeyFragment} (h : index depth name = some i) :
    i.toNat < 32 := by
  obtain ⟨n, _, rfl⟩ := Option.map_eq_some_iff.mp h
  rw [UInt32.toNat_mod]
  exact Nat.mod_lt _ (by decide)

/-- The entries with index `i`.  `none` when the hash of a name does not return. -/
def atIndex {α : Type} (depth : UInt32) (i : Nat) :
    List (KeyFragment × α) → Option (List (KeyFragment × α))
  | [] => some []
  | p :: rest => do
      let j ← index depth p.1
      let tail ← atIndex depth i rest
      pure (if j.toNat = i then p :: tail else tail)

section AtIndex

variable {α β : Type} {depth : UInt32} {i : Nat} {entries sub : List (KeyFragment × α)}

/-- Whether a name has index `i` at a depth. -/
def hasIndex (depth : UInt32) (i : Nat) (name : KeyFragment) : Bool :=
  (index depth name).map UInt32.toNat = some i

theorem atIndex_eq (h : ∀ p ∈ entries, Hashable p.1) :
    atIndex depth i entries = some (entries.filter fun p => hasIndex depth i p.1) := by
  induction entries with
  | nil => rfl
  | cons p rest ih =>
      have hrest := ih fun q hq => h q (List.mem_cons_of_mem _ hq)
      obtain ⟨j, hj⟩ := Option.isSome_iff_exists.mp
        ((index_isSome depth p.1).mpr (h p List.mem_cons_self))
      have hhas : hasIndex depth i p.1 = decide (j.toNat = i) := by simp [hasIndex, hj]
      simp only [atIndex, hj, hrest, List.filter_cons, hhas]
      by_cases hi : j.toNat = i <;> simp [hi]

theorem hashable_of_atIndex (h : atIndex depth i entries = some sub) :
    ∀ p ∈ entries, Hashable p.1 := by
  induction entries generalizing sub with
  | nil => exact fun _ hp => absurd hp List.not_mem_nil
  | cons q rest ih =>
      simp only [atIndex, Option.bind_eq_bind, Option.bind_eq_some_iff] at h
      obtain ⟨j, hj, tail, htail, _⟩ := h
      rintro p (_ | ⟨_, hp⟩)
      · exact (index_isSome depth q.1).mp (Option.isSome_iff_exists.mpr ⟨j, hj⟩)
      · exact ih htail p hp

theorem atIndex_eq_some_iff :
    atIndex depth i entries = some sub ↔
      (∀ p ∈ entries, Hashable p.1) ∧ sub = entries.filter fun p => hasIndex depth i p.1 := by
  constructor
  · intro h
    have hall := hashable_of_atIndex h
    rw [atIndex_eq hall] at h
    exact ⟨hall, (Option.some.inj h).symm⟩
  · rintro ⟨hall, rfl⟩
    exact atIndex_eq hall

theorem atIndex_map (f : α → β) :
    atIndex depth i (entries.map fun p => (p.1, f p.2)) =
      (atIndex depth i entries).map fun l => l.map fun p => (p.1, f p.2) := by
  induction entries with
  | nil => rfl
  | cons p rest ih =>
      simp only [List.map_cons, atIndex, ih]
      cases index depth p.1 with
      | none => rfl
      | some j =>
          cases atIndex depth i rest with
          | none => rfl
          | some tail => by_cases hj : j.toNat = i <;> simp [hj]

end AtIndex

/-! ## Partitions -/

/-- An inode with everything below it.  The children that are no pointers are `empty`. -/
inductive Partition (α : Type) where
  | empty
  | value (entries : List (KeyFragment × α))
  | tree (depth : UInt32) (children : Nat) (child : Fin 32 → Partition α)

/-- The division of a list of entries that `partition_entries` makes. -/
inductive Partitions {α : Type} : UInt32 → List (KeyFragment × α) → Partition α → Prop
  | empty (depth : UInt32) : Partitions depth [] .empty
  | value (depth : UInt32) {entries : List (KeyFragment × α)} (ne : entries ≠ [])
      (short : entries.length ≤ 32) : Partitions depth entries (.value entries)
  | tree {depth : UInt32} {entries : List (KeyFragment × α)}
      {sub : Fin 32 → List (KeyFragment × α)} {child : Fin 32 → Partition α}
      (long : 32 < entries.length) (next : depth.toNat + 1 < 2 ^ 32)
      (split : ∀ i : Fin 32, atIndex depth i entries = some (sub i))
      (below : ∀ i, Partitions (depth + 1) (sub i) (child i)) :
      Partitions depth entries (.tree depth entries.length child)

namespace Partitions

variable {α : Type} {depth : UInt32} {entries : List (KeyFragment × α)}

theorem unique {p q : Partition α} (hp : Partitions depth entries p)
    (hq : Partitions depth entries q) : p = q := by
  induction hp generalizing q with
  | empty depth =>
      cases hq with
      | empty => rfl
      | value _ ne _ => exact absurd rfl ne
      | tree long _ _ _ => simp at long
  | value depth ne short =>
      cases hq with
      | empty => exact absurd rfl ne
      | value => rfl
      | tree long _ _ _ => omega
  | tree long next split below ih =>
      cases hq with
      | empty => simp at long
      | value _ _ short => omega
      | tree _ _ split' below' =>
          congr 1
          funext i
          refine ih i ?_
          rw [Option.some.inj ((split i).symm.trans (split' i))]
          exact below' i

/-- Entries that are too many to be a value are divided part by part. -/
theorem split {p : Partition α} (h : Partitions depth entries p) (long : 32 < entries.length) :
    depth.toNat + 1 < 2 ^ 32 ∧ ∀ i : Fin 32,
      ∃ sub q, atIndex depth i entries = some sub ∧ Partitions (depth + 1) sub q := by
  cases h with
  | empty => simp at long
  | value _ _ short => omega
  | tree _ next split below => exact ⟨next, fun i => ⟨_, _, split i, below i⟩⟩

end Partitions

section ChildAt

variable {α : Type} {depth : UInt32} {entries : List (KeyFragment × α)}

instance : Nonempty (Partition α) := ⟨.empty⟩

/-- The part with index `i`, divided. -/
noncomputable def childAt (depth : UInt32) (entries : List (KeyFragment × α)) (i : Fin 32) :
    Partition α :=
  Classical.epsilon fun p => ∃ sub, atIndex depth i entries = some sub ∧
    Partitions (depth + 1) sub p

theorem childAt_eq {i : Fin 32} {sub : List (KeyFragment × α)} {p : Partition α}
    (split : atIndex depth i entries = some sub) (partitions : Partitions (depth + 1) sub p) :
    childAt depth entries i = p := by
  obtain ⟨sub', split', partitions'⟩ := Classical.epsilon_spec
    (p := fun p => ∃ sub, atIndex depth i entries = some sub ∧ Partitions (depth + 1) sub p)
    ⟨p, sub, split, partitions⟩
  rw [split] at split'
  cases split'
  exact partitions'.unique partitions

end ChildAt

/-- Change what stands at the names. -/
def Partition.map {α β : Type} (f : α → β) : Partition α → Partition β
  | .empty => .empty
  | .value entries => .value (entries.map fun p => (p.1, f p.2))
  | .tree depth children child => .tree depth children fun i => (child i).map f

namespace Partitions

variable {α β : Type} {depth : UInt32} {entries : List (KeyFragment × α)}

/-- The division depends on the names only. -/
theorem map (f : α → β) {p : Partition α} (h : Partitions depth entries p) :
    Partitions depth (entries.map fun e => (e.1, f e.2)) (p.map f) := by
  induction h with
  | empty depth => exact .empty depth
  | value depth ne short => exact .value depth (by simpa using ne) (by simpa using short)
  | @tree depth entries sub child long next split below ih =>
      have hlen : (entries.map fun e => (e.1, f e.2)).length = entries.length :=
        List.length_map _
      have hsplit : ∀ i : Fin 32, atIndex depth i (entries.map fun e => (e.1, f e.2)) =
          some ((sub i).map fun e => (e.1, f e.2)) := by
        intro i
        rw [atIndex_map, split i]
        rfl
      show Partitions _ _ (.tree depth entries.length fun i => (child i).map f)
      rw [← hlen]
      exact .tree (by rw [hlen]; exact long) next hsplit ih

theorem of_map (f : α → β) {p : Partition β}
    (h : Partitions depth (entries.map fun e => (e.1, f e.2)) p) :
    ∃ q, Partitions depth entries q := by
  generalize hmap : entries.map (fun e => (e.1, f e.2)) = mapped at h
  induction h generalizing entries with
  | empty depth =>
      rw [List.map_eq_nil_iff.mp hmap]
      exact ⟨_, .empty depth⟩
  | value depth ne short =>
      subst hmap
      exact ⟨_, .value depth (by simpa using ne) (by simpa using short)⟩
  | @tree depth mapped sub child long next split below ih =>
      subst hmap
      have hsome : ∀ i : Fin 32, ∃ l, atIndex depth i entries = some l ∧
          l.map (fun e => (e.1, f e.2)) = sub i := by
        intro i
        have hsplit := split i
        rw [atIndex_map] at hsplit
        exact Option.map_eq_some_iff.mp hsplit
      choose part hpart hsub using hsome
      choose q hq using fun i => ih i (hsub i)
      exact ⟨_, .tree (by simpa using long) next hpart hq⟩

end Partitions

/-- Two names have the same index at every depth from `depth` on that is left before
the counter ends. -/
def Agree (depth : UInt32) (a b : KeyFragment) : Prop :=
  ∀ d : UInt32, depth.toNat ≤ d.toNat → d.toNat + 1 < 2 ^ 32 → index d a = index d b

/-- No 33 names agree. -/
def Separable (depth : UInt32) (names : List KeyFragment) : Prop :=
  ∀ group : Finset KeyFragment, (∀ a ∈ group, a ∈ names) →
    (∀ a ∈ group, ∀ b ∈ group, Agree depth a b) → group.card ≤ 32

section Separable

variable {α : Type} {depth : UInt32}

theorem toNat_succ {depth : UInt32} (next : depth.toNat + 1 < 2 ^ 32) :
    (depth + 1).toNat = depth.toNat + 1 := by
  rw [UInt32.toNat_add]
  exact Nat.mod_eq_of_lt next

theorem Agree.succ {a b : KeyFragment} (next : depth.toNat + 1 < 2 ^ 32)
    (h : Agree depth a b) : Agree (depth + 1) a b := by
  intro d hd hlt
  rw [toNat_succ next] at hd
  exact h d (by omega) hlt

theorem Agree.of_succ {a b : KeyFragment} (next : depth.toNat + 1 < 2 ^ 32)
    (here : index depth a = index depth b) (h : Agree (depth + 1) a b) : Agree depth a b := by
  intro d hd hlt
  rcases Nat.eq_or_lt_of_le hd with heq | hlt'
  · rw [← UInt32.toNat_inj.mp heq]
    exact here
  · exact h d (by rw [toNat_succ next]; omega) hlt

theorem Separable.length_le {names : List KeyFragment} (nodup : names.Nodup)
    (h : Separable depth names) (last : ¬ depth.toNat + 1 < 2 ^ 32) : names.length ≤ 32 := by
  rw [← List.toFinset_card_of_nodup nodup]
  refine h _ (fun a ha => List.mem_toFinset.mp ha) ?_
  intro a _ b _ d hd hlt
  omega

theorem hasIndex_iff {i : Nat} {name : KeyFragment} :
    hasIndex depth i name = true ↔ ∃ j, index depth name = some j ∧ j.toNat = i := by
  simp [hasIndex, Option.map_eq_some_iff]

theorem index_eq_of_hasIndex {i : Nat} {a b : KeyFragment} (ha : hasIndex depth i a = true)
    (hb : hasIndex depth i b = true) : index depth a = index depth b := by
  obtain ⟨j, hj, rfl⟩ := hasIndex_iff.mp ha
  obtain ⟨k, hk, heq⟩ := hasIndex_iff.mp hb
  rw [hj, hk, UInt32.toNat_inj.mp heq]

theorem mem_names_filter {i : Nat} {entries : List (KeyFragment × α)} {a : KeyFragment} :
    a ∈ (entries.filter fun p => hasIndex depth i p.1).map Prod.fst ↔
      a ∈ entries.map Prod.fst ∧ hasIndex depth i a = true := by
  simp only [List.mem_map, List.mem_filter]
  constructor
  · rintro ⟨p, ⟨hp, hi⟩, rfl⟩
    exact ⟨⟨p, hp, rfl⟩, hi⟩
  · rintro ⟨⟨p, hp, rfl⟩, hi⟩
    exact ⟨p, ⟨hp, hi⟩, rfl⟩

/-- Names that agree fall into one part, which is divided further. -/
theorem separable_of_parts {entries : List (KeyFragment × α)}
    (next : depth.toNat + 1 < 2 ^ 32) (hashable : ∀ p ∈ entries, Hashable p.1)
    (parts : ∀ i : Fin 32, ((entries.filter fun p => hasIndex depth i p.1).length ≤ 32 ∨
      Separable (depth + 1) ((entries.filter fun p => hasIndex depth i p.1).map Prod.fst))) :
    Separable depth (entries.map Prod.fst) := by
  intro group hsub hagree
  rcases group.eq_empty_or_nonempty with rfl | ⟨a, ha⟩
  · simp
  obtain ⟨p, hp, rfl⟩ := List.mem_map.mp (hsub a ha)
  obtain ⟨j, hj⟩ := Option.isSome_iff_exists.mp ((index_isSome depth p.1).mpr (hashable p hp))
  have hpart : ∀ b ∈ group,
      b ∈ (entries.filter fun p => hasIndex depth j.toNat p.1).map Prod.fst := by
    intro b hb
    refine mem_names_filter.mpr ⟨hsub b hb, hasIndex_iff.mpr ⟨j, ?_, rfl⟩⟩
    rw [← hj]
    exact hagree b hb p.1 ha depth (le_refl _) next
  rcases parts ⟨j.toNat, index_lt hj⟩ with hlen | hsep
  · have hcard := Finset.card_le_card (fun b hb => List.mem_toFinset.mpr (hpart b hb))
    have hlist := List.toFinset_card_le
      ((entries.filter fun p => hasIndex depth j.toNat p.1).map Prod.fst)
    rw [List.length_map] at hlist
    exact le_trans hcard (le_trans hlist hlen)
  · exact hsep group hpart fun b hb c hc => (hagree b hb c hc).succ next

theorem Separable.part {entries : List (KeyFragment × α)} (next : depth.toNat + 1 < 2 ^ 32)
    (h : Separable depth (entries.map Prod.fst)) (i : Nat) :
    Separable (depth + 1) ((entries.filter fun p => hasIndex depth i p.1).map Prod.fst) := by
  intro group hsub hagree
  refine h group (fun a ha => (mem_names_filter.mp (hsub a ha)).1) ?_
  intro a ha b hb
  have ha' := (mem_names_filter.mp (hsub a ha)).2
  have hb' := (mem_names_filter.mp (hsub b hb)).2
  exact (hagree a ha b hb).of_succ next (index_eq_of_hasIndex ha' hb')

/-- A list of entries can be divided when it is short, or when its names can be
hashed and no 33 of them agree. -/
theorem exists_partitions_iff {entries : List (KeyFragment × α)}
    (nodup : (entries.map Prod.fst).Nodup) :
    (∃ p, Partitions depth entries p) ↔
      entries.length ≤ 32 ∨
        (∀ p ∈ entries, Hashable p.1) ∧ Separable depth (entries.map Prod.fst) := by
  -- Induction on the depths that are left.
  obtain ⟨left, hleft⟩ : ∃ left, left = 2 ^ 32 - depth.toNat := ⟨_, rfl⟩
  induction left generalizing depth entries with
  | zero =>
      have := depth.toNat_lt
      omega
  | succ left ih =>
      have part : ∀ {i : Nat}, depth.toNat + 1 < 2 ^ 32 →
          ((∃ p, Partitions (depth + 1) (entries.filter fun p => hasIndex depth i p.1) p) ↔ _) :=
        fun {i} next => @ih (depth + 1) (entries.filter fun p => hasIndex depth i p.1)
          (nodup.sublist (List.filter_sublist.map _)) (by rw [toNat_succ next]; omega)
      constructor
      · rintro ⟨p, hp⟩
        cases hp with
        | empty => exact Or.inl (Nat.zero_le _)
        | value _ _ short => exact Or.inl short
        | @tree _ _ sub child long next split below =>
            have hashable := hashable_of_atIndex (split 0)
            refine Or.inr ⟨hashable, separable_of_parts next hashable ?_⟩
            intro i
            obtain ⟨_, hsub⟩ := atIndex_eq_some_iff.mp (split i)
            exact ((part next).mp ⟨child i, hsub ▸ below i⟩).imp_right And.right
      · rintro (short | ⟨hashable, separable⟩)
        · rcases eq_or_ne entries [] with rfl | ne
          · exact ⟨.empty, .empty depth⟩
          · exact ⟨.value entries, .value depth ne short⟩
        · by_cases long : 32 < entries.length
          · have next : depth.toNat + 1 < 2 ^ 32 := by
              by_contra last
              have := separable.length_le nodup last
              rw [List.length_map] at this
              omega
            have below : ∀ i : Fin 32, ∃ p, Partitions (depth + 1)
                (entries.filter fun p => hasIndex depth i p.1) p := by
              intro i
              refine (part next).mpr (Or.inr ⟨?_, separable.part next i⟩)
              exact fun p hp => hashable p (List.mem_of_mem_filter hp)
            choose child hchild using below
            exact ⟨_, .tree long next (fun i => atIndex_eq hashable) hchild⟩
          · rcases eq_or_ne entries [] with rfl | ne
            · exact ⟨.empty, .empty depth⟩
            · exact ⟨.value entries, .value depth ne (by omega)⟩

end Separable

/-! ## Names that agree -/

/-- Two words of eight bytes that change the state of the hash alike. -/
def collidingWord : Bool → String
  | true => "!CB!+++l"
  | false => "ɡ!,++z0"

/-- The names made of such words. -/
def collidingName : List Bool → KeyFragment
  | [] => ""
  | b :: rest => collidingWord b ++ collidingName rest

theorem utf8_collidingName (bits : List Bool) :
    utf8 (collidingName bits) = bits.flatMap fun b => utf8 (collidingWord b) := by
  induction bits with
  | nil => rfl
  | cons b rest ih =>
      rw [collidingName, utf8_append, ih, List.flatMap_cons]

theorem utf8_collidingWord_length (b : Bool) : (utf8 (collidingWord b)).length = 8 := by
  cases b <;> decide +kernel

theorem collidingWord_advances (b : Bool) : Advances (utf8 (collidingWord b)) fun h =>
    mix (mix h (ofLe [0x21, 0x43, 0x42, 0x21])) (ofLe [0x2b, 0x2b, 0x2b, 0x6c]) := by
  cases b with
  | true =>
      have hbytes : utf8 (collidingWord true) =
          [0x21, 0x43, 0x42, 0x21, 0x2b, 0x2b, 0x2b, 0x6c] := by decide +kernel
      rw [hbytes]
      exact Advances.words 0x21 0x43 0x42 0x21 0x2b 0x2b 0x2b 0x6c
  | false =>
      have hbytes : utf8 (collidingWord false) =
          [0xc9, 0xa1, 0x21, 0x2c, 0x2b, 0x2b, 0x7a, 0x30] := by decide +kernel
      rw [hbytes, funext (mix_mix_eq _ _ (ofLe [0xc9, 0xa1, 0x21, 0x2c])
        (ofLe [0x2b, 0x2b, 0x7a, 0x30]) (by decide) (by decide))]
      exact Advances.words 0xc9 0xa1 0x21 0x2c 0x2b 0x2b 0x7a 0x30

theorem utf8_collidingName_length (bits : List Bool) :
    (utf8 (collidingName bits)).length = 8 * bits.length := by
  rw [utf8_collidingName, List.length_flatMap]
  simp [utf8_collidingWord_length]
  omega

theorem collidingName_advances {f : UInt32 → UInt32}
    (word : ∀ b, Advances (utf8 (collidingWord b)) f) (bits : List Bool) :
    Advances (utf8 (collidingName bits)) f^[bits.length] := by
  induction bits with
  | nil => exact Advances.nil
  | cons b rest ih =>
      rw [collidingName, utf8_append, List.length_cons, Function.iterate_succ]
      exact (word b).append ih

/-- Names of equally many words agree at every depth. -/
theorem collidingName_agree {bits bits' : List Bool} (length : bits.length = bits'.length)
    (short : bits.length < 2 ^ 29) (depth : UInt32) :
    Agree depth (collidingName bits) (collidingName bits') := by
  intro d _ _
  have hadv := collidingName_advances collidingWord_advances bits
  have hadv' := collidingName_advances collidingWord_advances bits'
  rw [← length] at hadv'
  have hlen := utf8_collidingName_length bits
  rw [index, index, hadv.ocamlHashString_eq hadv'
    (by rw [hlen, utf8_collidingName_length, length]) (by omega)]

theorem collidingName_injective {bits bits' : List Bool} (length : bits.length = bits'.length)
    (h : collidingName bits = collidingName bits') : bits = bits' := by
  have delimited : Delimited (fun _ => True) fun b => utf8 (collidingWord b) := by
    intro b b' r r' _ _ h
    obtain ⟨hword, hr⟩ := List.append_inj h
      ((utf8_collidingWord_length b).trans (utf8_collidingWord_length b').symm)
    refine ⟨?_, hr⟩
    cases b <;> cases b' <;> first | rfl | exact absurd hword (by decide +kernel)
  have hbytes := congrArg utf8 h
  rw [utf8_collidingName, utf8_collidingName, ← List.append_nil (bits.flatMap _),
    ← List.append_nil (bits'.flatMap _)] at hbytes
  exact (delimited.flatMap_inj length (fun _ _ => trivial) (fun _ _ => trivial) hbytes).1

/-! ## The values of a partition -/

/-- Sorting a list by an index keeps every element once. -/
theorem flatMap_filter_perm {α : Type} {n : Nat} (key : α → Fin n) (l : List α) :
    ((List.finRange n).flatMap fun i => l.filter fun a => key a = i).Perm l := by
  induction l with
  | nil => simp
  | cons a rest ih =>
      have hsplit := List.perm_cons_erase (List.mem_finRange (key a))
      have hother : ((List.finRange n).erase (key a)).flatMap
            (fun i => (a :: rest).filter fun b => key b = i) =
          ((List.finRange n).erase (key a)).flatMap
            (fun i => rest.filter fun b => key b = i) := by
        apply List.flatMap_congr
        intro i hi
        have hne : key a ≠ i := fun heq =>
          (List.Nodup.not_mem_erase (List.nodup_finRange n)) (heq ▸ hi)
        simp [hne]
      refine (hsplit.flatMap_right _).trans ?_
      rw [List.flatMap_cons, hother, List.filter_cons_of_pos (by simp), List.cons_append]
      refine List.Perm.cons a ?_
      refine List.Perm.trans ?_ ih
      rw [← List.flatMap_cons (f := fun i => rest.filter fun b => key b = i)]
      exact hsplit.symm.flatMap_right _

/-- The values, in the order of their indices. -/
def Partition.leaves {α : Type} : Partition α → List (List (KeyFragment × α))
  | .empty => []
  | .value entries => [entries]
  | .tree _ _ child => (List.finRange 32).flatMap fun i => (child i).leaves

/-- The values hold every entry once. -/
theorem Partitions.leaves_perm {α : Type} {depth : UInt32} {entries : List (KeyFragment × α)}
    {p : Partition α} (h : Partitions depth entries p) : p.leaves.flatten.Perm entries := by
  induction h with
  | empty depth => exact List.Perm.refl _
  | value depth ne short => simp [Partition.leaves]
  | @tree depth entries sub child long next split below ih =>
      have hashable := hashable_of_atIndex (split 0)
      have hsome : ∀ p ∈ entries, ∃ j, index depth p.1 = some j := fun p hp =>
        Option.isSome_iff_exists.mp ((index_isSome depth p.1).mpr (hashable p hp))
      let key (p : KeyFragment × α) : Fin 32 :=
        ⟨((index depth p.1).getD 0).toNat % 32, Nat.mod_lt _ (by decide)⟩
      have hsub : ∀ i, sub i = entries.filter fun p => key p = i := by
        intro i
        obtain ⟨_, hsub⟩ := atIndex_eq_some_iff.mp (split i)
        rw [hsub]
        apply List.filter_congr
        intro p hp
        obtain ⟨j, hj⟩ := hsome p hp
        have hmod : j.toNat % 32 = j.toNat := Nat.mod_eq_of_lt (index_lt hj)
        simp [hasIndex, key, hj, Fin.ext_iff, hmod]
      have hflat : (Partition.tree depth entries.length child).leaves.flatten =
          (List.finRange 32).flatMap fun i => (child i).leaves.flatten := by
        rw [Partition.leaves, ← List.flatMap_id, List.flatMap_assoc]
        simp only [List.flatMap_id]
      rw [hflat]
      refine List.Perm.trans (List.Perm.flatMap_left _ fun i _ => ih i) ?_
      have := flatMap_filter_perm key entries
      simpa only [← hsub] using this

/-- Every entry lies in exactly one value. -/
theorem Partitions.existsUnique_leaf {α : Type} {depth : UInt32}
    {entries : List (KeyFragment × α)} {p : Partition α} (h : Partitions depth entries p)
    (nodup : (entries.map Prod.fst).Nodup) {e : KeyFragment × α} (he : e ∈ entries) :
    ∃! k : Fin p.leaves.length, e ∈ p.leaves.get k := by
  have hperm := h.leaves_perm
  have hnodup : p.leaves.flatten.Nodup := hperm.nodup_iff.mpr (List.Nodup.of_map _ nodup)
  obtain ⟨_, hdisjoint⟩ := List.nodup_flatten.mp hnodup
  obtain ⟨leaf, hleaf, hmem⟩ := List.mem_flatten.mp (hperm.mem_iff.mpr he)
  obtain ⟨k, rfl⟩ := List.mem_iff_get.mp hleaf
  refine ⟨k, hmem, ?_⟩
  intro k' hk'
  rcases lt_trichotomy k k' with hlt | heq | hlt
  · exact absurd hk' (List.pairwise_iff_get.mp hdisjoint k k' hlt hmem)
  · exact heq.symm
  · exact absurd hmem (List.pairwise_iff_get.mp hdisjoint k' k hlt hk')

/-! ## The strings that are hashed -/

/-- A name of a directory with the kind and the hash of its node. -/
abbrev Binding : Type := KeyFragment × NodeKind × EntryHash

/-- `encode_irmin_node_kind`. -/
def encodeIrminNodeKind : NodeKind → Bytes
  | .nonLeaf => [0, 0, 0, 0, 0, 0, 0, 0]
  | .leaf => [255, 0, 0, 0, 0, 0, 0, 0]

/-- The kind of a node in an inode value. -/
def kindByte : NodeKind → UInt8
  | .leaf => 1
  | .nonLeaf => 0

/-- A name after its length. -/
def nameBytes (name : KeyFragment) : Bytes := leb128 ((utf8 name).length % 2 ^ 64) ++ utf8 name

/-- An entry of an inode value. -/
def valueEntry (b : Binding) : Bytes := nameBytes b.1 ++ kindByte b.2.1 :: b.2.2.bytes

/-- An entry of a node list. -/
def nodeEntry (b : Binding) : Bytes :=
  encodeIrminNodeKind b.2.1 ++ (nameBytes b.1 ++ (toBe 8 ENTRY_HASH_LEN ++ b.2.2.bytes))

/-- A pointer of an inode tree. -/
def pointerEntry (p : Nat × EntryHash) : Bytes := UInt8.ofNat p.1 :: p.2.bytes

/-- What is hashed of a directory of at most 256 entries. -/
def shortString (bindings : List Binding) : Bytes :=
  toBe 8 bindings.length ++ bindings.flatMap nodeEntry

/-- What is hashed of an inode value. -/
def valueString (bindings : List Binding) : Bytes :=
  0 :: UInt8.ofNat bindings.length :: bindings.flatMap valueEntry

/-- What is hashed of an inode tree. -/
def treeString (depth : UInt32) (children : Nat) (pointers : List (Nat × EntryHash)) : Bytes :=
  1 :: (leb128 depth.toNat ++ (leb128 (children % 2 ^ 64) ++
    UInt8.ofNat pointers.length :: pointers.flatMap pointerEntry))

/-- A name whose length fits 64 bits. -/
def ShortName (name : KeyFragment) : Prop := (utf8 name).length < 2 ^ 64

theorem nameBytes_delimited : Delimited ShortName nameBytes := by
  intro a b r r' ha hb h
  rw [nameBytes, nameBytes, Nat.mod_eq_of_lt ha, Nat.mod_eq_of_lt hb, List.append_assoc,
    List.append_assoc] at h
  obtain ⟨hlen, h⟩ := leb128_append_inj ha hb h
  obtain ⟨hname, hr⟩ := List.append_inj h hlen
  exact ⟨utf8_injective hname, hr⟩

theorem hashBytes_delimited : Delimited (fun _ => True) EntryHash.bytes := by
  intro a b r r' _ _ h
  obtain ⟨hbytes, hr⟩ := List.append_inj h (a.size.trans b.size.symm)
  cases a
  cases b
  cases hbytes
  exact ⟨rfl, hr⟩

theorem kindByte_injective : Function.Injective kindByte := by
  intro a b h
  cases a <;> cases b <;> first | rfl | exact absurd h (by decide)

theorem encodeIrminNodeKind_delimited : Delimited (fun _ => True) encodeIrminNodeKind := by
  intro a b r r' _ _ h
  obtain ⟨hkind, hr⟩ := List.append_inj h (by cases a <;> cases b <;> rfl)
  refine ⟨?_, hr⟩
  cases a <;> cases b <;> first | rfl | exact absurd hkind (by decide)

theorem valueEntry_delimited : Delimited (fun b : Binding => ShortName b.1) valueEntry := by
  intro b b' r r' hb hb' h
  simp only [valueEntry, List.append_assoc, List.cons_append] at h
  obtain ⟨hname, h⟩ := nameBytes_delimited hb hb' h
  obtain ⟨hkind, h⟩ := List.cons.inj h
  obtain ⟨hhash, hr⟩ := hashBytes_delimited trivial trivial h
  exact ⟨Prod.ext hname (Prod.ext (kindByte_injective hkind) hhash), hr⟩

theorem nodeEntry_delimited : Delimited (fun b : Binding => ShortName b.1) nodeEntry := by
  intro b b' r r' hb hb' h
  simp only [nodeEntry, List.append_assoc] at h
  obtain ⟨hkind, h⟩ := encodeIrminNodeKind_delimited trivial trivial h
  obtain ⟨hname, h⟩ := nameBytes_delimited hb hb' h
  obtain ⟨hhash, hr⟩ := hashBytes_delimited trivial trivial (List.append_cancel_left h)
  exact ⟨Prod.ext hname (Prod.ext hkind hhash), hr⟩

theorem ofNat_inj {n m : Nat} (hn : n < 256) (hm : m < 256)
    (h : UInt8.ofNat n = UInt8.ofNat m) : n = m := by
  have := congrArg UInt8.toNat h
  rw [UInt8.toNat_ofNat', UInt8.toNat_ofNat'] at this
  omega

theorem pointerEntry_delimited : Delimited (fun p : Nat × EntryHash => p.1 < 256) pointerEntry := by
  intro p p' r r' hp hp' h
  obtain ⟨hindex, h⟩ := List.cons.inj h
  obtain ⟨hhash, hr⟩ := hashBytes_delimited trivial trivial h
  exact ⟨Prod.ext (ofNat_inj hp hp' hindex) hhash, hr⟩

theorem shortString_inj {l l' : List Binding} (hl : ∀ b ∈ l, ShortName b.1)
    (hl' : ∀ b ∈ l', ShortName b.1) (short : l.length ≤ 256) (short' : l'.length ≤ 256)
    (h : shortString l = shortString l') : l = l' := by
  obtain ⟨hlen, h⟩ := List.append_inj h (by simp)
  have length := toBe_inj (by norm_num; omega) (by norm_num; omega) hlen
  rw [← List.append_nil (l.flatMap _), ← List.append_nil (l'.flatMap _)] at h
  exact (nodeEntry_delimited.flatMap_inj length hl hl' h).1

/-- A node list starts with the byte 0. -/
theorem shortString_head {l : List Binding} (length : l.length ≤ 256) :
    ∃ rest, shortString l = 0 :: rest := by
  have hzero : l.length / 256 ^ 7 = 0 := Nat.div_eq_of_lt (by norm_num; omega)
  exact ⟨_, by rw [shortString, toBe, hzero]; rfl⟩

theorem valueString_inj {l l' : List Binding} (hl : ∀ b ∈ l, ShortName b.1)
    (hl' : ∀ b ∈ l', ShortName b.1) (short : l.length ≤ 32) (short' : l'.length ≤ 32)
    (h : valueString l = valueString l') : l = l' := by
  obtain ⟨_, h⟩ := List.cons.inj h
  obtain ⟨hlen, h⟩ := List.cons.inj h
  have length := ofNat_inj (by omega) (by omega) hlen
  rw [← List.append_nil (l.flatMap _), ← List.append_nil (l'.flatMap _)] at h
  exact (valueEntry_delimited.flatMap_inj length hl hl' h).1

theorem treeString_inj {depth depth' : UInt32} {children children' : Nat}
    {l l' : List (Nat × EntryHash)} (hl : ∀ p ∈ l, p.1 < 256) (hl' : ∀ p ∈ l', p.1 < 256)
    (short : l.length ≤ 32) (short' : l'.length ≤ 32)
    (h : treeString depth children l = treeString depth' children' l') : l = l' := by
  have hpow : 2 ^ 32 < 2 ^ 64 := by norm_num
  obtain ⟨_, h⟩ := List.cons.inj h
  obtain ⟨_, h⟩ := leb128_append_inj (depth.toNat_lt.trans hpow) (depth'.toNat_lt.trans hpow) h
  obtain ⟨_, h⟩ := leb128_append_inj (Nat.mod_lt _ (by norm_num)) (Nat.mod_lt _ (by norm_num)) h
  obtain ⟨hlen, h⟩ := List.cons.inj h
  have length := ofNat_inj (by omega) (by omega) hlen
  rw [← List.append_nil (l.flatMap _), ← List.append_nil (l'.flatMap _)] at h
  exact (pointerEntry_delimited.flatMap_inj length hl hl' h).1

/-- Every entry of a divided list is in one of the parts. -/
theorem mem_iff_exists_part {α : Type} {depth : UInt32} {entries : List (KeyFragment × α)}
    {sub : Fin 32 → List (KeyFragment × α)}
    (split : ∀ i : Fin 32, atIndex depth i entries = some (sub i)) (e : KeyFragment × α) :
    e ∈ entries ↔ ∃ i, e ∈ sub i := by
  have hashable := hashable_of_atIndex (split 0)
  have hsub : ∀ i : Fin 32, sub i = entries.filter fun p => hasIndex depth i p.1 := fun i =>
    (atIndex_eq_some_iff.mp (split i)).2
  constructor
  · intro he
    obtain ⟨j, hj⟩ := Option.isSome_iff_exists.mp ((index_isSome depth e.1).mpr (hashable e he))
    refine ⟨⟨j.toNat, index_lt hj⟩, ?_⟩
    rw [hsub]
    exact List.mem_filter.mpr ⟨he, hasIndex_iff.mpr ⟨j, hj, rfl⟩⟩
  · rintro ⟨i, hi⟩
    rw [hsub] at hi
    exact List.mem_of_mem_filter hi

/-! ## The hash binds the entries -/

section Binding

variable [Digest]

/-- What is hashed of a partition.  An empty one is not hashed. -/
def Partition.string : Partition (NodeKind × EntryHash) → Option Bytes
  | .empty => none
  | .value bindings => some (valueString bindings)
  | .tree depth children child =>
      some (treeString depth children ((List.finRange 32).filterMap fun i =>
        (child i).string.map fun s => (i.val, Digest.blake2b s)))

/-- The pointers of an inode tree. -/
def Partition.pointers (child : Fin 32 → Partition (NodeKind × EntryHash)) :
    List (Nat × EntryHash) :=
  (List.finRange 32).filterMap fun i => (child i).string.map fun s => (i.val, Digest.blake2b s)

/-- The strings hashed on the way to the hash of a partition. -/
inductive Partition.Hashed : Partition (NodeKind × EntryHash) → Bytes → Prop
  | self {p : Partition (NodeKind × EntryHash)} {s : Bytes} (h : p.string = some s) : p.Hashed s
  | child {depth : UInt32} {children : Nat} {child : Fin 32 → Partition (NodeKind × EntryHash)}
      {s : Bytes} (i : Fin 32) (h : (child i).Hashed s) :
      (Partition.tree depth children child).Hashed s

/-- What is hashed of a directory with the given bindings. -/
inductive TreeString (bindings : List Binding) : Bytes → Prop
  | short (length : bindings.length ≤ 256) : TreeString bindings (shortString bindings)
  | long {p : Partition (NodeKind × EntryHash)} {s : Bytes} (length : 256 < bindings.length)
      (partitions : Partitions 0 bindings p) (string : p.string = some s) :
      TreeString bindings s

/-- The hash of a directory with the given bindings. -/
def TreeHash (bindings : List Binding) (h : EntryHash) : Prop :=
  ∃ s, TreeString bindings s ∧ h = Digest.blake2b s

/-- The strings hashed on the way to the hash of a directory. -/
inductive TreeHashed (bindings : List Binding) : Bytes → Prop
  | self {s : Bytes} (h : TreeString bindings s) : TreeHashed bindings s
  | below {p : Partition (NodeKind × EntryHash)} {s : Bytes} (length : 256 < bindings.length)
      (partitions : Partitions 0 bindings p) (hashed : p.Hashed s) : TreeHashed bindings s

theorem TreeString.unique {bindings : List Binding} {s s' : Bytes}
    (string : TreeString bindings s) (string' : TreeString bindings s') : s = s' := by
  cases string with
  | short length =>
      cases string' with
      | short => rfl
      | long length' => omega
  | long length partitions string =>
      cases string' with
      | short length' => omega
      | long _ partitions' string' =>
          cases partitions.unique partitions'
          exact Option.some.inj (string.symm.trans string')

theorem TreeHash.unique {bindings : List Binding} {h h' : EntryHash}
    (hash : TreeHash bindings h) (hash' : TreeHash bindings h') : h = h' := by
  obtain ⟨s, string, rfl⟩ := hash
  obtain ⟨s', string', rfl⟩ := hash'
  rw [string.unique string']

theorem Partitions.string_isSome {depth : UInt32} {bindings : List Binding}
    {p : Partition (NodeKind × EntryHash)} (h : Partitions depth bindings p) :
    p.string.isSome ↔ bindings ≠ [] := by
  cases h with
  | empty => simp [Partition.string]
  | value _ ne _ => simp [Partition.string, ne]
  | tree long _ _ _ =>
      have hne : bindings ≠ [] := List.ne_nil_of_length_pos (by omega)
      simp [Partition.string, hne]

theorem Partition.mem_pointers {child : Fin 32 → Partition (NodeKind × EntryHash)} {i : Fin 32}
    {h : EntryHash} : (i.val, h) ∈ Partition.pointers child ↔
      ∃ s, (child i).string = some s ∧ h = Digest.blake2b s := by
  simp only [Partition.pointers, List.mem_filterMap, List.mem_finRange, true_and,
    Option.map_eq_some_iff, Prod.mk.injEq]
  constructor
  · rintro ⟨j, s, hs, hj, rfl⟩
    rw [Fin.ext hj] at hs
    exact ⟨s, hs, rfl⟩
  · rintro ⟨s, hs, rfl⟩
    exact ⟨i, s, hs, rfl, rfl⟩

theorem Partition.pointers_lt (child : Fin 32 → Partition (NodeKind × EntryHash)) :
    ∀ p ∈ Partition.pointers child, p.1 < 256 := by
  intro p hp
  obtain ⟨i, _, hi⟩ := List.mem_filterMap.mp hp
  obtain ⟨s, _, rfl⟩ := Option.map_eq_some_iff.mp hi
  exact i.isLt.trans (by decide)

theorem Partition.pointers_length (child : Fin 32 → Partition (NodeKind × EntryHash)) :
    (Partition.pointers child).length ≤ 32 := by
  refine (List.length_filterMap_le _ _).trans ?_
  rw [List.length_finRange]

/-- Lists at one depth whose partitions are hashed from the same string have the same
entries, when no two strings hashed below collide. -/
theorem Partitions.mem_iff_of_string {depth : UInt32} {l l' : List Binding}
    {p q : Partition (NodeKind × EntryHash)} {s : Bytes} (hp : Partitions depth l p)
    (hq : Partitions depth l' q) (string : p.string = some s) (string' : q.string = some s)
    (inj : Set.InjOn Digest.blake2b {x | p.Hashed x ∨ q.Hashed x})
    (names : ∀ b ∈ l, ShortName b.1) (names' : ∀ b ∈ l', ShortName b.1) (b : Binding) :
    b ∈ l ↔ b ∈ l' := by
  -- Induction on the first partition; the first byte tells values from trees.
  induction hp generalizing l' q s with
  | empty => cases string
  | value _ _ short =>
      cases hq with
      | empty => cases string'
      | value _ _ short' =>
          have heq := valueString_inj names names' short short'
            (Option.some.inj (string.trans string'.symm))
          rw [heq]
      | tree =>
          have hhead := List.cons.inj (Option.some.inj (string.trans string'.symm))
          exact absurd hhead.1 (by decide)
  | @tree depth l sub child long next split below ih =>
      cases hq with
      | empty => cases string'
      | value =>
          have hhead := List.cons.inj (Option.some.inj (string.trans string'.symm))
          exact absurd hhead.1 (by decide)
      | @tree _ _ sub' child' _ _ split' below' =>
          have hpointers : Partition.pointers child = Partition.pointers child' :=
            treeString_inj (Partition.pointers_lt child) (Partition.pointers_lt child')
              (Partition.pointers_length child) (Partition.pointers_length child')
              (Option.some.inj (string.trans string'.symm))
          have part : ∀ i, b ∈ sub i ↔ b ∈ sub' i := by
            intro i
            cases hx : (child i).string with
            | none =>
                have hy : (child' i).string = none := by
                  rw [Option.eq_none_iff_forall_ne_some]
                  intro y hy
                  have hmem : (i.val, Digest.blake2b y) ∈ Partition.pointers child' :=
                    Partition.mem_pointers.mpr ⟨y, hy, rfl⟩
                  rw [← hpointers, Partition.mem_pointers] at hmem
                  obtain ⟨x, hx', _⟩ := hmem
                  rw [hx] at hx'
                  cases hx'
                have hsub : sub i = [] := by
                  by_contra hne
                  have := (below i).string_isSome.mpr hne
                  rw [hx] at this
                  cases this
                have hsub' : sub' i = [] := by
                  by_contra hne
                  have := (below' i).string_isSome.mpr hne
                  rw [hy] at this
                  cases this
                rw [hsub, hsub']
            | some x =>
                have hmem : (i.val, Digest.blake2b x) ∈ Partition.pointers child :=
                  Partition.mem_pointers.mpr ⟨x, hx, rfl⟩
                rw [hpointers, Partition.mem_pointers] at hmem
                obtain ⟨y, hy, hxy⟩ := hmem
                obtain rfl : x = y := inj (Or.inl (.child i (.self hx)))
                  (Or.inr (.child i (.self hy))) hxy
                refine ih i (below' i) hx hy ?_ ?_ ?_
                · exact inj.mono fun z hz => hz.imp (.child i) (.child i)
                · exact fun c hc => names c ((mem_iff_exists_part split c).mpr ⟨i, hc⟩)
                · exact fun c hc => names' c ((mem_iff_exists_part split' c).mpr ⟨i, hc⟩)
          rw [mem_iff_exists_part split, mem_iff_exists_part split']
          exact exists_congr part

/-- The inode of a large directory starts with the byte 1. -/
theorem Partitions.string_head {l : List Binding} {p : Partition (NodeKind × EntryHash)}
    {s : Bytes} (length : 256 < l.length) (h : Partitions 0 l p) (string : p.string = some s) :
    ∃ rest, s = 1 :: rest := by
  cases h with
  | empty => cases string
  | value _ _ short => omega
  | tree => exact ⟨_, (Option.some.inj string).symm⟩

/-- Directories with the same hash have the same bindings, when no two of the strings
hashed collide. -/
theorem TreeHash.binding {l l' : List Binding} {h : EntryHash} (hash : TreeHash l h)
    (hash' : TreeHash l' h)
    (inj : Set.InjOn Digest.blake2b {x | TreeHashed l x ∨ TreeHashed l' x})
    (names : ∀ b ∈ l, ShortName b.1) (names' : ∀ b ∈ l', ShortName b.1) (b : Binding) :
    b ∈ l ↔ b ∈ l' := by
  obtain ⟨s, string, rfl⟩ := hash
  obtain ⟨s', string', heq⟩ := hash'
  obtain rfl : s = s' := inj (Or.inl (.self string)) (Or.inr (.self string')) heq
  cases string with
  | short length =>
      obtain ⟨rest, hrest⟩ := shortString_head length
      generalize hs : shortString l = s at string' hrest
      cases string' with
      | short length' => rw [shortString_inj names names' length length' hs]
      | long length' partitions' string' =>
          obtain ⟨rest', hrest'⟩ := partitions'.string_head length' string'
          exact absurd (List.cons.inj (hrest.symm.trans hrest')).1 (by decide)
  | long length partitions string =>
      obtain ⟨rest, hrest⟩ := partitions.string_head length string
      cases string' with
      | short length' =>
          obtain ⟨rest', hrest'⟩ := shortString_head length'
          exact absurd (List.cons.inj (hrest.symm.trans hrest')).1 (by decide)
      | long length' partitions' string' =>
          refine partitions.mem_iff_of_string partitions' string string' ?_ names names' b
          exact inj.mono fun x hx => hx.imp (.below length partitions) (.below length' partitions')

end Binding

end NodeFuzzer
