import NodeFuzzer.RpcFuzzer.RandomJson

/-!
# Request bodies that are not JSON

A body that is not safe has draws that spoil it, as long as the names of the schema are ordinary,
that is, cannot be taken for the punctuation around them.  Each property has an outcome that is
sharp, so that what comes after it is found where it stands; after the comma of a second property
this is a name without its first quote.  A long string has an outcome with a control character.

*Faults pass outward.*  A list of one element and an object with one property are hopeless with
their part (`exists_outcomes`).
-/

namespace NodeFuzzer

namespace RpcFuzzer

open Draw
open Json (quoted Sharp Hopeless)

/-! ## Ordinary schemas -/

/-- A name that starts with neither white space nor a quote, and needs no escapes. -/
structure OrdinaryName (name : String) : Prop where
  plain : PlainText name.toList
  starts : ∃ c cs, name.toList = c :: cs ∧ Json.isBlank c = false

/-- The names of a schema are ordinary, and no object has references only. -/
inductive Ordinary : PropertyInstance → Prop where
  | null : Ordinary .null
  | boolean : Ordinary .boolean
  | integer : Ordinary .integer
  | number : Ordinary .number
  | string : Ordinary .string
  | array {items : PropertyInstance} : Ordinary items → Ordinary (.array items)
  | object {properties : List (String × Property)} :
    (∀ name p, (name, p) ∈ properties → OrdinaryName name) →
    (∀ name p, (name, .value p) ∈ properties → Ordinary p) →
    (∀ name reference, (name, .ref reference) ∈ properties → PlainText reference.toList) →
    (properties = [] ∨ ∃ name p, (name, .value p) ∈ properties) →
    Ordinary (.object properties)

/-- The same of the schema of a body, whose own object may have references only. -/
inductive OrdinaryBody : Option PropertyInstance → Prop where
  | none : OrdinaryBody none
  | some {p : PropertyInstance} : Ordinary p → OrdinaryBody (some p)
  | object {properties : List (String × Property)} :
    (∀ name p, (name, p) ∈ properties → OrdinaryName name) →
    (∀ name p, (name, .value p) ∈ properties → Ordinary p) →
    (∀ name reference, (name, .ref reference) ∈ properties → PlainText reference.toList) →
    OrdinaryBody (some (.object properties))

/-- The properties by reference that come first, and what comes after them. -/
theorem split_refs (properties : List (String × Property)) :
    (∃ l, properties = refs l) ∨
      ∃ l name p rest, properties = refs l ++ (name, .value p) :: rest := by
  induction properties with
  | nil => exact .inl ⟨[], rfl⟩
  | cons m properties ih =>
      obtain ⟨name, p | reference⟩ := m
      · exact .inr ⟨[], name, p, properties, rfl⟩
      · rcases ih with ⟨l, rfl⟩ | ⟨l, name', p, rest, rfl⟩
        · exact .inl ⟨(name, reference) :: l, rfl⟩
        · exact .inr ⟨(name, reference) :: l, name', p, rest, rfl⟩

theorem mem_refs {l : List (String × String)} {m : String × String} (h : m ∈ l) :
    (m.1, .ref m.2) ∈ refs l := List.mem_map_of_mem h

theorem value_not_mem_refs {l : List (String × String)} {name : String} {p : PropertyInstance} :
    (name, .value p) ∉ refs l := by
  simp [refs]

/-! ## What can be drawn -/

/-- The text is an outcome, given enough fuel. -/
def Can (prop : Option PropertyInstance) (size : Nat) (t : List Char) : Prop :=
  ∃ n, ∀ fuel, n ≤ fuel → (randomJson fuel prop size).Returns t

section Can

variable {prop : Option PropertyInstance} {p : PropertyInstance} {size : Nat} {t : List Char}

theorem can_succ (n : Nat) (h : ∀ fuel, n ≤ fuel → (randomJson (fuel + 1) prop size).Returns t) :
    Can prop size t := by
  refine ⟨n + 1, fun fuel hfuel => ?_⟩
  obtain ⟨k, rfl⟩ := Nat.exists_eq_add_of_le hfuel
  rw [Nat.add_right_comm]
  exact h (n + k) (Nat.le_add_right n k)

theorem can_null : Can (some .null) size ['n', 'u', 'l', 'l'] := can_succ 0 fun _ _ => rfl

theorem can_true : Can (some .boolean) size ['t', 'r', 'u', 'e'] :=
  can_succ 0 fun _ _ => returns_bind.mpr ⟨true, returns_genBool true, rfl⟩

theorem exists_randomNumber (size : Nat) : ∃ t, (randomNumber size).Returns t := by
  have any : genI64.Returns (Standard.sample 0 : Int64).toInt := by
    rw [genI64, returns_bind]
    exact ⟨_, ⟨0, rfl⟩, rfl⟩
  have number : rnum.Returns (Standard.sample 0 : Int64).toInt :=
    returns_bind.mpr ⟨false, returns_genBool false, any⟩
  exact ⟨_, returns_bind.mpr ⟨_, number, rfl⟩⟩

/-- A string of the alphabet. -/
theorem exists_randomString (size : Nat) : ∃ t, (randomString size).Returns t ∧ PlainText t := by
  have zero : ∀ c ∈ List.replicate size '0',
      (genRange 0 CHARSET.length >>= fun i => orAbort CHARSET[i]?).Returns c := by
    intro c hc
    rw [List.eq_of_mem_replicate hc, returns_bind]
    refine ⟨0, returns_genRange.mpr ?_, rfl⟩
    decide
  refine ⟨List.replicate size '0', returns_bind.mpr ⟨true, returns_genBool true, ?_⟩, ?_⟩
  · exact returns_collect.mpr ⟨List.length_replicate, zero⟩
  · intro c hc
    rw [List.eq_of_mem_replicate hc]
    decide

theorem isCharBoundary_replicate {c : Char} (one : c.utf8Size = 1) {i n : Nat} (h : i ≤ n) :
    RandomState.isCharBoundary (List.replicate n c) i = true := by
  induction i generalizing n with
  | zero => cases n <;> rfl
  | succ i ih =>
      obtain ⟨m, rfl⟩ := Nat.exists_eq_add_of_le' (Nat.le_trans (Nat.succ_pos i) h)
      rw [List.replicate_succ, RandomState.isCharBoundary, one, if_pos (by omega)]
      exact ih (Nat.le_of_succ_le_succ h)

/-- A string of two bytes or more may start with a control character. -/
theorem exists_control (h : 2 ≤ size) : ∃ t, (randomString size).Returns ('\x01' :: t) := by
  obtain ⟨n, rfl⟩ := Nat.exists_eq_add_of_le' h
  have boundary : RandomState.isCharBoundary (List.replicate (n + 2) '\x01') (n + 1) = true :=
    isCharBoundary_replicate rfl (Nat.le_succ _)
  have kept : RandomState.truncateBelow (List.replicate (n + 2) '\x01') (n + 2) =
      '\x01' :: RandomState.truncate (List.replicate (n + 1) '\x01') n := by
    rw [RandomState.truncateBelow, if_pos boundary, List.replicate_succ, RandomState.truncate]
    rfl
  have drawn : (genVec Char (n + 2)).Returns (List.replicate (n + 2) '\x01') :=
    RandomState.returns_genVec_char.mpr List.length_replicate
  refine ⟨RandomState.truncate (List.replicate (n + 1) '\x01') n, ?_⟩
  exact returns_bind.mpr ⟨false, returns_genBool false, returns_bind.mpr ⟨_, drawn, kept.symm⟩⟩

theorem can_emptyArray (items : PropertyInstance) : Can (some (.array items)) 0 ['[', ']'] :=
  can_succ 1 fun fuel h => by
    obtain ⟨k, rfl⟩ := Nat.exists_eq_add_of_le' h
    exact returns_bind.mpr ⟨_, rfl, rfl⟩

/-- A list of one element that takes all of the size. -/
theorem Can.array (h : Can (some p) size t) (pos : 0 < size) (fits : size + 1 < 2 ^ 64) :
    Can (some (.array p)) size ('[' :: (t ++ [']'])) := by
  obtain ⟨n, outcome⟩ := h
  refine can_succ (n + 2) fun fuel hfuel => ?_
  obtain ⟨k, rfl⟩ := Nat.exists_eq_add_of_le' hfuel
  have list : (randomJsonList (randomJson (k + (n + 2)) (some p)) (k + (n + 2)) size).Returns
      (t ++ [']']) := by
    show (randomJsonList _ (k + n + 1 + 1) size).Returns _
    rw [randomJsonList, if_neg (Nat.ne_of_gt pos)]
    simp only [returns_bind, returns_genUpTo, returns_pure]
    refine ⟨size, ⟨fits, Nat.le_refl size⟩, t, outcome _ (by omega), [']'], ?_, ?_⟩
    · rw [Nat.sub_self]
      rfl
    · rw [Nat.sub_self]
      rfl
  exact returns_bind.mpr ⟨_, list, rfl⟩

/-- The properties that come after the first have some outcome. -/
theorem exists_properties {properties : List (String × Property)}
    (each : ∀ name p, (name, .value p) ∈ properties → ∃ t, Can (some p) size t) :
    ∃ ret n, ∀ fuel, n ≤ fuel →
      (randomProperties (fun p => randomJson fuel (some p) size) properties).Returns ret := by
  induction properties with
  | nil => exact ⟨[], 0, fun _ _ => rfl⟩
  | cons m properties ih =>
      obtain ⟨ret, n, hret⟩ := ih fun name p hp => each name p (List.mem_cons_of_mem m hp)
      obtain ⟨name, p | reference⟩ := m
      · obtain ⟨t, k, ht⟩ := each name p List.mem_cons_self
        refine ⟨_, max n k, fun fuel hfuel => returns_value.mpr ⟨t, ret, ?_, ?_, rfl⟩⟩
        · exact ht fuel (Nat.le_trans (Nat.le_max_right n k) hfuel)
        · exact hret fuel (Nat.le_trans (Nat.le_max_left n k) hfuel)
      · exact ⟨_, n, fun fuel hfuel => returns_ref.mpr ⟨ret, hret fuel hfuel, rfl⟩⟩

/-- An object, with any outcome of its first property by value. -/
theorem Can.object (h : Can (some p) size t) (l : List (String × String)) (name : String)
    {rest : List (String × Property)}
    (each : ∀ name p, (name, .value p) ∈ rest → ∃ t, Can (some p) size t) :
    ∃ ret n, (∀ fuel, n ≤ fuel →
        (randomProperties (fun p => randomJson fuel (some p) size) rest).Returns ret) ∧
      Can (some (.object (refs l ++ (name, .value p) :: rest))) size
        (closeObject (joined l ++ (name.toList ++ ('"' :: ':' :: ' ' :: t ++ ',' :: ret)))) := by
  obtain ⟨ret, n, hret⟩ := exists_properties each
  obtain ⟨k, ht⟩ := h
  refine ⟨ret, n, hret, can_succ (max n k) fun fuel hfuel => returns_bind.mpr ⟨_, ?_, rfl⟩⟩
  refine returns_refs.mpr ⟨_, returns_value.mpr ⟨t, ret, ?_, ?_, rfl⟩, rfl⟩
  · exact ht fuel (Nat.le_trans (Nat.le_max_right n k) hfuel)
  · exact hret fuel (Nat.le_trans (Nat.le_max_left n k) hfuel)

/-- What is written after the comma starts with a name. -/
theorem properties_start {element : PropertyInstance → Draw (List Char)} {ret : List Char}
    {m : String × Property} {rest : List (String × Property)} (ordinary : OrdinaryName m.1)
    (h : (randomProperties element (m :: rest)).Returns ret) :
    ∃ c d u, ret = c :: d :: u ∧ Json.isBlank c = false ∧ c ≠ '"' := by
  obtain ⟨c, cs, hname, blank⟩ := ordinary.starts
  have quote : c ≠ '"' := by
    refine (ordinary.plain c ?_).1
    rw [hname]
    exact List.mem_cons_self
  have written : ∃ d u, ret = m.1.toList ++ d :: u := by
    obtain ⟨name, p | reference⟩ := m
    · obtain ⟨value, ret', -, -, rfl⟩ := returns_value.mp h
      exact ⟨_, _, rfl⟩
    · obtain ⟨ret', -, rfl⟩ := returns_ref.mp h
      cases reference.toList with
      | nil => exact ⟨_, _, rfl⟩
      | cons d u => exact ⟨_, _, rfl⟩
  obtain ⟨d, u, rfl⟩ := written
  rw [hname]
  cases cs with
  | nil => exact ⟨c, d, u, rfl, blank, quote⟩
  | cons e cs => exact ⟨c, e, _, rfl, blank, quote⟩

theorem Can.lastProperty {l : List (String × String)} {name : String} (h : Can (some p) size t) :
    Can (some (.object (refs l ++ [(name, .value p)]))) size
      ('{' :: (Json.member (joined l ++ name.toList) t ++ ['}'])) := by
  have noMore : ∀ name p, (name, .value p) ∈ ([] : List (String × Property)) →
      ∃ t, Can (some p) size t := by simp
  obtain ⟨ret, n, hret, outcome⟩ := h.object l name noMore
  have none : ret = [] := hret n (Nat.le_refl n)
  rw [none, closeObject_last] at outcome
  exact outcome

end Can

/-! ## Outcomes of an ordinary schema -/

/-- A property has a sharp outcome, and a hopeless one unless it is safe. -/
structure Outcomes (p : PropertyInstance) (size : Nat) : Prop where
  sharp : ∃ t, Can (some p) size t ∧ Sharp t
  hopeless : ¬ Safe p size → ∃ t, Can (some p) size t ∧ Hopeless t

section Outcomes

variable {p : PropertyInstance} {size : Nat}

theorem outcomes_of_safe {t : List Char} (can : Can (some p) size t) (sharp : Sharp t)
    (safe : Safe p size) : Outcomes p size :=
  ⟨⟨t, can, sharp⟩, fun fails => absurd safe fails⟩

theorem outcomes_of_hopeless {t : List Char} (can : Can (some p) size t) (hopeless : Hopeless t) :
    Outcomes p size :=
  ⟨⟨t, can, hopeless.sharp⟩, fun _ => ⟨t, can, hopeless⟩⟩

theorem outcomes_string (size : Nat) : Outcomes .string size := by
  obtain ⟨t, string, plain⟩ := exists_randomString size
  have can : Can (some .string) size (quoted t) :=
    can_succ 0 fun _ _ => returns_bind.mpr ⟨t, string, rfl⟩
  rcases Nat.lt_or_ge size 2 with short | long
  · exact outcomes_of_safe can (Json.sharp_quoted plain) (.string (Nat.le_of_lt_succ short))
  · obtain ⟨u, control⟩ := exists_control long
    refine outcomes_of_hopeless (t := quoted ('\x01' :: u)) ?_ (Json.hopeless_control (by decide))
    exact can_succ 0 fun _ _ => returns_bind.mpr ⟨_, control, rfl⟩

theorem Outcomes.array (h : Outcomes p size) (fits : size + 1 < 2 ^ 64) :
    Outcomes (.array p) size := by
  rcases Nat.eq_zero_or_pos size with rfl | pos
  · exact outcomes_of_safe (can_emptyArray p) Json.sharp_emptyArray (.emptyArray p)
  · obtain ⟨t, can, sharp⟩ := h.sharp
    refine ⟨⟨_, can.array pos fits, sharp.array⟩, fun fails => ?_⟩
    obtain ⟨u, can, hopeless⟩ := h.hopeless fun safe => fails (.array safe)
    exact ⟨_, can.array pos fits, hopeless.array.append [']']⟩

/-- A comma is not followed by a quote when there are more properties. -/
theorem Outcomes.moreProperties {l : List (String × String)} {name : String}
    {m : String × Property} {rest : List (String × Property)} (h : Outcomes p size)
    (plain : PlainText (joined l ++ name.toList)) (ordinary : OrdinaryName m.1)
    (each : ∀ name p, (name, .value p) ∈ m :: rest → Outcomes p size) :
    ∃ t, Can (some (.object (refs l ++ (name, .value p) :: m :: rest))) size t ∧ Hopeless t := by
  obtain ⟨t, can, sharp⟩ := h.sharp
  have drawn : ∀ name p, (name, .value p) ∈ m :: rest → ∃ t, Can (some p) size t := by
    intro name p hp
    obtain ⟨t, can, -⟩ := (each name p hp).sharp
    exact ⟨t, can⟩
  obtain ⟨ret, n, hret, outcome⟩ := can.object l name drawn
  obtain ⟨c, d, u, rfl, blank, quote⟩ := properties_start ordinary (hret n (Nat.le_refl n))
  rw [closeObject_comma] at outcome
  exact ⟨_, outcome, sharp.comma plain blank quote⟩

/-- An object whose first property by value is `p`. -/
theorem Outcomes.object {l : List (String × String)} {name : String}
    {rest : List (String × Property)} (h : Outcomes p size) (hl : PlainRefs l)
    (plain : PlainText name.toList) (names : ∀ m ∈ rest, OrdinaryName m.1)
    (each : ∀ name p, (name, .value p) ∈ rest → Outcomes p size) :
    Outcomes (.object (refs l ++ (name, .value p) :: rest)) size := by
  have plain' : PlainText (joined l ++ name.toList) := hl.joined.append plain
  cases rest with
  | nil =>
      obtain ⟨t, can, sharp⟩ := h.sharp
      refine ⟨⟨_, can.lastProperty, sharp.object plain'⟩, fun fails => ?_⟩
      obtain ⟨u, can, hopeless⟩ := h.hopeless fun safe => fails (.object hl plain safe)
      exact ⟨_, can.lastProperty, (hopeless.object plain').append ['}']⟩
  | cons m rest =>
      obtain ⟨t, can, hopeless⟩ := h.moreProperties plain' (names m List.mem_cons_self) each
      exact outcomes_of_hopeless can hopeless

theorem plainRefs_of_ordinary {l : List (String × String)} {properties : List (String × Property)}
    (sub : ∀ m ∈ refs l, m ∈ properties)
    (names : ∀ name p, (name, p) ∈ properties → OrdinaryName name)
    (references : ∀ name reference, (name, .ref reference) ∈ properties →
      PlainText reference.toList) : PlainRefs l := by
  intro m hm
  have mem := sub _ (mem_refs hm)
  exact ⟨(names _ _ mem).plain, references _ _ mem⟩

theorem Ordinary.outcomes (ordinary : Ordinary p) (fits : size + 1 < 2 ^ 64) : Outcomes p size := by
  induction ordinary with
  | null => exact outcomes_of_safe can_null Json.sharp_null (.null size)
  | boolean => exact outcomes_of_safe can_true Json.sharp_true (.boolean size)
  | integer =>
      obtain ⟨t, number⟩ := exists_randomNumber size
      refine outcomes_of_safe (t := quoted t) ?_ (Json.sharp_quoted (randomNumber_plain number))
        (.integer size)
      exact can_succ 0 fun _ _ => returns_bind.mpr ⟨t, number, rfl⟩
  | number =>
      obtain ⟨t, number⟩ := exists_randomNumber size
      refine outcomes_of_safe (t := quoted t) ?_ (Json.sharp_quoted (randomNumber_plain number))
        (.number size)
      exact can_succ 0 fun _ _ => returns_bind.mpr ⟨t, number, rfl⟩
  | string => exact outcomes_string size
  | array _ ih => exact ih.array fits
  | @object properties names _ references valued ih =>
      rcases split_refs properties with ⟨l, rfl⟩ | ⟨l, name, p, rest, rfl⟩
      · rcases valued with empty | ⟨name, p, hp⟩
        · rw [empty]
          refine outcomes_of_safe (t := ['{', '}']) ?_ Json.sharp_emptyObject (.emptyObject size)
          exact can_succ 0 fun _ _ => returns_bind.mpr ⟨[], rfl, rfl⟩
        · exact absurd hp value_not_mem_refs
      · have mem : (name, .value p) ∈ refs l ++ (name, .value p) :: rest := by simp
        refine (ih name p mem).object ?_ (names _ _ mem).plain ?_ ?_
        · exact plainRefs_of_ordinary (fun m hm => List.mem_append_left _ hm) names references
        · exact fun m hm => names m.1 m.2 (List.mem_append_right _ (List.mem_cons_of_mem _ hm))
        · exact fun name p hp => ih name p (List.mem_append_right _ (List.mem_cons_of_mem _ hp))

end Outcomes

/-! ## Bodies that are always documents -/

section Bodies

variable {prop : Option PropertyInstance} {size : Nat} {t : List Char}

theorem not_wellFormed_of_hopeless (h : Hopeless t) : ¬ WellFormed prop t := by
  rintro ⟨v, document, -⟩
  exact h.not_document ⟨v, document⟩

/-- The references are taken for a name that is not closed. -/
theorem not_wellFormed_refs {l : List (String × String)} (plain : PlainRefs l) (more : l ≠ []) :
    ¬ WellFormed prop (closeObject (joined l)) := by
  have written : joined l ≠ [] := by
    obtain ⟨m, l', rfl⟩ := List.exists_cons_of_ne_nil more
    simp [joined]
  have text : closeObject (joined l) = '{' :: '"' :: ((joined l).dropLast ++ ['}']) := by
    rw [closeObject_eq, List.dropLast_cons_of_ne_nil (List.cons_ne_nil _ _),
      List.dropLast_cons_of_ne_nil written]
    rfl
  have brace : PlainText ['}'] := Json.plain_of_all rfl
  have before : PlainText (joined l).dropLast := fun c hc =>
    plain.joined c (List.dropLast_subset _ hc)
  rw [text]
  rintro ⟨v, document, -⟩
  exact Json.not_document_unclosed (before.append brace) ⟨v, document⟩

/-- The references before a value make its name another. -/
theorem not_wellFormed_renamed {m : String × String} {l : List (String × String)} {name : String}
    {p : PropertyInstance} (sharp : Sharp t)
    (plain : PlainText (joined (m :: l) ++ name.toList)) :
    ¬ WellFormed (some (.object (refs (m :: l) ++ [(name, .value p)])))
      ('{' :: (Json.member (joined (m :: l) ++ name.toList) t ++ ['}'])) := by
  rintro ⟨v, document, named⟩
  obtain ⟨w, rfl⟩ := sharp.document_object plain document
  obtain ⟨ms, heq, names⟩ := named _ rfl
  cases heq
  obtain ⟨w', hw⟩ := (names m.1).mpr ⟨.ref m.2, List.mem_append_left _ (mem_refs List.mem_cons_self)⟩
  have same : m.1.toList = joined (m :: l) ++ name.toList := by
    rw [(Prod.mk.inj (List.mem_singleton.mp hw)).1, String.toList_ofList]
  have longer := congrArg List.length same
  simp only [joined, List.flatMap_cons, List.length_append, List.length_singleton] at longer
  omega

theorem exists_not_wellFormed_object {properties : List (String × Property)}
    (names : ∀ name p, (name, p) ∈ properties → OrdinaryName name)
    (values : ∀ name p, (name, .value p) ∈ properties → Ordinary p)
    (references : ∀ name reference, (name, .ref reference) ∈ properties →
      PlainText reference.toList)
    (fits : size + 1 < 2 ^ 64) (fails : ¬ SafeBody (some (.object properties)) size) :
    ∃ t, Can (some (.object properties)) size t ∧ ¬ WellFormed (some (.object properties)) t := by
  rcases split_refs properties with ⟨l, rfl⟩ | ⟨l, name, p, rest, rfl⟩
  · have more : l ≠ [] := by
      rintro rfl
      exact fails (.emptyObject size)
    have plain := plainRefs_of_ordinary (fun m hm => hm) names references
    refine ⟨closeObject (joined l), can_succ 0 fun _ _ => ?_, not_wellFormed_refs plain more⟩
    refine returns_bind.mpr ⟨joined l, ?_, rfl⟩
    rw [← List.append_nil (refs l)]
    exact returns_refs.mpr ⟨[], rfl, (List.append_nil _).symm⟩
  · have mem : (name, .value p) ∈ refs l ++ (name, .value p) :: rest := by simp
    have hl : PlainRefs l :=
      plainRefs_of_ordinary (fun m hm => List.mem_append_left _ hm) names references
    have hname := (names _ _ mem).plain
    have outcomes := (values name p mem).outcomes fits
    cases rest with
    | nil =>
        cases l with
        | nil =>
            obtain ⟨u, can, hopeless⟩ := outcomes.hopeless fun safe => fails (.object hname safe)
            have whole := (hopeless.object (hl.joined.append hname)).append ['}']
            exact ⟨_, can.lastProperty, not_wellFormed_of_hopeless whole⟩
        | cons m l =>
            obtain ⟨t, can, sharp⟩ := outcomes.sharp
            exact ⟨_, can.lastProperty, not_wellFormed_renamed sharp (hl.joined.append hname)⟩
    | cons m rest =>
        have later : ∀ m', m' ∈ m :: rest → m' ∈ refs l ++ (name, .value p) :: m :: rest :=
          fun m' hm => List.mem_append_right _ (List.mem_cons_of_mem _ hm)
        have ordinary := names m.1 m.2 (later m List.mem_cons_self)
        obtain ⟨t, can, hopeless⟩ := outcomes.moreProperties (hl.joined.append hname) ordinary
          fun name p hp => (values name p (later _ hp)).outcomes fits
        exact ⟨t, can, not_wellFormed_of_hopeless hopeless⟩

theorem exists_not_wellFormed (ordinary : OrdinaryBody prop) (fits : size + 1 < 2 ^ 64)
    (fails : ¬ SafeBody prop size) : ∃ t, Can prop size t ∧ ¬ WellFormed prop t := by
  cases ordinary with
  | none =>
      obtain ⟨u, control⟩ := exists_control (Nat.lt_of_not_le fun short => fails (.none short))
      refine ⟨quoted ('\x01' :: u), can_succ 0 fun _ _ => ?_, ?_⟩
      · exact returns_bind.mpr ⟨4, returns_genRange.mpr (by decide), returns_bind.mpr
          ⟨_, control, rfl⟩⟩
      · exact not_wellFormed_of_hopeless (Json.hopeless_control (by decide))
  | object names values references =>
      exact exists_not_wellFormed_object names values references fits fails
  | @some p ordinary =>
      by_cases noObject : ∀ properties, p ≠ .object properties
      · obtain ⟨t, can, hopeless⟩ :=
          (ordinary.outcomes fits).hopeless fun safe => fails (.some safe noObject)
        exact ⟨t, can, not_wellFormed_of_hopeless hopeless⟩
      · obtain ⟨properties, rfl⟩ := not_forall_not.mp noObject
        cases ordinary with
        | object names values references _ =>
            exact exists_not_wellFormed_object names values references fits fails

end Bodies

/-- Every body that is returned is well formed. -/
def AlwaysWellFormed (prop : Option PropertyInstance) (size : Nat) : Prop :=
  ∀ fuel rng text rng',
    ((randomJson fuel prop size).run : Exec Rng Empty _) rng = (.ok text, rng') →
      WellFormed prop text

/-- The bodies of a safe schema are JSON, with the names of the schema; and of the other schemas
none that is ordinary has only such bodies. -/
theorem randomJson_wellFormed_iff (prop : Option PropertyInstance) (size : Nat) :
    (SafeBody prop size → AlwaysWellFormed prop size) ∧
      (OrdinaryBody prop → size + 1 < 2 ^ 64 → AlwaysWellFormed prop size →
        SafeBody prop size) := by
  constructor
  · intro safe fuel rng text rng' run
    exact safe.wellFormed (returns_iff_run.mpr ⟨rng, rng', run⟩)
  · intro ordinary fits always
    by_contra fails
    obtain ⟨t, ⟨n, can⟩, malformed⟩ := exists_not_wellFormed ordinary fits fails
    obtain ⟨rng, rng', run⟩ := returns_iff_run.mp (can n (Nat.le_refl n))
    exact malformed (always n rng t rng' run)

/-- A list of numbers, and an object with two properties. -/
theorem randomJson_wellFormed_list_and_pair :
    AlwaysWellFormed (some (.array .integer)) 7 ∧
      ¬ AlwaysWellFormed (some (.object [("a", .value .null), ("b", .value .null)])) 5 := by
  constructor
  · exact (randomJson_wellFormed_iff _ _).1 (.some (.array (.integer 7)) (by simp))
  · intro always
    have name : OrdinaryName "a" ∧ OrdinaryName "b" := by
      refine ⟨⟨Json.plain_of_all ?_, 'a', [], rfl, rfl⟩, ⟨Json.plain_of_all ?_, 'b', [], rfl, rfl⟩⟩
      · rfl
      · rfl
    have ordinary : OrdinaryBody (some (.object [("a", .value .null), ("b", .value .null)])) := by
      refine .object ?_ ?_ (by simp)
      · rintro n p hp
        simp only [List.mem_cons, Prod.mk.injEq, List.not_mem_nil, or_false] at hp
        rcases hp with ⟨rfl, -⟩ | ⟨rfl, -⟩
        · exact name.1
        · exact name.2
      · rintro n p hp
        simp only [List.mem_cons, Prod.mk.injEq, Property.value.injEq, List.not_mem_nil,
          or_false] at hp
        rcases hp with ⟨-, rfl⟩ | ⟨-, rfl⟩ <;> exact .null
    cases (randomJson_wellFormed_iff _ _).2 ordinary (by decide) always with
    | some _ noObject => exact noObject _ rfl

/-- The second name of an object has no first quote. -/
theorem randomJson_two_properties :
    ((randomJson 2 (some (.object [("a", .value .null), ("b", .value .null)])) 5).run :
        Exec Rng Empty _) ⟨id⟩ =
      (.ok (['{', '"', 'a', '"', ':', ' ', 'n', 'u', 'l', 'l', ',', 'b', '"', ':', ' ',
        'n', 'u', 'l', 'l', '}']), ⟨id⟩) ∧
    ¬ ∃ v, Json.Document v ['{', '"', 'a', '"', ':', ' ', 'n', 'u', 'l', 'l', ',', 'b', '"',
      ':', ' ', 'n', 'u', 'l', 'l', '}'] := by
  constructor
  · rfl
  · have plain : ∀ c ∈ ['a'], Json.Plain c := Json.plain_of_all rfl
    have comma : Hopeless ('{' :: (Json.member ['a'] ['n', 'u', 'l', 'l'] ++ ',' :: 'b' ::
        ['"', ':', ' ', 'n', 'u', 'l', 'l', '}'])) :=
      Json.sharp_null.comma plain rfl (by decide)
    exact comma.not_document

end RpcFuzzer

end NodeFuzzer
