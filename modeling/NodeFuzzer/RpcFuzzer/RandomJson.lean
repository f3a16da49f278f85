import NodeFuzzer.Library.JsonText
import NodeFuzzer.Generator.Strings

/-!
# Random request bodies

`random_json` writes the body of a request by hand, after the schema of the request when there is
one.  Arrays and dictionaries put a comma between their elements and none after the last.  An
object is opened with its first quote, so each of its names is written without the quote before
it, and the comma after the last property is taken away.  Names, references and random strings are
written as they are, without escapes.

*Bodies that are documents.*  `Safe` says when that is a JSON document whatever is drawn: no string
may be longer than one byte, and no object may have two properties (`randomJson_spells`).

The text is kept as its characters.  `fuel` bounds the depth of the calls and the rounds of each
loop; a run of the code has some bound.
-/

namespace NodeFuzzer

open Json (quoted)

mutual

/-- `PropertyInstance`, with the parts that are read. -/
inductive PropertyInstance where
  | null
  | boolean
  | integer
  | number
  | array (items : PropertyInstance)
  | object (properties : List (String × Property))
  | string

/-- `Property`. -/
inductive Property where
  | value (p : PropertyInstance)
  | ref (reference : String)

end

namespace RpcFuzzer

open Draw

/-- `rng.gen_range(lo..hi)`, as a level. -/
def level (lo hi : Nat) : Draw Int := do
  let n ← genRange lo hi
  pure n

/-- `rng.gen::<i64>()`. -/
def genI64 : Draw Int := do
  let n ← genT Int64
  pure n.toInt

/-- The number `random_number` writes: a level of one of the protocol versions, or any. -/
def rnum : Draw Int := do
  let known ← genBool
  if known then do
    match ← genRange 0 11 with
    | 0 => pure 0
    | 1 => pure 1
    | 2 => level 2 28082
    | 3 => level 28083 204761
    | 4 => level 204762 458752
    | 5 => level 458753 655360
    | 6 => level 655361 851968
    | 7 => level 851969 1212416
    | 8 => level 1212417 1343488
    | 9 => level 1343489 1466367
    | 10 => level 1466368 1589247
    | _ => genI64
  else genI64

/-- `random_number`. -/
def randomNumber (size : Nat) : Draw (List Char) := do
  let rnum ← rnum
  let ret := (toString rnum).toList
  pure (ret.take (min size ret.length))

/-- `CHARSET`. -/
def CHARSET : List Char :=
  "0123456789ABCDEFGHJKLMNPQRSTUVWXYZabcdefghijkmnopqrstuvwxyz".toList

/-- `random_string`. -/
def randomString (size : Nat) : Draw (List Char) := do
  let known ← genBool
  if known then
    collect size do
      let i ← genRange 0 CHARSET.length
      orAbort CHARSET[i]?
  else do
    let string ← genVec Char size
    pure (RandomState.truncateBelow string size)

/-- `rng.gen_range(0..remaining + 1)`; the sum may overflow. -/
def genUpTo (remaining : Nat) : Draw Nat :=
  if remaining + 1 < 2 ^ 64 then genRange 0 (remaining + 1) else abort

/-- The loop of `random_json_list`, and what it writes after the bracket that opens the list. -/
def randomJsonList (randomJson : Nat → Draw (List Char)) : Nat → Nat → Draw (List Char)
  | 0, _ => abort
  | fuel + 1, remaining =>
    if remaining = 0 then pure [']']
    else do
      let elementSize ← genUpTo remaining
      let remaining := remaining - elementSize
      let element ← randomJson elementSize
      let ret ← randomJsonList randomJson fuel remaining
      pure (element ++ if remaining ≠ 0 then ',' :: ret else ret)

/-- The loop of `random_json_dict`, and what it writes after the brace that opens the
dictionary. -/
def randomJsonDict (randomJson : Nat → Draw (List Char)) : Nat → Nat → Draw (List Char)
  | 0, _ => abort
  | fuel + 1, remaining =>
    if remaining = 0 then pure ['}']
    else do
      let keySize ← genUpTo remaining
      let remaining := remaining - keySize
      let key ← randomString keySize
      if remaining = 0 then pure (quoted key ++ [':', ' ', 'n', 'u', 'l', 'l', '}'])
      else do
        let elementSize ← genUpTo remaining
        let remaining := remaining - elementSize
        let element ← randomJson elementSize
        let ret ← randomJsonDict randomJson fuel remaining
        pure (quoted key ++ (':' :: ' ' :: element ++ if remaining ≠ 0 then ',' :: ret else ret))

/-- The loop of `random_json` over the properties of an object. -/
def randomProperties (randomJson : PropertyInstance → Draw (List Char)) :
    List (String × Property) → Draw (List Char)
  | [] => pure []
  | (name, .value p) :: properties => do
      let value ← randomJson p
      let ret ← randomProperties randomJson properties
      pure (name.toList ++ ('"' :: ':' :: ' ' :: value ++ ',' :: ret))
  | (name, .ref reference) :: properties => do
      let ret ← randomProperties randomJson properties
      pure (name.toList ++ (reference.toList ++ ',' :: ret))

/-- What `random_json` does after that loop, with what the loop wrote. -/
def closeObject (properties : List Char) : List Char :=
  let ret := '{' :: '"' :: properties
  (if ret.length > 1 then ret.dropLast else ret) ++ ['}']

/-- `random_json`. -/
def randomJson : Nat → Option PropertyInstance → Nat → Draw (List Char)
  | 0, _, _ => abort
  | fuel + 1, prop, size =>
    match prop with
    | some .null => pure ['n', 'u', 'l', 'l']
    | some .boolean => do
        let b ← genBool
        pure (if b then ['t', 'r', 'u', 'e'] else ['f', 'a', 'l', 's', 'e'])
    | some .integer => do
        let number ← randomNumber size
        pure (quoted number)
    | some .number => do
        let number ← randomNumber size
        pure (quoted number)
    | some (.array items) => do
        let ret ← randomJsonList (randomJson fuel (some items)) fuel size
        pure ('[' :: ret)
    | some (.object properties) => do
        let ret ← randomProperties (fun p => randomJson fuel (some p) size) properties
        pure (closeObject ret)
    | some .string => do
        let string ← randomString size
        pure (quoted string)
    | none => do
        match ← genRange 0 10 with
        | 0 => pure ['t', 'r', 'u', 'e']
        | 1 => pure ['f', 'a', 'l', 's', 'e']
        | 2 => pure ['n', 'u', 'l', 'l']
        | 3 => do
            let number ← randomNumber size
            pure (quoted number)
        | 4 => do
            let string ← randomString size
            pure (quoted string)
        | 5 => do
            let ret ← randomJsonList (randomJson fuel none) fuel size
            pure ('[' :: ret)
        | _ => do
            let ret ← randomJsonDict (randomJson fuel none) fuel size
            pure ('{' :: ret)

/-! ## Numbers and strings -/

/-- Every character stands for itself in a string. -/
def PlainText (cs : List Char) : Prop := ∀ c ∈ cs, Json.Plain c

theorem plain_of_isDigit {c : Char} (h : c.isDigit = true) : Json.Plain c := by
  refine ⟨?_, ?_, ?_⟩
  · rintro rfl
    cases h
  · rintro rfl
    cases h
  · simp only [Char.isDigit, Bool.and_eq_true, decide_eq_true_eq] at h
    exact Nat.le_trans (by decide) (UInt32.le_iff_toNat_le.mp h.1)

theorem plain_toString_nat (n : Nat) : PlainText (toString n).toList := by
  intro c hc
  rw [Nat.toString_eq_repr, Nat.toList_repr] at hc
  exact plain_of_isDigit (Nat.isDigit_of_mem_toDigits (by decide) (by decide) hc)

theorem plain_toString (i : Int) : PlainText (toString i).toList := by
  cases i with
  | ofNat n => exact plain_toString_nat n
  | negSucc n =>
      have minus : (toString (Int.negSucc n)).toList = '-' :: (toString (n + 1)).toList := by
        show ("-" ++ toString (n + 1)).toList = _
        simp
      rw [minus]
      intro c hc
      rcases List.mem_cons.mp hc with rfl | hc
      · decide
      · exact plain_toString_nat (n + 1) c hc

theorem randomNumber_plain {size : Nat} {t : List Char} (h : (randomNumber size).Returns t) :
    PlainText t := by
  simp only [randomNumber, returns_bind, returns_pure] at h
  obtain ⟨i, -, rfl⟩ := h
  exact fun c hc => plain_toString i c (List.mem_of_mem_take hc)

theorem charset_plain : PlainText CHARSET := Json.plain_of_all (by decide)

/-- A string of at most one byte is one of the alphabet, or empty. -/
theorem randomString_plain {size : Nat} (hsize : size ≤ 1) {t : List Char}
    (h : (randomString size).Returns t) : PlainText t := by
  simp only [randomString, returns_bind] at h
  obtain ⟨known, -, h⟩ := h
  cases known with
  | true =>
      simp only [if_true, returns_collect, returns_bind, returns_orAbort] at h
      obtain ⟨-, chars⟩ := h
      intro c hc
      obtain ⟨i, -, hi⟩ := chars c hc
      exact charset_plain c (List.mem_of_getElem? hi)
  | false =>
      simp only [Bool.false_eq_true, if_false, returns_bind, RandomState.returns_genVec_char,
        returns_pure] at h
      obtain ⟨drawn, len, rfl⟩ := h
      have short := (RandomState.truncateBelow_spec len).2.2
      have := Utf8.length_le_width (RandomState.truncateBelow drawn size)
      have empty : RandomState.truncateBelow drawn size = [] :=
        List.length_eq_zero_iff.mp (by omega)
      rw [empty]
      exact fun c hc => absurd hc List.not_mem_nil

/-! ## Lists and dictionaries -/

section Loops

variable {element : Nat → Draw (List Char)} {fuel size k : Nat} {t : List Char}

theorem returns_genUpTo : (genUpTo size).Returns k ↔ size + 1 < 2 ^ 64 ∧ k ≤ size := by
  unfold genUpTo
  split
  next h =>
    rw [returns_genRange]
    omega
  next h => exact ⟨False.elim, fun h' => h h'.1⟩

theorem randomJsonList_zero (h : (randomJsonList element fuel 0).Returns t) : t = [']'] := by
  cases fuel with
  | zero => cases h
  | succ fuel => exact h

/-- The elements of a list that is not empty are written with commas between them. -/
theorem randomJsonList_items
    (each : ∀ k ≤ size, ∀ t, (element k).Returns t → ∃ v, Json.Spells v t) (pos : 0 < size)
    (h : (randomJsonList element fuel size).Returns t) : ∃ vs, Json.Writes (.items vs) t := by
  induction fuel generalizing size t with
  | zero => cases h
  | succ fuel ih =>
      rw [randomJsonList, if_neg (Nat.ne_of_gt pos)] at h
      simp only [returns_bind, returns_genUpTo, returns_pure] at h
      obtain ⟨k, ⟨-, hk⟩, code, hcode, ret, hret, rfl⟩ := h
      obtain ⟨v, spells⟩ := each k hk code hcode
      rcases Nat.eq_zero_or_pos (size - k) with done | more
      · rw [done] at hret
        rw [if_neg (not_not_intro done), randomJsonList_zero hret]
        exact ⟨[v], spells.lastItem⟩
      · obtain ⟨vs, writes⟩ := ih (fun j hj => each j (Nat.le_trans hj (Nat.sub_le size k))) more hret
        rw [if_pos (Nat.ne_of_gt more)]
        exact ⟨v :: vs, spells.nextItem writes⟩

theorem randomJsonList_spells
    (each : ∀ k ≤ size, ∀ t, (element k).Returns t → ∃ v, Json.Spells v t)
    (h : (randomJsonList element fuel size).Returns t) : ∃ v, Json.Spells v ('[' :: t) := by
  rcases Nat.eq_zero_or_pos size with rfl | pos
  · rw [randomJsonList_zero h]
    exact ⟨.array [], Json.spells_emptyArray⟩
  · obtain ⟨vs, writes⟩ := randomJsonList_items each pos h
    exact ⟨.array vs, Json.spells_array writes⟩

theorem randomJsonDict_zero (h : (randomJsonDict element fuel 0).Returns t) : t = ['}'] := by
  cases fuel with
  | zero => cases h
  | succ fuel => exact h

/-- A dictionary that is not empty has commas between its members; the last may have no
value drawn for it. -/
theorem randomJsonDict_members
    (each : ∀ k ≤ size, ∀ t, (element k).Returns t → ∃ v, Json.Spells v t) (pos : 0 < size)
    (short : size ≤ 1) (h : (randomJsonDict element fuel size).Returns t) :
    ∃ ms, Json.Writes (.members ms) t := by
  induction fuel generalizing size t with
  | zero => cases h
  | succ fuel ih =>
      rw [randomJsonDict, if_neg (Nat.ne_of_gt pos)] at h
      simp only [returns_bind, returns_genUpTo] at h
      obtain ⟨k, ⟨-, hk⟩, key, hkey, h⟩ := h
      have plain := randomString_plain (Nat.le_trans hk short) hkey
      split at h
      next =>
        rw [returns_pure] at h
        have writes := Json.spells_null.lastMember plain
        rw [Json.member_append] at writes
        exact ⟨_, h ▸ writes⟩
      next =>
        simp only [returns_bind, returns_genUpTo, returns_pure] at h
        obtain ⟨j, ⟨-, hj⟩, code, hcode, ret, hret, rfl⟩ := h
        obtain ⟨v, spells⟩ := each j (by omega) code hcode
        rcases Nat.eq_zero_or_pos (size - k - j) with done | more
        · rw [done] at hret
          have writes := spells.lastMember plain
          rw [Json.member_append] at writes
          rw [if_neg (not_not_intro done), randomJsonDict_zero hret]
          exact ⟨_, writes⟩
        · obtain ⟨ms, later⟩ := ih (fun i hi => each i (by omega)) more (by omega) hret
          have writes := spells.nextMember plain later
          rw [Json.member_append] at writes
          rw [if_pos (Nat.ne_of_gt more)]
          exact ⟨_, writes⟩

theorem randomJsonDict_spells
    (each : ∀ k ≤ size, ∀ t, (element k).Returns t → ∃ v, Json.Spells v t) (short : size ≤ 1)
    (h : (randomJsonDict element fuel size).Returns t) : ∃ v, Json.Spells v ('{' :: t) := by
  rcases Nat.eq_zero_or_pos size with rfl | pos
  · rw [randomJsonDict_zero h]
    exact ⟨.object [], Json.spells_emptyObject⟩
  · obtain ⟨ms, writes⟩ := randomJsonDict_members each pos short h
    exact ⟨.object ms, Json.spells_object writes⟩

end Loops

/-! ## Objects -/

/-- Properties that are given by reference. -/
def refs (l : List (String × String)) : List (String × Property) := l.map fun m => (m.1, .ref m.2)

/-- What is written for them. -/
def joined (l : List (String × String)) : List Char :=
  l.flatMap fun m => m.1.toList ++ (m.2.toList ++ [','])

/-- The names and the references are plain. -/
def PlainRefs (l : List (String × String)) : Prop :=
  ∀ m ∈ l, PlainText m.1.toList ∧ PlainText m.2.toList

theorem PlainText.append {cs ds : List Char} (hcs : PlainText cs) (hds : PlainText ds) :
    PlainText (cs ++ ds) := by
  intro c hc
  rcases List.mem_append.mp hc with hc | hc
  · exact hcs c hc
  · exact hds c hc

theorem PlainRefs.joined {l : List (String × String)} (h : PlainRefs l) : PlainText (joined l) := by
  intro c hc
  obtain ⟨m, hm, hc⟩ := List.mem_flatMap.mp hc
  have comma : PlainText [','] := Json.plain_of_all rfl
  exact (h m hm).1.append ((h m hm).2.append comma) c hc

section Objects

variable {element : PropertyInstance → Draw (List Char)} {t : List Char} {name : String}
variable {p : PropertyInstance} {properties : List (String × Property)}

theorem returns_value :
    (randomProperties element ((name, .value p) :: properties)).Returns t ↔
      ∃ value ret, (element p).Returns value ∧ (randomProperties element properties).Returns ret ∧
        t = name.toList ++ ('"' :: ':' :: ' ' :: value ++ ',' :: ret) := by
  rw [randomProperties]
  simp only [returns_bind, returns_pure]
  constructor
  · rintro ⟨value, hvalue, ret, hret, rfl⟩
    exact ⟨value, ret, hvalue, hret, rfl⟩
  · rintro ⟨value, ret, hvalue, hret, rfl⟩
    exact ⟨value, hvalue, ret, hret, rfl⟩

theorem returns_ref {reference : String} :
    (randomProperties element ((name, .ref reference) :: properties)).Returns t ↔
      ∃ ret, (randomProperties element properties).Returns ret ∧
        t = name.toList ++ (reference.toList ++ ',' :: ret) := by
  rw [randomProperties]
  simp only [returns_bind, returns_pure]

theorem returns_refs {l : List (String × String)} :
    (randomProperties element (refs l ++ properties)).Returns t ↔
      ∃ ret, (randomProperties element properties).Returns ret ∧ t = joined l ++ ret := by
  induction l generalizing t with
  | nil => simp [refs, joined]
  | cons m l ih =>
      have step : refs (m :: l) ++ properties = (m.1, .ref m.2) :: (refs l ++ properties) := rfl
      rw [step, returns_ref]
      constructor
      · rintro ⟨_, h, rfl⟩
        obtain ⟨ret, hret, rfl⟩ := ih.mp h
        exact ⟨ret, hret, by simp [joined]⟩
      · rintro ⟨ret, hret, rfl⟩
        exact ⟨_, ih.mpr ⟨ret, hret, rfl⟩, by simp [joined]⟩

theorem closeObject_eq (properties : List Char) :
    closeObject properties = ('{' :: '"' :: properties).dropLast ++ ['}'] := by
  rw [closeObject, if_pos (by simp)]

/-- An object with one property by value, after those by reference. -/
theorem closeObject_last (before : List Char) (name : String) (t : List Char) :
    closeObject (before ++ (name.toList ++ ('"' :: ':' :: ' ' :: t ++ [',']))) =
      '{' :: (Json.member (before ++ name.toList) t ++ ['}']) := by
  rw [closeObject_eq]
  have snoc : '{' :: '"' :: (before ++ (name.toList ++ ('"' :: ':' :: ' ' :: t ++ [',']))) =
      ('{' :: Json.member (before ++ name.toList) t) ++ [','] := by
    simp [Json.member, quoted]
  rw [snoc, List.dropLast_concat, List.cons_append]

/-- A first property by value, with something after it. -/
theorem closeObject_comma (before : List Char) (name : String) (t ret : List Char) (c d : Char) :
    closeObject (before ++ (name.toList ++ ('"' :: ':' :: ' ' :: t ++ ',' :: c :: d :: ret))) =
      '{' :: (Json.member (before ++ name.toList) t ++
        ',' :: c :: ((d :: ret).dropLast ++ ['}'])) := by
  rw [closeObject_eq]
  have split : '{' :: '"' :: (before ++ (name.toList ++
      ('"' :: ':' :: ' ' :: t ++ ',' :: c :: d :: ret))) =
      ('{' :: (Json.member (before ++ name.toList) t ++ [',', c])) ++ (d :: ret) := by
    simp [Json.member, quoted]
  rw [split, List.dropLast_append_of_ne_nil (List.cons_ne_nil d ret)]
  simp

end Objects

/-! ## Bodies that are documents -/

/-- What is written for a property is a document whatever is drawn. -/
inductive Safe : PropertyInstance → Nat → Prop where
  | null (size : Nat) : Safe .null size
  | boolean (size : Nat) : Safe .boolean size
  | integer (size : Nat) : Safe .integer size
  | number (size : Nat) : Safe .number size
  | string {size : Nat} : size ≤ 1 → Safe .string size
  | emptyArray (items : PropertyInstance) : Safe (.array items) 0
  | array {items : PropertyInstance} {size : Nat} : Safe items size → Safe (.array items) size
  | emptyObject (size : Nat) : Safe (.object []) size
  /-- The references before the value become part of its name. -/
  | object {l : List (String × String)} {name : String} {p : PropertyInstance} {size : Nat} :
    PlainRefs l → PlainText name.toList → Safe p size →
    Safe (.object (refs l ++ [(name, .value p)])) size

/-- A smaller body is as safe. -/
theorem Safe.mono {p : PropertyInstance} {size k : Nat} (h : Safe p size) (hk : k ≤ size) :
    Safe p k := by
  induction h with
  | null => exact .null k
  | boolean => exact .boolean k
  | integer => exact .integer k
  | number => exact .number k
  | string short => exact .string (Nat.le_trans hk short)
  | emptyArray items =>
      rw [Nat.le_zero.mp hk]
      exact .emptyArray items
  | array _ ih => exact .array (ih hk)
  | emptyObject => exact .emptyObject k
  | object hl hname _ ih => exact .object hl hname (ih hk)

/-- The same of a body, with the names that its object has to have. -/
inductive SafeBody : Option PropertyInstance → Nat → Prop where
  | none {size : Nat} : size ≤ 1 → SafeBody none size
  | some {p : PropertyInstance} {size : Nat} :
    Safe p size → (∀ properties, p ≠ .object properties) → SafeBody (some p) size
  | emptyObject (size : Nat) : SafeBody (some (.object [])) size
  | object {name : String} {p : PropertyInstance} {size : Nat} :
    PlainText name.toList → Safe p size → SafeBody (some (.object [(name, .value p)])) size

/-- A document, which is an object with exactly the names of the properties when the schema is one
of an object. -/
def WellFormed (prop : Option PropertyInstance) (text : List Char) : Prop :=
  ∃ v, Json.Document v text ∧ ∀ properties, prop = some (.object properties) →
    ∃ ms, v = .object ms ∧ ∀ name, (∃ w, (name, w) ∈ ms) ↔ ∃ p, (name, p) ∈ properties

theorem randomJson_spells {p : PropertyInstance} {size fuel : Nat} {t : List Char}
    (safe : Safe p size) (h : (randomJson fuel (some p) size).Returns t) :
    ∃ v, Json.Spells v t := by
  induction fuel generalizing p size t with
  | zero => cases h
  | succ fuel ih =>
      cases safe with
      | null =>
          cases h
          exact ⟨_, Json.spells_null⟩
      | boolean =>
          simp only [randomJson, returns_bind, returns_pure] at h
          obtain ⟨b, -, rfl⟩ := h
          cases b with
          | true => exact ⟨_, Json.spells_true⟩
          | false => exact ⟨_, Json.spells_false⟩
      | integer =>
          simp only [randomJson, returns_bind, returns_pure] at h
          obtain ⟨number, hnumber, rfl⟩ := h
          exact ⟨_, Json.spells_quoted (randomNumber_plain hnumber)⟩
      | number =>
          simp only [randomJson, returns_bind, returns_pure] at h
          obtain ⟨number, hnumber, rfl⟩ := h
          exact ⟨_, Json.spells_quoted (randomNumber_plain hnumber)⟩
      | string short =>
          simp only [randomJson, returns_bind, returns_pure] at h
          obtain ⟨string, hstring, rfl⟩ := h
          exact ⟨_, Json.spells_quoted (randomString_plain short hstring)⟩
      | emptyArray items =>
          simp only [randomJson, returns_bind, returns_pure] at h
          obtain ⟨ret, hret, rfl⟩ := h
          rw [randomJsonList_zero hret]
          exact ⟨_, Json.spells_emptyArray⟩
      | array safe =>
          simp only [randomJson, returns_bind, returns_pure] at h
          obtain ⟨ret, hret, rfl⟩ := h
          exact randomJsonList_spells (fun k hk t => ih (safe.mono hk)) hret
      | emptyObject =>
          simp only [randomJson, returns_bind, returns_pure] at h
          obtain ⟨ret, rfl, rfl⟩ := h
          exact ⟨_, Json.spells_emptyObject⟩
      | object hl hname safe =>
          simp only [randomJson, returns_bind, returns_pure, returns_refs, returns_value] at h
          obtain ⟨_, ⟨_, ⟨value, _, hvalue, rfl, rfl⟩, rfl⟩, rfl⟩ := h
          obtain ⟨v, spells⟩ := ih safe hvalue
          rw [closeObject_last]
          exact ⟨_, Json.spells_object (spells.lastMember (hl.joined.append hname))⟩

/-- Without a schema. -/
theorem randomJson_none_spells {size fuel : Nat} {t : List Char} (short : size ≤ 1)
    (h : (randomJson fuel none size).Returns t) : ∃ v, Json.Spells v t := by
  induction fuel generalizing size t with
  | zero => cases h
  | succ fuel ih =>
      have each : ∀ k ≤ size, ∀ t, (randomJson fuel none k).Returns t → ∃ v, Json.Spells v t :=
        fun k hk t => ih (Nat.le_trans hk short)
      simp only [randomJson, returns_bind] at h
      obtain ⟨choice, -, h⟩ := h
      split at h
      · cases h
        exact ⟨_, Json.spells_true⟩
      · cases h
        exact ⟨_, Json.spells_false⟩
      · cases h
        exact ⟨_, Json.spells_null⟩
      · simp only [returns_bind, returns_pure] at h
        obtain ⟨number, hnumber, rfl⟩ := h
        exact ⟨_, Json.spells_quoted (randomNumber_plain hnumber)⟩
      · simp only [returns_bind, returns_pure] at h
        obtain ⟨string, hstring, rfl⟩ := h
        exact ⟨_, Json.spells_quoted (randomString_plain short hstring)⟩
      · simp only [returns_bind, returns_pure] at h
        obtain ⟨ret, hret, rfl⟩ := h
        exact randomJsonList_spells each hret
      · simp only [returns_bind, returns_pure] at h
        obtain ⟨ret, hret, rfl⟩ := h
        exact randomJsonDict_spells each short hret

/-- A safe body is a document, with the names of the schema. -/
theorem SafeBody.wellFormed {prop : Option PropertyInstance} {size fuel : Nat} {t : List Char}
    (safe : SafeBody prop size) (h : (randomJson fuel prop size).Returns t) :
    WellFormed prop t := by
  cases safe with
  | none short =>
      obtain ⟨v, spells⟩ := randomJson_none_spells short h
      exact ⟨v, spells.document, by simp⟩
  | some safe noObject =>
      obtain ⟨v, spells⟩ := randomJson_spells safe h
      refine ⟨v, spells.document, fun properties heq => ?_⟩
      exact absurd (Option.some.inj heq) (noObject properties)
  | emptyObject =>
      cases fuel with
      | zero => cases h
      | succ fuel =>
          simp only [randomJson, returns_bind, returns_pure] at h
          obtain ⟨ret, rfl, rfl⟩ := h
          refine ⟨.object [], Json.spells_emptyObject.document, fun properties heq => ⟨[], rfl, ?_⟩⟩
          cases heq
          simp
  | @object name p _ plain safe =>
      cases fuel with
      | zero => cases h
      | succ fuel =>
          simp only [randomJson, returns_bind, returns_pure, returns_value] at h
          obtain ⟨_, ⟨value, _, hvalue, rfl, rfl⟩, rfl⟩ := h
          obtain ⟨v, spells⟩ := randomJson_spells safe hvalue
          have object := Json.spells_object (spells.lastMember plain)
          have text := closeObject_last [] name value
          rw [List.nil_append, List.nil_append] at text
          rw [text]
          refine ⟨_, object.document, fun properties heq => ⟨_, rfl, ?_⟩⟩
          cases heq
          simp [String.ofList_toList]

end RpcFuzzer

end NodeFuzzer
