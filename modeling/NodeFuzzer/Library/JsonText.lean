import Mathlib.Data.List.Basic
import NodeFuzzer.Library.Json

/-!
# JSON texts

The grammar of RFC 8259 as a relation: `Reads part t r` says that a part of a document can be read
off the text `t` and leaves `r`.  A text is a document when nothing but blanks is left.

*Writing.*  A text spells a value when the value can be read off it whatever follows, and it starts
like a value (`Spells`).  Arrays and objects of spelled parts are spelled.

*Rejecting.*  What is read off a sharp text is the whole of it, if it is anything (`Sharp`);
nothing is read off a hopeless text (`Hopeless`).  Both pass from a part to an array or an object
whose first part it is, so that a fault deep inside a text is one of the whole.
-/

namespace NodeFuzzer.Json

/-! ## The grammar -/

/-- White space. -/
def isBlank (c : Char) : Bool := c == ' ' || c == '\t' || c == '\n' || c == '\r'

/-- The text after its leading white space. -/
def skip (t : List Char) : List Char := t.dropWhile isBlank

/-- A character that stands for itself in a string. -/
def Plain (c : Char) : Prop := c ≠ '"' ∧ c ≠ '\\' ∧ 0x20 ≤ c.toNat

instance : DecidablePred Plain := fun c =>
  inferInstanceAs (Decidable (c ≠ '"' ∧ c ≠ '\\' ∧ 0x20 ≤ c.toNat))

/-- The character an escape stands for. -/
def unescape : Char → Option Char
  | '"' => some '"'
  | '\\' => some '\\'
  | '/' => some '/'
  | 'b' => some '\x08'
  | 'f' => some '\x0c'
  | 'n' => some '\n'
  | 'r' => some '\r'
  | 't' => some '\t'
  | _ => none

/-- A hexadecimal digit. -/
def hexDigit (c : Char) : Option Nat :=
  if '0' ≤ c ∧ c ≤ '9' then some (c.toNat - 48)
  else if 'a' ≤ c ∧ c ≤ 'f' then some (c.toNat - 87)
  else if 'A' ≤ c ∧ c ≤ 'F' then some (c.toNat - 55)
  else none

/-- Four hexadecimal digits. -/
def hex4 : List Char → Option Nat
  | [a, b, c, d] => do
      let a ← hexDigit a
      let b ← hexDigit b
      let c ← hexDigit c
      let d ← hexDigit d
      pure (((a * 16 + b) * 16 + c) * 16 + d)
  | _ => none

/-- The rest of a string after its opening quote: its characters, and what follows the closing
quote. -/
inductive StringBody : List Char → List Char → List Char → Prop where
  | close {r : List Char} : StringBody [] ('"' :: r) r
  | plain {c : Char} {cs t r : List Char} :
    Plain c → StringBody cs t r → StringBody (c :: cs) (c :: t) r
  | escape {e c : Char} {cs t r : List Char} :
    unescape e = some c → StringBody cs t r → StringBody (c :: cs) ('\\' :: e :: t) r
  | unicode {h cs t r : List Char} {n : Nat} :
    hex4 h = some n → n.isValidChar → StringBody cs t r →
    StringBody (Char.ofNat n :: cs) ('\\' :: 'u' :: (h ++ t)) r
  | surrogates {h l cs t r : List Char} {m n : Nat} :
    hex4 h = some (0xD800 + m) → hex4 l = some (0xDC00 + n) → m < 0x400 → n < 0x400 →
    StringBody cs t r →
    StringBody (Char.ofNat (0x10000 + m * 0x400 + n) :: cs)
      ('\\' :: 'u' :: (h ++ '\\' :: 'u' :: (l ++ t))) r

/-- The integer part of a number. -/
inductive IntPart : List Char → Prop where
  | zero : IntPart ['0']
  | positive {d : Char} {ds : List Char} :
    d.isDigit → d ≠ '0' → (∀ c ∈ ds, c.isDigit) → IntPart (d :: ds)

/-- The fraction of a number. -/
inductive FracPart : List Char → Prop where
  | none : FracPart []
  | digits {ds : List Char} : ds ≠ [] → (∀ c ∈ ds, c.isDigit) → FracPart ('.' :: ds)

/-- The exponent of a number. -/
inductive ExpPart : List Char → Prop where
  | none : ExpPart []
  | digits {e : Char} {sign ds : List Char} :
    e = 'e' ∨ e = 'E' → sign ∈ [[], ['+'], ['-']] → ds ≠ [] → (∀ c ∈ ds, c.isDigit) →
    ExpPart (e :: (sign ++ ds))

/-- A number. -/
inductive NumberLiteral : List Char → Prop where
  | mk {sign int frac exp : List Char} : sign ∈ [[], ['-']] → IntPart int → FracPart frac →
    ExpPart exp → NumberLiteral (sign ++ (int ++ (frac ++ exp)))

/-- What is read off a text: a value, the values of an array up to its closing bracket, or the
members of an object up to its closing brace. -/
inductive Part where
  | value (v : Json)
  | items (vs : List Json)
  | members (ms : List (String × Json))

/-- The part can be read off the text and leaves the rest. -/
inductive Reads : Part → List Char → List Char → Prop where
  | null {r : List Char} : Reads (.value .null) ('n' :: 'u' :: 'l' :: 'l' :: r) r
  | true {r : List Char} : Reads (.value (.bool true)) ('t' :: 'r' :: 'u' :: 'e' :: r) r
  | false {r : List Char} :
    Reads (.value (.bool false)) ('f' :: 'a' :: 'l' :: 's' :: 'e' :: r) r
  | number {literal r : List Char} :
    NumberLiteral literal → Reads (.value (.number literal)) (literal ++ r) r
  | string {cs t r : List Char} :
    StringBody cs t r → Reads (.value (.string (String.ofList cs))) ('"' :: t) r
  | emptyArray {t r : List Char} :
    skip t = ']' :: r → Reads (.value (.array [])) ('[' :: t) r
  | array {vs : List Json} {t r : List Char} :
    Reads (.items vs) t r → Reads (.value (.array vs)) ('[' :: t) r
  | emptyObject {t r : List Char} :
    skip t = '}' :: r → Reads (.value (.object [])) ('{' :: t) r
  | object {ms : List (String × Json)} {t r : List Char} :
    Reads (.members ms) t r → Reads (.value (.object ms)) ('{' :: t) r
  | lastItem {v : Json} {t u r : List Char} :
    Reads (.value v) (skip t) u → skip u = ']' :: r → Reads (.items [v]) t r
  | nextItem {v : Json} {vs : List Json} {t u w r : List Char} :
    Reads (.value v) (skip t) u → skip u = ',' :: w → Reads (.items vs) w r →
    Reads (.items (v :: vs)) t r
  | lastMember {cs t k k' n u r : List Char} {v : Json} :
    skip t = '"' :: k → StringBody cs k k' → skip k' = ':' :: n → Reads (.value v) (skip n) u →
    skip u = '}' :: r → Reads (.members [(String.ofList cs, v)]) t r
  | nextMember {cs t k k' n u w r : List Char} {v : Json} {ms : List (String × Json)} :
    skip t = '"' :: k → StringBody cs k k' → skip k' = ':' :: n → Reads (.value v) (skip n) u →
    skip u = ',' :: w → Reads (.members ms) w r →
    Reads (.members ((String.ofList cs, v) :: ms)) t r

/-- The text is a JSON document of the value. -/
def Document (v : Json) (t : List Char) : Prop := ∃ r, Reads (.value v) (skip t) r ∧ skip r = []

theorem plain_of_all {cs : List Char} (h : cs.all (fun c => decide (Plain c)) = true) :
    ∀ c ∈ cs, Plain c := fun c hc => of_decide_eq_true (List.all_eq_true.mp h c hc)

theorem skip_cons {c : Char} (h : isBlank c = false) (t : List Char) : skip (c :: t) = c :: t := by
  simp [skip, h]

@[simp] theorem skip_space (t : List Char) : skip (' ' :: t) = skip t := rfl

/-- The text starts like a value. -/
def Starts (t : List Char) : Prop := ∃ c u, t = c :: u ∧ isBlank c = false ∧ c ≠ ']'

theorem starts_cons {c : Char} (h : (isBlank c || c == ']') = false) (u : List Char) :
    Starts (c :: u) := by
  simp only [Bool.or_eq_false_iff, beq_eq_false_iff_ne] at h
  exact ⟨c, u, rfl, h.1, h.2⟩

theorem Starts.skip_append {t : List Char} (h : Starts t) (r : List Char) :
    skip (t ++ r) = t ++ r := by
  obtain ⟨c, u, rfl, blank, -⟩ := h
  exact skip_cons blank (u ++ r)

/-! ## Writing -/

/-- The part is read off the text whatever follows. -/
def Writes (part : Part) (t : List Char) : Prop := ∀ r, Reads part (t ++ r) r

/-- The text spells the value. -/
structure Spells (v : Json) (t : List Char) : Prop where
  starts : Starts t
  writes : Writes (.value v) t

section Writing

variable {v : Json} {vs : List Json} {ms : List (String × Json)} {cs t u : List Char}

theorem Spells.document (h : Spells v t) : Document v t := by
  have reads := h.writes []
  rw [List.append_nil] at reads
  refine ⟨[], ?_, rfl⟩
  rw [← List.append_nil t, h.starts.skip_append, List.append_nil]
  exact reads

theorem spells_null : Spells .null ['n', 'u', 'l', 'l'] :=
  ⟨starts_cons rfl _, fun _ => .null⟩

theorem spells_true : Spells (.bool true) ['t', 'r', 'u', 'e'] :=
  ⟨starts_cons rfl _, fun _ => .true⟩

theorem spells_false : Spells (.bool false) ['f', 'a', 'l', 's', 'e'] :=
  ⟨starts_cons rfl _, fun _ => .false⟩

theorem body_of_plain (plain : ∀ c ∈ cs, Plain c) (r : List Char) :
    StringBody cs (cs ++ '"' :: r) r := by
  induction cs with
  | nil => exact .close
  | cons c cs ih =>
      exact .plain (plain c List.mem_cons_self) (ih fun d hd => plain d (List.mem_cons_of_mem c hd))

/-- Plain characters in quotes. -/
def quoted (cs : List Char) : List Char := '"' :: (cs ++ ['"'])

theorem spells_quoted (plain : ∀ c ∈ cs, Plain c) :
    Spells (.string (String.ofList cs)) (quoted cs) where
  starts := starts_cons rfl _
  writes r := by
    rw [quoted, List.cons_append, List.append_assoc]
    exact .string (body_of_plain plain r)

theorem spells_emptyArray : Spells (.array []) ['[', ']'] :=
  ⟨starts_cons rfl _, fun _ => .emptyArray rfl⟩

theorem Spells.lastItem (h : Spells v t) : Writes (.items [v]) (t ++ [']']) := by
  intro r
  rw [List.append_assoc]
  refine .lastItem (u := ']' :: r) ?_ rfl
  rw [h.starts.skip_append]
  exact h.writes _

theorem Spells.nextItem (h : Spells v t) (rest : Writes (.items vs) u) :
    Writes (.items (v :: vs)) (t ++ ',' :: u) := by
  intro r
  rw [List.append_assoc]
  refine .nextItem (u := ',' :: (u ++ r)) ?_ rfl (rest r)
  rw [h.starts.skip_append]
  exact h.writes _

theorem spells_array (h : Writes (.items vs) t) : Spells (.array vs) ('[' :: t) :=
  ⟨starts_cons rfl t, fun r => .array (h r)⟩

theorem spells_emptyObject : Spells (.object []) ['{', '}'] :=
  ⟨starts_cons rfl _, fun _ => .emptyObject rfl⟩

/-- A member whose name is plain. -/
def member (name t : List Char) : List Char := quoted name ++ ':' :: ' ' :: t

theorem member_append (name t u : List Char) :
    member name t ++ u = quoted name ++ (':' :: ' ' :: t ++ u) := List.append_assoc _ _ _

theorem Spells.lastMember (h : Spells v t) (plain : ∀ c ∈ cs, Plain c) :
    Writes (.members [(String.ofList cs, v)]) (member cs t ++ ['}']) := by
  intro r
  have key := body_of_plain plain (':' :: ' ' :: (t ++ '}' :: r))
  refine .lastMember (u := '}' :: r) (k := cs ++ '"' :: ':' :: ' ' :: (t ++ '}' :: r)) ?_ key rfl ?_ rfl
  · simp [member, quoted, skip, isBlank]
  · rw [skip_space, h.starts.skip_append]
    exact h.writes _

theorem Spells.nextMember (h : Spells v t) (plain : ∀ c ∈ cs, Plain c)
    (rest : Writes (.members ms) u) :
    Writes (.members ((String.ofList cs, v) :: ms)) (member cs t ++ ',' :: u) := by
  intro r
  have key := body_of_plain plain (':' :: ' ' :: (t ++ ',' :: (u ++ r)))
  refine .nextMember (u := ',' :: (u ++ r)) (k := cs ++ '"' :: ':' :: ' ' :: (t ++ ',' :: (u ++ r)))
    ?_ key rfl ?_ rfl (rest r)
  · simp [member, quoted, skip, isBlank]
  · rw [skip_space, h.starts.skip_append]
    exact h.writes _

theorem spells_object (h : Writes (.members ms) t) : Spells (.object ms) ('{' :: t) :=
  ⟨starts_cons rfl t, fun r => .object (h r)⟩

end Writing

/-! ## Reading back -/

section Reading

variable {v : Json} {c : Char} {cs ds t u r r' : List Char}

theorem NumberLiteral.starts {literal : List Char} (h : NumberLiteral literal) :
    ∃ c u, literal = c :: u ∧ (c = '-' ∨ c.isDigit = true) := by
  obtain ⟨hsign, hint, -, -⟩ := h
  have digit : ∀ int, IntPart int → ∃ c u, int = c :: u ∧ c.isDigit = true := by
    intro int h
    cases h with
    | zero => exact ⟨_, _, rfl, rfl⟩
    | positive hd _ _ => exact ⟨_, _, rfl, hd⟩
  obtain ⟨c, u, rfl, hc⟩ := digit _ hint
  simp only [List.mem_cons, List.not_mem_nil, or_false] at hsign
  rcases hsign with rfl | rfl
  · exact ⟨c, _, rfl, .inr hc⟩
  · exact ⟨'-', _, rfl, .inl rfl⟩

theorem not_number {literal : List Char} (h : NumberLiteral literal) (minus : c ≠ '-')
    (digit : c.isDigit = false) : literal ++ r ≠ c :: t := by
  obtain ⟨d, u, rfl, hd⟩ := h.starts
  intro heq
  cases heq
  rcases hd with rfl | hd
  · exact minus rfl
  · rw [digit] at hd
    cases hd

/-- No value starts with a closing bracket. -/
theorem Reads.bracket_ne (h : Reads (.value v) (c :: t) r) : c ≠ ']' := by
  rintro rfl
  generalize hx : ']' :: t = x at h
  cases h with
  | number lit => exact absurd hx.symm (not_number lit (by decide) rfl)
  | _ => cases hx

theorem reads_array (h : Reads (.value v) ('[' :: t) r) :
    skip t = ']' :: r ∨ ∃ vs, Reads (.items vs) t r := by
  generalize hx : '[' :: t = x at h
  cases h with
  | number lit => exact absurd hx.symm (not_number lit (by decide) rfl)
  | emptyArray close =>
      cases hx
      exact .inl close
  | array items =>
      cases hx
      exact .inr ⟨_, items⟩
  | _ => cases hx

theorem reads_object (h : Reads (.value v) ('{' :: t) r) :
    (skip t = '}' :: r ∧ v = .object []) ∨ ∃ ms, Reads (.members ms) t r ∧ v = .object ms := by
  generalize hx : '{' :: t = x at h
  cases h with
  | number lit => exact absurd hx.symm (not_number lit (by decide) rfl)
  | emptyObject close =>
      cases hx
      exact .inl ⟨close, rfl⟩
  | object members =>
      cases hx
      exact .inr ⟨_, members, rfl⟩
  | _ => cases hx

theorem reads_string (h : Reads (.value v) ('"' :: t) r) : ∃ cs, StringBody cs t r := by
  generalize hx : '"' :: t = x at h
  cases h with
  | number lit => exact absurd hx.symm (not_number lit (by decide) rfl)
  | string body =>
      cases hx
      exact ⟨_, body⟩
  | _ => cases hx

/-- Plain characters are read as they stand. -/
theorem body_plain_append (plain : ∀ c ∈ cs, Plain c) (h : StringBody ds (cs ++ t) r) :
    ∃ ds', ds = cs ++ ds' ∧ StringBody ds' t r := by
  induction cs generalizing ds with
  | nil => exact ⟨ds, rfl, h⟩
  | cons c cs ih =>
      have hc := plain c List.mem_cons_self
      have later := fun d hd => plain d (List.mem_cons_of_mem c hd)
      rw [List.cons_append] at h
      generalize hx : c :: (cs ++ t) = x at h
      cases h with
      | plain _ body =>
          cases hx
          obtain ⟨ds', rfl, rest⟩ := ih later body
          exact ⟨ds', rfl, rest⟩
      | close =>
          cases hx
          exact absurd rfl hc.1
      | _ => exact absurd (List.cons.inj hx).1 hc.2.1

theorem body_close (h : StringBody ds ('"' :: t) r) : ds = [] ∧ r = t := by
  cases h with
  | close => exact ⟨rfl, rfl⟩
  | plain plain _ => exact absurd rfl plain.1

theorem body_quoted (plain : ∀ c ∈ cs, Plain c) (h : StringBody ds (cs ++ '"' :: t) r) :
    ds = cs ∧ r = t := by
  obtain ⟨ds', rfl, rest⟩ := body_plain_append plain h
  obtain ⟨rfl, rfl⟩ := body_close rest
  exact ⟨List.append_nil cs, rfl⟩

/-- A string that is not closed. -/
theorem body_unclosed (plain : ∀ c ∈ cs, Plain c) : ¬ StringBody ds cs r := by
  intro h
  rw [← List.append_nil cs] at h
  obtain ⟨ds', -, rest⟩ := body_plain_append plain h
  cases rest

/-- The first member of an object, and what follows its value. -/
theorem reads_members {ms : List (String × Json)} (h : Reads (.members ms) t r) :
    ∃ cs k k' n u v, skip t = '"' :: k ∧ StringBody cs k k' ∧ skip k' = ':' :: n ∧
      Reads (.value v) (skip n) u ∧
      ((skip u = '}' :: r ∧ ms = [(String.ofList cs, v)]) ∨
        ∃ w ms', skip u = ',' :: w ∧ Reads (.members ms') w r) := by
  cases h with
  | lastMember opened body colon value close =>
      exact ⟨_, _, _, _, _, _, opened, body, colon, value, .inl ⟨close, rfl⟩⟩
  | nextMember opened body colon value comma rest =>
      exact ⟨_, _, _, _, _, _, opened, body, colon, value, .inr ⟨_, _, comma, rest⟩⟩

/-- The value of a member whose name is plain, and what follows it. -/
theorem reads_member {ms : List (String × Json)} (plain : ∀ c ∈ cs, Plain c) (starts : Starts t)
    (h : Reads (.members ms) (member cs t ++ r) r') :
    ∃ v u, Reads (.value v) (t ++ r) u ∧
      ((skip u = '}' :: r' ∧ ms = [(String.ofList cs, v)]) ∨
        ∃ w ms', skip u = ',' :: w ∧ Reads (.members ms') w r') := by
  obtain ⟨ds, k, k', n, u, v, hopen, body, colon, value, close⟩ := reads_members h
  have start : skip (member cs t ++ r) = '"' :: (cs ++ '"' :: ':' :: ' ' :: (t ++ r)) := by
    simp [member, quoted, skip, isBlank]
  rw [start] at hopen
  cases hopen
  obtain ⟨rfl, rfl⟩ := body_quoted plain body
  rw [skip_cons rfl] at colon
  cases colon
  rw [skip_space, starts.skip_append] at value
  exact ⟨v, u, value, close⟩

end Reading

/-! ## Rejecting -/

/-- The text starts like a value, and when a value is read off it, that is the whole text. -/
structure Sharp (t : List Char) : Prop where
  starts : Starts t
  whole (v : Json) (r r' : List Char) : Reads (.value v) (t ++ r) r' → r' = r

/-- The text starts like a value, but none is read off it whatever follows. -/
structure Hopeless (t : List Char) : Prop where
  starts : Starts t
  unread (v : Json) (r r' : List Char) : ¬ Reads (.value v) (t ++ r) r'

section Rejecting

variable {v : Json} {c : Char} {cs t u : List Char}

theorem Hopeless.sharp (h : Hopeless t) : Sharp t :=
  ⟨h.starts, fun v r r' reads => absurd reads (h.unread v r r')⟩

theorem Hopeless.append (h : Hopeless t) (u : List Char) : Hopeless (t ++ u) where
  starts := by
    obtain ⟨c, w, rfl, blank, bracket⟩ := h.starts
    exact ⟨c, w ++ u, rfl, blank, bracket⟩
  unread v r r' reads := by
    rw [List.append_assoc] at reads
    exact h.unread v (u ++ r) r' reads

theorem Hopeless.not_document (h : Hopeless t) : ¬ ∃ v, Document v t := by
  rintro ⟨v, r, reads, -⟩
  rw [← List.append_nil t, h.starts.skip_append] at reads
  exact h.unread v [] r reads

theorem sharp_null : Sharp ['n', 'u', 'l', 'l'] where
  starts := spells_null.starts
  whole v r r' h := by
    generalize hx : ['n', 'u', 'l', 'l'] ++ r = x at h
    cases h with
    | number lit => exact absurd hx.symm (not_number lit (by decide) rfl)
    | null =>
        cases hx
        rfl
    | _ => cases hx

theorem sharp_true : Sharp ['t', 'r', 'u', 'e'] where
  starts := spells_true.starts
  whole v r r' h := by
    generalize hx : ['t', 'r', 'u', 'e'] ++ r = x at h
    cases h with
    | number lit => exact absurd hx.symm (not_number lit (by decide) rfl)
    | true =>
        cases hx
        rfl
    | _ => cases hx

theorem sharp_quoted (plain : ∀ c ∈ cs, Plain c) : Sharp (quoted cs) where
  starts := (spells_quoted plain).starts
  whole v r r' h := by
    rw [quoted, List.cons_append, List.append_assoc] at h
    obtain ⟨ds, body⟩ := reads_string h
    exact (body_quoted plain body).2

/-- A string with a control character is none. -/
theorem hopeless_control (control : c.toNat < 0x20) : Hopeless ('"' :: c :: t) where
  starts := starts_cons rfl _
  unread v r r' h := by
    obtain ⟨ds, body⟩ := reads_string h
    generalize hx : (c :: t).append r = x at body
    cases body with
    | plain plain _ =>
        cases hx
        exact absurd plain.2.2 (Nat.not_le.mpr control)
    | _ =>
        have hc := (List.cons.inj hx).1
        rw [hc] at control
        exact absurd control (by decide)

theorem sharp_emptyArray : Sharp ['[', ']'] where
  starts := spells_emptyArray.starts
  whole v r r' h := by
    rcases reads_array h with close | ⟨vs, items⟩
    · cases close
      rfl
    · have starts : ∃ w u, Reads (.value w) (']' :: r) u := by
        cases items with
        | lastItem value _ => exact ⟨_, _, value⟩
        | nextItem value _ _ => exact ⟨_, _, value⟩
      obtain ⟨w, u, value⟩ := starts
      exact absurd rfl value.bracket_ne

/-- What is read off an array starts with what is read off its first value. -/
theorem Starts.reads_items (starts : Starts t) {r r' : List Char}
    (h : Reads (.value v) ('[' :: (t ++ r)) r') :
    ∃ w u, Reads (.value w) (t ++ r) u ∧
      (skip u = ']' :: r' ∨ ∃ x vs, skip u = ',' :: x ∧ Reads (.items vs) x r') := by
  rcases reads_array h with close | ⟨vs, items⟩
  · rw [starts.skip_append] at close
    obtain ⟨c, w, rfl, -, bracket⟩ := starts
    exact absurd (List.cons.inj close).1 bracket
  · cases items with
    | lastItem value close =>
        rw [starts.skip_append] at value
        exact ⟨_, _, value, .inl close⟩
    | nextItem value comma rest =>
        rw [starts.skip_append] at value
        exact ⟨_, _, value, .inr ⟨_, _, comma, rest⟩⟩

theorem Sharp.array (h : Sharp t) : Sharp ('[' :: (t ++ [']'])) where
  starts := starts_cons rfl _
  whole v r r' reads := by
    rw [List.cons_append, List.append_assoc] at reads
    obtain ⟨w, u, value, next⟩ := h.starts.reads_items reads
    rw [h.whole w _ u value] at next
    rcases next with close | ⟨x, vs, comma, -⟩
    · cases close
      rfl
    · cases comma

theorem Hopeless.array (h : Hopeless t) : Hopeless ('[' :: t) where
  starts := starts_cons rfl _
  unread v r r' reads := by
    obtain ⟨w, u, value, -⟩ := h.starts.reads_items reads
    exact h.unread w r u value

theorem sharp_emptyObject : Sharp ['{', '}'] where
  starts := spells_emptyObject.starts
  whole v r r' h := by
    rcases reads_object h with ⟨close, -⟩ | ⟨ms, members, -⟩
    · cases close
      rfl
    · obtain ⟨_, _, _, _, _, _, quote, -⟩ := reads_members members
      cases quote

/-- The value of the first member of an object, when its name is plain. -/
theorem Starts.reads_object (starts : Starts t) (plain : ∀ c ∈ cs, Plain c) {r r' : List Char}
    (h : Reads (.value v) ('{' :: (member cs t ++ r)) r') :
    ∃ w u, Reads (.value w) (t ++ r) u ∧
      (skip u = '}' :: r' ∨ ∃ x ms, skip u = ',' :: x ∧ Reads (.members ms) x r') := by
  rcases Json.reads_object h with ⟨close, -⟩ | ⟨ms, members, -⟩
  · cases close
  · obtain ⟨w, u, value, ⟨close, -⟩ | more⟩ := reads_member plain starts members
    · exact ⟨w, u, value, .inl close⟩
    · exact ⟨w, u, value, .inr ⟨_, _, more.choose_spec.choose_spec⟩⟩

theorem Sharp.object (h : Sharp t) (plain : ∀ c ∈ cs, Plain c) :
    Sharp ('{' :: (member cs t ++ ['}'])) where
  starts := starts_cons rfl _
  whole v r r' reads := by
    rw [List.cons_append, List.append_assoc] at reads
    obtain ⟨w, u, value, next⟩ := h.starts.reads_object plain reads
    rw [h.whole w _ u value] at next
    rcases next with close | ⟨x, ms, comma, -⟩
    · cases close
      rfl
    · cases comma

theorem Hopeless.object (h : Hopeless t) (plain : ∀ c ∈ cs, Plain c) :
    Hopeless ('{' :: member cs t) where
  starts := starts_cons rfl _
  unread v r r' reads := by
    obtain ⟨w, u, value, -⟩ := h.starts.reads_object plain reads
    exact h.unread w r u value

/-- A comma in an object, with neither white space nor a quote after it. -/
theorem Sharp.comma (h : Sharp t) (plain : ∀ c ∈ cs, Plain c) (blank : isBlank c = false)
    (quote : c ≠ '"') : Hopeless ('{' :: (member cs t ++ ',' :: c :: u)) where
  starts := starts_cons rfl _
  unread v r r' reads := by
    rw [List.cons_append, List.append_assoc] at reads
    obtain ⟨w, u', value, next⟩ := h.starts.reads_object plain reads
    rw [h.whole w _ u' value] at next
    rcases next with close | ⟨x, ms, comma, members⟩
    · cases close
    · cases comma
      obtain ⟨_, _, _, _, _, _, hquote, -⟩ := reads_members members
      have first : skip ((c :: u).append r) = c :: (u ++ r) := skip_cons blank _
      rw [first] at hquote
      exact quote (List.cons.inj hquote).1

/-- An object whose first name is not closed. -/
theorem not_document_unclosed (plain : ∀ c ∈ cs, Plain c) :
    ¬ ∃ v, Document v ('{' :: '"' :: cs) := by
  rintro ⟨v, r, reads, -⟩
  rcases Json.reads_object reads with ⟨close, -⟩ | ⟨ms, members, -⟩
  · cases close
  · obtain ⟨ds, k, k', n, u, w, quote, body, -⟩ := reads_members members
    cases quote
    exact body_unclosed plain body

/-- A document that has one member has one name. -/
theorem Sharp.document_object (h : Sharp t) (plain : ∀ c ∈ cs, Plain c)
    (document : Document v ('{' :: (member cs t ++ ['}']))) :
    ∃ w, v = .object [(String.ofList cs, w)] := by
  obtain ⟨r, reads, -⟩ := document
  rcases Json.reads_object reads with ⟨close, -⟩ | ⟨ms, members, rfl⟩
  · cases close
  · obtain ⟨w, u, value, ⟨-, rfl⟩ | ⟨x, ms', comma, -⟩⟩ := reads_member plain h.starts members
    · exact ⟨w, rfl⟩
    · rw [h.whole w _ u value] at comma
      cases comma

end Rejecting

end NodeFuzzer.Json
