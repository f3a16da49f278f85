import NodeFuzzer.Library.Bytes

/-!
# Parser combinators over byte strings

The combinators of the `nom` crate (version 6) that the readers of this project
are built from, over complete and streaming input, with the error type left
open.  A parser ends in one of four ways: it is `done` with a value and the rest
of the input, it reports an `error` from which a caller may recover, it reports
a `failure` that ends the whole parse, or the input is `incomplete`.

The second half states what each combinator does on an input that starts with
the bytes it expects, and how a property of all values a parser returns
(`Yields`), and of the bytes it takes for them (`Spends`, `Consumes`, `Takes`),
follows from the parts of the parser.
-/

namespace NodeFuzzer.Nom

/-- The part of `nom::error::ErrorKind` the combinators report. -/
inductive ErrorKind where
  | eof | tag | alt | mapRes | complete | many0 | manyMN | manyTill | verify
deriving DecidableEq, Repr

/-- What the combinators need from an error type. -/
class ParseError (E : Type) where
  /-- An error of a kind at an input. -/
  fromErrorKind : Bytes → ErrorKind → E
  /-- A kind put on top of an error. -/
  append : Bytes → ErrorKind → E → E

/-- How a parse ended. -/
inductive IResult (E α : Type) where
  /-- A value, with the input that is left. -/
  | done (rest : Bytes) (a : α)
  /-- A recoverable error. -/
  | error (e : E)
  /-- An error no alternative may recover from. -/
  | failure (e : E)
  /-- More input is needed. -/
  | incomplete

/-- A parser. -/
abbrev Parser (E α : Type) : Type := Bytes → IResult E α

variable {E α β : Type}

/-- Continue with the value and the rest of the input. -/
def IResult.andThen : IResult E α → (Bytes → α → IResult E β) → IResult E β
  | .done rest a, f => f rest a
  | .error e, _ => .error e
  | .failure e, _ => .failure e
  | .incomplete, _ => .incomplete

/-- Change the error, whether recoverable or not. -/
def IResult.mapError (f : E → E) : IResult E α → IResult E α
  | .done rest a => .done rest a
  | .error e => .error (f e)
  | .failure e => .failure (f e)
  | .incomplete => .incomplete

/-! ## Combinators -/

/-- Succeed without reading. -/
def success (a : α) : Parser E α := fun input => .done input a

/-- Apply a function to the value. -/
def map (p : Parser E α) (f : α → β) : Parser E β := fun input =>
  (p input).andThen fun rest a => .done rest (f a)

/-- Read with `p`, drop its value, read with `q`. -/
def preceded (p : Parser E α) (q : Parser E β) : Parser E β := fun input =>
  (p input).andThen fun rest _ => q rest

/-- Read with `p`, then with the parser its value gives. -/
def flatMap (p : Parser E α) (f : α → Parser E β) : Parser E β := fun input =>
  (p input).andThen fun rest a => f a rest

/-- Read with `p` and apply `q` to what it read; the rest of `q` is dropped. -/
def mapParser (p : Parser E Bytes) (q : Parser E α) : Parser E α := fun input =>
  (p input).andThen fun rest a => (q a).andThen fun _ b => .done rest b

/-- Everything that is left. -/
def rest : Parser E Bytes := fun input => .done [] input

variable [ParseError E]

/-- A partial function on the value; `none` is an error of the given kind at
the input, built by `external`. -/
def mapRes (external : Bytes → ErrorKind → E) (p : Parser E α) (f : α → Option β) :
    Parser E β := fun input =>
  (p input).andThen fun rest a =>
    match f a with
    | some b => .done rest b
    | none => .error (external input .mapRes)

/-- The value must satisfy a predicate. -/
def verify (p : Parser E α) (f : α → Bool) : Parser E α := fun input =>
  (p input).andThen fun rest a =>
    if f a then .done rest a else .error (ParseError.fromErrorKind input .verify)

/-- Exactly `n` bytes, of complete input. -/
def take (n : Nat) : Parser E Bytes := fun input =>
  if n ≤ input.length then .done (input.drop n) (input.take n)
  else .error (ParseError.fromErrorKind input .eof)

/-- Exactly `n` bytes, of input that may go on. -/
def takeStreaming (n : Nat) : Parser E Bytes := fun input =>
  if n ≤ input.length then .done (input.drop n) (input.take n) else .incomplete

/-- A big-endian number of `w` bytes, of complete input. -/
def beNumber (w : Nat) : Parser E Nat := fun input =>
  if w ≤ input.length then .done (input.drop w) (ofBe (input.take w))
  else .error (ParseError.fromErrorKind input .eof)

/-- The given bytes. -/
def tag (t : Bytes) : Parser E Bytes := fun input =>
  if t <+: input then .done (input.drop t.length) t
  else .error (ParseError.fromErrorKind input .tag)

/-- The first of two parsers that does not report a recoverable error. -/
def alt (p q : Parser E α) : Parser E α := fun input =>
  match p input with
  | .error _ =>
      match q input with
      | .error e => .error (ParseError.append input .alt e)
      | r => r
  | r => r

/-- `alt` of three parsers. -/
def alt3 (p q r : Parser E α) : Parser E α := fun input =>
  match p input with
  | .error _ =>
      match q input with
      | .error _ =>
          match r input with
          | .error e => .error (ParseError.append input .alt e)
          | r => r
      | r => r
  | r => r

/-- Missing input is an error. -/
def complete (p : Parser E α) : Parser E α := fun input =>
  match p input with
  | .incomplete => .error (ParseError.fromErrorKind input .complete)
  | r => r

/-- Nothing may be left. -/
def allConsuming (p : Parser E α) : Parser E α := fun input =>
  (p input).andThen fun rest a =>
    if rest.length = 0 then .done rest a
    else .error (ParseError.fromErrorKind rest .eof)

/-- A length and that many bytes. -/
def lengthData (len : Parser E Nat) : Parser E Bytes := fun input =>
  (len input).andThen fun rest n => takeStreaming n rest

/-- A length and a value read from that many bytes. -/
def lengthValue (len : Parser E Nat) (p : Parser E α) : Parser E α := fun input =>
  (len input).andThen fun rest n =>
    if n ≤ rest.length then
      match p (rest.take n) with
      | .incomplete => .error (ParseError.fromErrorKind (rest.take n) .complete)
      | .done _ a => .done (rest.drop n) a
      | .error e => .error e
      | .failure e => .failure e
    else .incomplete

/-- Repeat `p` until it reports an error, collecting its values.  A round that
reads nothing is an error. -/
def foldMany0 (p : Parser E α) : Nat → List α → Parser E (List α)
  | 0, _, input => .error (ParseError.fromErrorKind input .many0)
  | fuel + 1, acc, input =>
      match p input with
      | .done rest a =>
          if rest = input then .error (ParseError.fromErrorKind input .many0)
          else foldMany0 p fuel (acc ++ [a]) rest
      | .error _ => .done input acc
      | .failure e => .failure e
      | .incomplete => .incomplete

/-- `fold_many0` into a list.  A round reads at least one byte, so there are at
most as many rounds as bytes, and one that fails. -/
def many0 (p : Parser E α) : Parser E (List α) := fun input =>
  foldMany0 p (input.length + 1) [] input

/-- `fold_many_m_n(0, max, ..)` into a list: at most `max` rounds. -/
def foldManyMax (p : Parser E α) : Nat → List α → Parser E (List α)
  | 0, acc, input => .done input acc
  | max + 1, acc, input =>
      match p input with
      | .done rest a =>
          if rest = input then .error (ParseError.fromErrorKind rest .manyMN)
          else foldManyMax p max (acc ++ [a]) rest
      | .error _ => .done input acc
      | .failure e => .failure e
      | .incomplete => .incomplete

/-- Repeat `p` until `q` succeeds. -/
def foldManyTill (p : Parser E α) (q : Parser E β) : Nat → List α → Parser E (List α)
  | 0, _, input => .error (ParseError.fromErrorKind input .manyTill)
  | fuel + 1, acc, input =>
      match q input with
      | .done rest _ => .done rest acc
      | .error _ =>
          match p input with
          | .done rest a =>
              if rest = input then .error (ParseError.fromErrorKind input .manyTill)
              else foldManyTill p q fuel (acc ++ [a]) rest
          | .error e => .error (ParseError.append input .manyTill e)
          | .failure e => .failure e
          | .incomplete => .incomplete
      | .failure e => .failure e
      | .incomplete => .incomplete

/-- `many_till`, with the value of the end marker dropped. -/
def manyTill (p : Parser E α) (q : Parser E β) : Parser E (List α) := fun input =>
  foldManyTill p q (input.length + 1) [] input

/-! ## Reading what was written -/

omit [ParseError E] in
@[simp] theorem andThen_done (r : Bytes) (a : α) (f : Bytes → α → IResult E β) :
    (IResult.done r a).andThen f = f r a := rfl

@[simp] theorem take_append {b s : Bytes} {n : Nat} (h : b.length = n) :
    take (E := E) n (b ++ s) = .done s b := by
  subst h
  simp [take]

@[simp] theorem beNumber_append (w n : Nat) (s : Bytes) :
    beNumber (E := E) w (toBe w n ++ s) = .done s (n % 256 ^ w) := by
  have hw : (toBe w n).length = w := toBe_length w n
  have htake : (toBe w n ++ s).take w = toBe w n := by
    rw [List.take_append_of_le_length (by omega), List.take_of_length_le (by omega)]
  have hdrop : (toBe w n ++ s).drop w = s := by
    rw [List.drop_append_of_le_length (by omega), List.drop_of_length_le (by omega),
      List.nil_append]
  simp [beNumber, htake, hdrop, ofBe_toBe]

omit [ParseError E] in
theorem lengthData_append {len : Parser E Nat} {input b s : Bytes}
    (h : len input = .done (b ++ s) b.length) : lengthData len input = .done s b := by
  simp [lengthData, h, takeStreaming]

theorem lengthValue_append {len : Parser E Nat} {p : Parser E α} {input b s : Bytes} {a : α}
    (hlen : len input = .done (b ++ s) b.length) (hp : p b = .done [] a) :
    lengthValue len p input = .done s a := by
  simp [lengthValue, hlen, hp]

theorem allConsuming_done {p : Parser E α} {input : Bytes} {a : α}
    (h : p input = .done [] a) : allConsuming p input = .done [] a := by
  simp [allConsuming, h]

/-! ## What a parser returns -/

/-- Every value the parser returns satisfies `P`. -/
def Yields (p : Parser E α) (P : α → Prop) : Prop :=
  ∀ input rest a, p input = .done rest a → P a

section

omit [ParseError E]

theorem andThen_eq_done {r : IResult E α} {f : Bytes → α → IResult E β} {s : Bytes} {b : β}
    (h : r.andThen f = .done s b) : ∃ s' a, r = .done s' a ∧ f s' a = .done s b := by
  cases r with
  | done s' a => exact ⟨s', a, rfl, h⟩
  | error e => cases h
  | failure e => cases h
  | incomplete => cases h

theorem Yields.map {p : Parser E α} {P : α → Prop} {Q : β → Prop} {f : α → β} (hp : Yields p P)
    (hf : ∀ a, P a → Q (f a)) : Yields (map p f) Q := by
  intro input s b h
  obtain ⟨s', a, ha, hb⟩ := andThen_eq_done h
  cases hb
  exact hf a (hp _ _ _ ha)

theorem Yields.preceded {p : Parser E α} {q : Parser E β} {Q : β → Prop} (hq : Yields q Q) :
    Yields (preceded p q) Q := by
  intro input s b h
  obtain ⟨s', a, _, hb⟩ := andThen_eq_done h
  exact hq _ _ _ hb

theorem Yields.mapParser {p : Parser E Bytes} {q : Parser E α} {P : α → Prop} (hq : Yields q P) :
    Yields (mapParser p q) P := by
  intro input s b h
  obtain ⟨s', a, _, hb⟩ := andThen_eq_done h
  obtain ⟨s'', a', ha', hb⟩ := andThen_eq_done hb
  cases hb
  exact hq _ _ _ ha'

theorem Yields.lengthData {len : Parser E Nat} {n : Nat} (h : Yields len (· < n)) :
    Yields (lengthData len) (·.length < n) := by
  intro input s b hb
  obtain ⟨s', m, hm, hb⟩ := andThen_eq_done hb
  rw [takeStreaming] at hb
  split at hb
  · cases hb
    rw [List.length_take]
    have := h _ _ _ hm
    omega
  · cases hb

theorem Yields.mapRes {external : Bytes → ErrorKind → E} {p : Parser E α} {P : α → Prop}
    {Q : β → Prop} {f : α → Option β} (hp : Yields p P) (hf : ∀ a b, P a → f a = some b → Q b) :
    Yields (mapRes external p f) Q := by
  intro input s b h
  obtain ⟨s', a, ha, hb⟩ := andThen_eq_done h
  split at hb
  next b' hb' =>
    cases hb
    exact hf a _ (hp _ _ _ ha) hb'
  next => cases hb

end

theorem Yields.complete {p : Parser E α} {P : α → Prop} (hp : Yields p P) :
    Yields (complete p) P := by
  intro input s a h
  rw [Nom.complete] at h
  split at h
  · cases h
  · exact hp _ _ _ h

theorem Yields.alt {p q : Parser E α} {P : α → Prop} (hp : Yields p P) (hq : Yields q P) :
    Yields (alt p q) P := by
  intro input s a h
  rw [Nom.alt] at h
  split at h
  · split at h
    · cases h
    · exact hq _ _ _ h
  · exact hp _ _ _ h

/-- The third of three parsers decides when the others report errors. -/
theorem alt3_eq_done {p q r : Parser E α} {input rest : Bytes} {a : α}
    (hp : ∃ e, p input = .error e) (hq : ∃ e, q input = .error e)
    (h : alt3 p q r input = .done rest a) : r input = .done rest a := by
  obtain ⟨e, he⟩ := hp
  obtain ⟨e', he'⟩ := hq
  simp only [alt3, he, he'] at h
  split at h
  · cases h
  · exact h

theorem Yields.allConsuming {p : Parser E α} {P : α → Prop} (hp : Yields p P) :
    Yields (allConsuming p) P := by
  intro input s a h
  obtain ⟨s', a', ha, hb⟩ := andThen_eq_done h
  split at hb
  · cases hb
    exact hp _ _ _ ha
  · cases hb

theorem Yields.lengthValue {len : Parser E Nat} {p : Parser E α} {P : α → Prop}
    (hp : Yields p P) : Yields (lengthValue len p) P := by
  intro input s a h
  obtain ⟨s', n, _, h⟩ := andThen_eq_done h
  split at h
  · split at h
    next => cases h
    next hdone =>
      cases h
      exact hp _ _ _ hdone
    next => cases h
    next => cases h
  · cases h

theorem Yields.foldMany0 {p : Parser E α} {P : α → Prop} (hp : Yields p P) (fuel : Nat)
    {acc : List α} (hacc : ∀ a ∈ acc, P a) :
    Yields (foldMany0 p fuel acc) (fun l => ∀ a ∈ l, P a) := by
  induction fuel generalizing acc with
  | zero =>
      intro input s l h
      cases h
  | succ fuel ih =>
      intro input s l h
      rw [Nom.foldMany0] at h
      split at h
      next s' a ha =>
        split at h
        · cases h
        · refine ih ?_ _ _ _ h
          intro x hx
          rcases List.mem_append.mp hx with hx | hx
          · exact hacc x hx
          · rw [List.mem_singleton.mp hx]
            exact hp _ _ _ ha
      next =>
        cases h
        exact hacc
      next => cases h
      next => cases h

theorem Yields.many0 {p : Parser E α} {P : α → Prop} (hp : Yields p P) :
    Yields (many0 p) (fun l => ∀ a ∈ l, P a) := fun input =>
  hp.foldMany0 (input.length + 1) (List.forall_mem_nil _) input

theorem Yields.foldManyMax {p : Parser E α} {P : α → Prop} (hp : Yields p P) (max : Nat)
    {acc : List α} (hacc : ∀ a ∈ acc, P a) :
    Yields (foldManyMax p max acc) (fun l => ∀ a ∈ l, P a) := by
  induction max generalizing acc with
  | zero =>
      intro input s l h
      cases h
      exact hacc
  | succ max ih =>
      intro input s l h
      rw [Nom.foldManyMax] at h
      split at h
      next s' a ha =>
        split at h
        · cases h
        · refine ih ?_ _ _ _ h
          intro x hx
          rcases List.mem_append.mp hx with hx | hx
          · exact hacc x hx
          · rw [List.mem_singleton.mp hx]
            exact hp _ _ _ ha
      next =>
        cases h
        exact hacc
      next => cases h
      next => cases h

/-! ## What a parser takes -/

/-- Every value the parser returns satisfies `P`, and takes at least `cost` of it from the
input. -/
def Spends (p : Parser E α) (cost : α → Nat) (P : α → Prop) : Prop :=
  ∀ input rest a, p input = .done rest a → P a ∧ cost a + rest.length ≤ input.length

section

omit [ParseError E]

theorem Spends.mono {p : Parser E α} {cost cost' : α → Nat} {P P' : α → Prop}
    (h : Spends p cost P) (imp : ∀ a, P a → P' a ∧ cost' a = cost a) : Spends p cost' P' := by
  intro input rest a ha
  obtain ⟨hP, hle⟩ := h input rest a ha
  obtain ⟨hP', hcost⟩ := imp a hP
  exact ⟨hP', hcost ▸ hle⟩

theorem spends_success (a : α) : Spends (success (E := E) a) (fun _ => 0) (· = a) := by
  intro input rest b h
  cases h
  exact ⟨rfl, Nat.le_of_eq (Nat.zero_add _)⟩

theorem Spends.map {p : Parser E α} {f : α → β} {cost : α → Nat} {cost' : β → Nat} {P : α → Prop}
    {Q : β → Prop} (h : Spends p cost P) (imp : ∀ a, P a → Q (f a) ∧ cost' (f a) = cost a) :
    Spends (map p f) cost' Q := by
  intro input rest b hb
  obtain ⟨rest', a, ha, hb⟩ := andThen_eq_done hb
  cases hb
  obtain ⟨hP, hle⟩ := h _ _ _ ha
  obtain ⟨hQ, hcost⟩ := imp a hP
  exact ⟨hQ, hcost ▸ hle⟩

theorem Spends.preceded {p : Parser E α} {q : Parser E β} {n : Nat} {cost : β → Nat} {P : α → Prop}
    {Q : β → Prop} (hp : Spends p (fun _ => n) P) (hq : Spends q cost Q) :
    Spends (preceded p q) (fun b => n + cost b) Q := by
  intro input rest b hb
  obtain ⟨rest', a, ha, hb⟩ := andThen_eq_done hb
  have hle : n + rest'.length ≤ input.length := (hp _ _ _ ha).2
  obtain ⟨hQ, hle'⟩ := hq _ _ _ hb
  refine ⟨hQ, ?_⟩
  show n + cost b + rest.length ≤ input.length
  omega

/-- A length in front of bytes. -/
theorem Spends.lengthData {len : Parser E Nat} {n : Nat} {P : Nat → Prop}
    (h : Spends len (fun _ => n) P) :
    Spends (lengthData len) (fun b => n + b.length) (fun b => P b.length) := by
  intro input rest b hb
  obtain ⟨rest', m, hm, hb⟩ := andThen_eq_done hb
  obtain ⟨hP, hle⟩ := h _ _ _ hm
  rw [takeStreaming] at hb
  split at hb
  next hlen =>
    cases hb
    dsimp only at hle ⊢
    rw [List.length_take_of_le hlen, List.length_drop]
    exact ⟨hP, by omega⟩
  next => cases hb

theorem Spends.mapRes {external : Bytes → ErrorKind → E} {p : Parser E α} {f : α → Option β}
    {cost : α → Nat} {cost' : β → Nat} {P : α → Prop} {Q : β → Prop} (h : Spends p cost P)
    (imp : ∀ a b, P a → f a = some b → Q b ∧ cost' b = cost a) :
    Spends (mapRes external p f) cost' Q := by
  intro input rest b hb
  obtain ⟨rest', a, ha, hb⟩ := andThen_eq_done hb
  obtain ⟨hP, hle⟩ := h _ _ _ ha
  split at hb
  next b' hb' =>
    cases hb
    obtain ⟨hQ, hcost⟩ := imp a _ hP hb'
    exact ⟨hQ, hcost ▸ hle⟩
  next => cases hb

end

theorem spends_take (n : Nat) : Spends (take (E := E) n) List.length (·.length = n) := by
  intro input rest b hb
  rw [take] at hb
  split at hb
  next hlen =>
    cases hb
    have htake : (input.take n).length = n := List.length_take_of_le hlen
    refine ⟨htake, ?_⟩
    rw [htake, List.length_drop]
    omega
  next => cases hb

theorem spends_beNumber (w : Nat) :
    Spends (beNumber (E := E) w) (fun _ => w) (fun n => n < 256 ^ w) := by
  intro input rest n hn
  rw [beNumber] at hn
  split at hn
  next hlen =>
    cases hn
    have hlt := ofBe_lt (input.take w)
    rw [List.length_take_of_le hlen] at hlt
    refine ⟨hlt, ?_⟩
    dsimp only
    rw [List.length_drop]
    omega
  next => cases hn

theorem spends_tag (t : Bytes) : Spends (tag (E := E) t) (fun _ => t.length) (fun _ => True) := by
  intro input rest b hb
  rw [tag] at hb
  split at hb
  next hprefix =>
    cases hb
    have hle := hprefix.length_le
    refine ⟨trivial, ?_⟩
    dsimp only
    rw [List.length_drop]
    omega
  next => cases hb

theorem Spends.complete {p : Parser E α} {cost : α → Nat} {P : α → Prop} (h : Spends p cost P) :
    Spends (complete p) cost P := by
  intro input rest a ha
  rw [Nom.complete] at ha
  split at ha
  · cases ha
  · exact h _ _ _ ha

theorem Spends.alt {p q : Parser E α} {cost : α → Nat} {P : α → Prop} (hp : Spends p cost P)
    (hq : Spends q cost P) : Spends (alt p q) cost P := by
  intro input rest a ha
  rw [Nom.alt] at ha
  split at ha
  · split at ha
    · cases ha
    · exact hq _ _ _ ha
  · exact hp _ _ _ ha

/-- A length in front of a value that fills it. -/
theorem Spends.lengthValue {len : Parser E Nat} {p : Parser E α} {n : Nat} {cost : α → Nat}
    {P : Nat → Prop} {Q : α → Prop} (hlen : Spends len (fun _ => n) P) (hp : Spends p cost Q) :
    Spends (lengthValue len (allConsuming p)) (fun a => n + cost a)
      (fun a => Q a ∧ ∃ m, P m ∧ cost a ≤ m) := by
  intro input rest a ha
  obtain ⟨rest', m, hm, ha⟩ := andThen_eq_done ha
  obtain ⟨hP, hle⟩ := hlen _ _ _ hm
  split at ha
  next hfits =>
    split at ha
    next => cases ha
    next rest'' a' hdone =>
      cases ha
      obtain ⟨rest₃, a₃, ha₃, hdone⟩ := andThen_eq_done hdone
      split at hdone
      next =>
        cases hdone
        obtain ⟨hQ, hcost⟩ := hp _ _ _ ha₃
        rw [List.length_take_of_le hfits] at hcost
        refine ⟨⟨hQ, m, hP, by omega⟩, ?_⟩
        dsimp only at hle ⊢
        rw [List.length_drop]
        omega
      next => cases hdone
    next => cases ha
    next => cases ha
  next => cases ha

theorem Spends.foldMany0 {p : Parser E α} {cost : α → Nat} {P : α → Prop} (hp : Spends p cost P)
    (fuel : Nat) {acc : List α} (hacc : ∀ a ∈ acc, P a) {input rest : Bytes} {l : List α}
    (h : foldMany0 p fuel acc input = .done rest l) :
    (∀ a ∈ l, P a) ∧ (l.map cost).sum + rest.length ≤ (acc.map cost).sum + input.length := by
  induction fuel generalizing acc input with
  | zero => cases h
  | succ fuel ih =>
      rw [Nom.foldMany0] at h
      split at h
      next rest' a ha =>
        split at h
        next => cases h
        next =>
          obtain ⟨hP, hle⟩ := hp _ _ _ ha
          have hacc' : ∀ b ∈ acc ++ [a], P b := by
            intro b hb
            simp only [List.mem_append, List.mem_singleton] at hb
            obtain hb | rfl := hb
            · exact hacc b hb
            · exact hP
          obtain ⟨hall, hsum⟩ := ih hacc' h
          rw [List.map_append, List.sum_append, List.map_singleton, List.sum_singleton] at hsum
          exact ⟨hall, by omega⟩
      next =>
        cases h
        exact ⟨hacc, Nat.le_refl _⟩
      next => cases h
      next => cases h

theorem Spends.many0 {p : Parser E α} {cost : α → Nat} {P : α → Prop} (hp : Spends p cost P) :
    Spends (many0 p) (fun l => (l.map cost).sum) (fun l => ∀ a ∈ l, P a) := by
  intro input rest l h
  obtain ⟨hall, hsum⟩ := hp.foldMany0 _ (List.forall_mem_nil _) h
  exact ⟨hall, by simpa using hsum⟩

theorem Spends.foldManyMax {p : Parser E α} {cost : α → Nat} {P : α → Prop} (hp : Spends p cost P)
    (max : Nat) {acc : List α} (hacc : ∀ a ∈ acc, P a) {input rest : Bytes} {l : List α}
    (h : foldManyMax p max acc input = .done rest l) :
    (∀ a ∈ l, P a) ∧ l.length ≤ acc.length + max ∧
      (l.map cost).sum + rest.length ≤ (acc.map cost).sum + input.length := by
  induction max generalizing acc input with
  | zero =>
      cases h
      exact ⟨hacc, Nat.le_refl _, Nat.le_refl _⟩
  | succ max ih =>
      rw [Nom.foldManyMax] at h
      split at h
      next rest' a ha =>
        split at h
        next => cases h
        next =>
          obtain ⟨hP, hle⟩ := hp _ _ _ ha
          have hacc' : ∀ b ∈ acc ++ [a], P b := by
            intro b hb
            simp only [List.mem_append, List.mem_singleton] at hb
            obtain hb | rfl := hb
            · exact hacc b hb
            · exact hP
          obtain ⟨hall, hlen, hsum⟩ := ih hacc' h
          rw [List.length_append, List.length_singleton] at hlen
          rw [List.map_append, List.sum_append, List.map_singleton, List.sum_singleton] at hsum
          exact ⟨hall, by omega, by omega⟩
      next =>
        cases h
        exact ⟨hacc, Nat.le_add_right _ _, Nat.le_refl _⟩
      next => cases h
      next => cases h

/-- A loop with an end marker. -/
theorem Spends.manyTill {p : Parser E α} {q : Parser E β} {cost : α → Nat} {n : Nat} {P : α → Prop}
    {Q : β → Prop} (hp : Spends p cost P) (hq : Spends q (fun _ => n) Q) :
    Spends (manyTill p q) (fun l => n + (l.map cost).sum) (fun l => ∀ a ∈ l, P a) := by
  have loop : ∀ (fuel : Nat) (acc : List α) (input rest : Bytes) (l : List α), (∀ a ∈ acc, P a) →
      foldManyTill p q fuel acc input = .done rest l →
      (∀ a ∈ l, P a) ∧ n + (l.map cost).sum + rest.length ≤ (acc.map cost).sum + input.length := by
    intro fuel
    induction fuel with
    | zero =>
        intro acc input rest l _ h
        cases h
    | succ fuel ih =>
        intro acc input rest l hacc h
        rw [foldManyTill] at h
        split at h
        next rest' b hb =>
          cases h
          have hle : n + rest.length ≤ input.length := (hq _ _ _ hb).2
          exact ⟨hacc, by omega⟩
        next =>
          split at h
          next rest' a ha =>
            split at h
            next => cases h
            next =>
              obtain ⟨hP, hle⟩ := hp _ _ _ ha
              have hacc' : ∀ b ∈ acc ++ [a], P b := by
                intro b hb
                simp only [List.mem_append, List.mem_singleton] at hb
                obtain hb | rfl := hb
                · exact hacc b hb
                · exact hP
              obtain ⟨hall, hsum⟩ := ih _ _ _ _ hacc' h
              rw [List.map_append, List.sum_append, List.map_singleton, List.sum_singleton] at hsum
              exact ⟨hall, by omega⟩
          next => cases h
          next => cases h
          next => cases h
        next => cases h
        next => cases h
  intro input rest l h
  obtain ⟨hall, hsum⟩ := loop _ _ _ _ _ (List.forall_mem_nil _) h
  exact ⟨hall, by simpa using hsum⟩

/-! ## The bytes behind a value -/

/-- The bytes the parser takes for a value are those `write` gives for it. -/
def Consumes (p : Parser E α) (write : α → Bytes) : Prop :=
  ∀ input rest a, p input = .done rest a → input = write a ++ rest

section

omit [ParseError E]

theorem Consumes.congr {p : Parser E α} {write write' : α → Bytes} (h : Consumes p write)
    (heq : ∀ a, write a = write' a) : Consumes p write' := by
  intro input rest a ha
  rw [← heq a]
  exact h input rest a ha

theorem consumes_success (a : α) : Consumes (success (E := E) a) fun _ => [] := by
  intro input rest b h
  cases h
  rfl

theorem Consumes.map {p : Parser E α} {f : α → β} {write : α → Bytes} {write' : β → Bytes}
    (h : Consumes p write) (heq : ∀ a, write a = write' (f a)) : Consumes (map p f) write' := by
  intro input rest b hb
  obtain ⟨rest', a, ha, hb⟩ := andThen_eq_done hb
  cases hb
  rw [← heq a]
  exact h _ _ _ ha

/-- What stands in front of a value, when it is the same for every value. -/
theorem Consumes.preceded {p : Parser E α} {q : Parser E β} {marker : Bytes} {write : β → Bytes}
    (hp : Consumes p fun _ => marker) (hq : Consumes q write) :
    Consumes (preceded p q) fun b => marker ++ write b := by
  intro input rest b hb
  obtain ⟨rest', a, ha, hb⟩ := andThen_eq_done hb
  have hmarker := hp _ _ _ ha
  have hvalue := hq _ _ _ hb
  simp [hmarker, hvalue]

end

theorem consumes_take (n : Nat) : Consumes (take (E := E) n) id := by
  intro input rest b h
  rw [take] at h
  split at h
  · cases h
    exact (List.take_append_drop n input).symm
  · cases h

theorem consumes_tag (t : Bytes) : Consumes (tag (E := E) t) fun _ => t := by
  intro input rest b h
  rw [tag] at h
  split at h
  next hprefix =>
    obtain ⟨s, rfl⟩ := hprefix
    cases h
    simp
  next => cases h

theorem Consumes.alt {p q : Parser E α} {write : α → Bytes} (hp : Consumes p write)
    (hq : Consumes q write) : Consumes (alt p q) write := by
  intro input rest a h
  rw [Nom.alt] at h
  split at h
  · split at h
    · cases h
    · exact hq _ _ _ h
  · exact hp _ _ _ h

theorem Consumes.foldManyTill {p : Parser E α} {q : Parser E β} {write : α → Bytes} {marker : Bytes}
    (hp : Consumes p write) (hq : Consumes q fun _ => marker) (fuel : Nat) {acc : List α}
    {input rest : Bytes} {l : List α} (h : foldManyTill p q fuel acc input = .done rest l) :
    ∃ l', l = acc ++ l' ∧ input = (l'.map write).flatten ++ marker ++ rest := by
  induction fuel generalizing acc input with
  | zero => cases h
  | succ fuel ih =>
      rw [Nom.foldManyTill] at h
      split at h
      next rest' b hb =>
        cases h
        exact ⟨[], by simp, by simpa using hq _ _ _ hb⟩
      next =>
        split at h
        next rest' a ha =>
          split at h
          next => cases h
          next =>
            obtain ⟨l', rfl, hrest⟩ := ih h
            have hinput := hp _ _ _ ha
            exact ⟨a :: l', by simp, by simp [hinput, hrest]⟩
        next => cases h
        next => cases h
        next => cases h
      next => cases h
      next => cases h

/-- A loop takes the bytes of its values, and those of the end marker. -/
theorem Consumes.manyTill {p : Parser E α} {q : Parser E β} {write : α → Bytes} {marker : Bytes}
    (hp : Consumes p write) (hq : Consumes q fun _ => marker) :
    Consumes (manyTill p q) fun l => (l.map write).flatten ++ marker := by
  intro input rest l h
  obtain ⟨l', rfl, hinput⟩ := hp.foldManyTill hq _ h
  exact hinput

/-! ## The bytes behind a value, as a relation -/

/-- The bytes the parser takes for a value are related to it by `W`. -/
def Takes (p : Parser E α) (W : α → Bytes → Prop) : Prop :=
  ∀ input rest a, p input = .done rest a → ∃ b, W a b ∧ input = b ++ rest

section

omit [ParseError E]

theorem Consumes.takes {p : Parser E α} {write : α → Bytes} (h : Consumes p write) :
    Takes p fun a b => b = write a := fun input rest a ha =>
  ⟨write a, rfl, h input rest a ha⟩

theorem Takes.mono {p : Parser E α} {W W' : α → Bytes → Prop} (h : Takes p W)
    (imp : ∀ a b, W a b → W' a b) : Takes p W' := by
  intro input rest a ha
  obtain ⟨b, hb, hinput⟩ := h input rest a ha
  exact ⟨b, imp a b hb, hinput⟩

theorem Takes.map {p : Parser E α} {f : α → β} {W : α → Bytes → Prop} {W' : β → Bytes → Prop}
    (h : Takes p W) (imp : ∀ a b, W a b → W' (f a) b) : Takes (map p f) W' := by
  intro input rest c hc
  obtain ⟨rest', a, ha, hc⟩ := andThen_eq_done hc
  cases hc
  obtain ⟨b, hb, hinput⟩ := h _ _ _ ha
  exact ⟨b, imp a b hb, hinput⟩

/-- A length in front of bytes. -/
theorem Takes.lengthData {len : Parser E Nat} {L : Nat → Bytes → Prop} (h : Takes len L) :
    Takes (lengthData len) fun v b => ∃ l, L v.length l ∧ b = l ++ v := by
  intro input rest v hv
  obtain ⟨rest', n, hn, hv⟩ := andThen_eq_done hv
  obtain ⟨l, hl, hinput⟩ := h _ _ _ hn
  rw [takeStreaming] at hv
  split at hv
  next hle =>
    cases hv
    have hlen : (rest'.take n).length = n := List.length_take_of_le hle
    exact ⟨l ++ rest'.take n, ⟨l, hlen.symm ▸ hl, rfl⟩, by simp [hinput]⟩
  next => cases hv

theorem Takes.mapRes {external : Bytes → ErrorKind → E} {p : Parser E α} {f : α → Option β}
    {W : α → Bytes → Prop} {W' : β → Bytes → Prop} (h : Takes p W)
    (imp : ∀ a c b, W a b → f a = some c → W' c b) : Takes (mapRes external p f) W' := by
  intro input rest c hc
  obtain ⟨rest', a, ha, hc⟩ := andThen_eq_done hc
  obtain ⟨b, hb, hinput⟩ := h _ _ _ ha
  split at hc
  next c' hc' =>
    cases hc
    exact ⟨b, imp a _ b hb hc', hinput⟩
  next => cases hc

end

theorem takes_beNumber (w : Nat) :
    Takes (beNumber (E := E) w) fun n b => b = toBe w n ∧ n < 256 ^ w := by
  intro input rest n hn
  rw [beNumber] at hn
  split at hn
  next hle =>
    cases hn
    have hlen : (input.take w).length = w := List.length_take_of_le hle
    have hwrite := toBe_ofBe (input.take w)
    have hlt := ofBe_lt (input.take w)
    rw [hlen] at hwrite hlt
    exact ⟨input.take w, ⟨hwrite.symm, hlt⟩, (List.take_append_drop w input).symm⟩
  next => cases hn

theorem Takes.complete {p : Parser E α} {W : α → Bytes → Prop} (h : Takes p W) :
    Takes (complete p) W := by
  intro input rest a ha
  rw [Nom.complete] at ha
  split at ha
  · cases ha
  · exact h _ _ _ ha

theorem Takes.alt {p q : Parser E α} {W : α → Bytes → Prop} (hp : Takes p W) (hq : Takes q W) :
    Takes (alt p q) W := by
  intro input rest a ha
  rw [Nom.alt] at ha
  split at ha
  · split at ha
    · cases ha
    · exact hq _ _ _ ha
  · exact hp _ _ _ ha

/-- A parser that takes all of its input. -/
theorem Takes.allConsuming {p : Parser E α} {W : α → Bytes → Prop} (h : Takes p W)
    {input rest : Bytes} {a : α} (ha : allConsuming p input = .done rest a) :
    W a input ∧ rest = [] := by
  obtain ⟨rest', a', hp, ha⟩ := andThen_eq_done ha
  obtain ⟨b, hb, hinput⟩ := h _ _ _ hp
  split at ha
  next hnil =>
    cases ha
    rw [List.length_eq_zero_iff.mp hnil] at hinput ⊢
    rw [hinput, List.append_nil]
    exact ⟨hb, rfl⟩
  next => cases ha

/-- A length in front of a value that fills it. -/
theorem Takes.lengthValue {len : Parser E Nat} {p : Parser E α} {L : Nat → Bytes → Prop}
    {W : α → Bytes → Prop} (hlen : Takes len L) (hp : Takes p W) :
    Takes (lengthValue len (Nom.allConsuming p)) fun a b =>
      ∃ l c, L c.length l ∧ W a c ∧ b = l ++ c := by
  intro input rest a ha
  obtain ⟨rest', n, hn, ha⟩ := andThen_eq_done ha
  obtain ⟨l, hl, hinput⟩ := hlen _ _ _ hn
  split at ha
  next hle =>
    split at ha
    next => cases ha
    next rest'' a' hdone =>
      cases ha
      obtain ⟨hvalue, _⟩ := hp.allConsuming hdone
      have htake : (rest'.take n).length = n := List.length_take_of_le hle
      exact ⟨l ++ rest'.take n, ⟨l, rest'.take n, htake.symm ▸ hl, hvalue, rfl⟩, by simp [hinput]⟩
    next => cases ha
    next => cases ha
  next => cases ha

/-- A loop takes the bytes of its values, one after the other. -/
theorem Takes.foldMany0 {p : Parser E α} {W : α → Bytes → Prop} (hp : Takes p W) (fuel : Nat)
    {acc : List α} {input rest : Bytes} {l : List α}
    (h : foldMany0 p fuel acc input = .done rest l) :
    ∃ l' bs, l = acc ++ l' ∧ List.Forall₂ W l' bs ∧ input = bs.flatten ++ rest := by
  induction fuel generalizing acc input with
  | zero => cases h
  | succ fuel ih =>
      rw [Nom.foldMany0] at h
      split at h
      next rest' a ha =>
        split at h
        next => cases h
        next =>
          obtain ⟨b, hb, hinput⟩ := hp _ _ _ ha
          obtain ⟨l', bs, rfl, hbs, hrest⟩ := ih h
          exact ⟨a :: l', b :: bs, by simp, .cons hb hbs, by simp [hinput, hrest]⟩
      next =>
        cases h
        exact ⟨[], [], by simp, .nil, rfl⟩
      next => cases h
      next => cases h

theorem Takes.many0 {p : Parser E α} {W : α → Bytes → Prop} (hp : Takes p W) :
    Takes (many0 p) fun l b => ∃ bs, List.Forall₂ W l bs ∧ b = bs.flatten := by
  intro input rest l h
  obtain ⟨l', bs, rfl, hbs, hinput⟩ := hp.foldMany0 _ h
  exact ⟨bs.flatten, ⟨bs, hbs, rfl⟩, hinput⟩

theorem Takes.foldManyMax {p : Parser E α} {W : α → Bytes → Prop} (hp : Takes p W) (max : Nat)
    {acc : List α} {input rest : Bytes} {l : List α}
    (h : foldManyMax p max acc input = .done rest l) :
    ∃ l' bs, l = acc ++ l' ∧ l'.length ≤ max ∧ List.Forall₂ W l' bs ∧
      input = bs.flatten ++ rest := by
  induction max generalizing acc input with
  | zero =>
      cases h
      exact ⟨[], [], by simp, Nat.le_refl 0, .nil, rfl⟩
  | succ max ih =>
      rw [Nom.foldManyMax] at h
      split at h
      next rest' a ha =>
        split at h
        next => cases h
        next =>
          obtain ⟨b, hb, hinput⟩ := hp _ _ _ ha
          obtain ⟨l', bs, rfl, hmax, hbs, hrest⟩ := ih h
          exact ⟨a :: l', b :: bs, by simp, Nat.succ_le_succ hmax, .cons hb hbs,
            by simp [hinput, hrest]⟩
      next =>
        cases h
        exact ⟨[], [], by simp, Nat.zero_le _, .nil, rfl⟩
      next => cases h
      next => cases h

/-! ## More input -/

/-- What the parser returns does not depend on what stands behind the bytes it takes. -/
def Local (p : Parser E α) : Prop :=
  ∀ input rest a s, p input = .done rest a → p (input ++ s) = .done (rest ++ s) a

section

omit [ParseError E]

theorem Local.map {p : Parser E α} (h : Local p) (f : α → β) : Local (map p f) := by
  intro input rest b s hb
  obtain ⟨rest', a, ha, hb⟩ := andThen_eq_done hb
  cases hb
  simp [Nom.map, h _ _ _ s ha]

theorem Local.preceded {p : Parser E α} {q : Parser E β} (hp : Local p) (hq : Local q) :
    Local (preceded p q) := by
  intro input rest b s hb
  obtain ⟨rest', a, ha, hb⟩ := andThen_eq_done hb
  simp [Nom.preceded, hp _ _ _ s ha, hq _ _ _ s hb]

end

theorem local_take (n : Nat) : Local (take (E := E) n) := by
  intro input rest b s h
  rw [take] at h
  split at h
  next hlen =>
    cases h
    have hle : n ≤ (input ++ s).length := by
      rw [List.length_append]
      omega
    rw [take, if_pos hle, List.drop_append_of_le_length hlen, List.take_append_of_le_length hlen]
  next => cases h

theorem local_beNumber (w : Nat) : Local (beNumber (E := E) w) := by
  intro input rest n s h
  rw [beNumber] at h
  split at h
  next hlen =>
    cases h
    have hle : w ≤ (input ++ s).length := by
      rw [List.length_append]
      omega
    rw [beNumber, if_pos hle, List.drop_append_of_le_length hlen,
      List.take_append_of_le_length hlen]
  next => cases h

end NodeFuzzer.Nom
