import NodeFuzzer.Encoding.WellFormed

/-!
# The derived reader reads what the derived writer wrote

The writer and the reader interpret a schema independently.  They agree on the
well-formed schemas and on the values whose strings are shorter than `2 ^ 32`
bytes.  Longer strings are written with a truncated length.

The agreement is by induction on the schema (`generateNomRead_append`).  Its list
case needs that the reader of the elements stops at the end of the input, which
is `generateNomRead_nil`.  In the other direction, every value a reader returns
has short strings (`shortStrings_of_generateNomRead`).
-/

namespace NodeFuzzer

open Nom

/-! ## Reading back -/

/-- A number of `w` bytes is read back through any type it embeds in. -/
theorem map_beNumber_append {α : Type} {w n : Nat} {f : Nat → α} {v : α} (hn : n < 256 ^ w)
    (hf : f n = v) (t : Bytes) :
    map (E := DecodeError) (beNumber w) f (toBe w n ++ t) = .done t v := by
  rw [map, beNumber_append, andThen_done, Nat.mod_eq_of_lt hn, hf]

theorem nomRead_append {p : PrimitiveEncoding} {v : p.Val} {b : Bytes}
    (h : body p.encoding (p.toValue v) = .ok b) (t : Bytes) : p.nomRead (b ++ t) = .done t v := by
  cases p with
  | int8 =>
      cases h
      exact map_beNumber_append (UInt8.toNat_lt _) (congrArg Int8.ofUInt8 UInt8.ofNat_toNat) t
  | uint8 =>
      cases h
      exact map_beNumber_append (UInt8.toNat_lt _) UInt8.ofNat_toNat t
  | int16 =>
      cases h
      exact map_beNumber_append (UInt16.toNat_lt _) (congrArg Int16.ofUInt16 UInt16.ofNat_toNat) t
  | uint16 =>
      cases h
      exact map_beNumber_append (UInt16.toNat_lt _) UInt16.ofNat_toNat t
  | int31 =>
      simp only [PrimitiveEncoding.toValue, PrimitiveEncoding.encoding, body] at h
      split at h
      next =>
        cases h
        exact map_beNumber_append (UInt32.toNat_lt _)
          (congrArg Int32.ofUInt32 UInt32.ofNat_toNat) t
      next => cases h
  | int32 =>
      cases h
      exact map_beNumber_append (UInt32.toNat_lt _) (congrArg Int32.ofUInt32 UInt32.ofNat_toNat) t
  | uint32 =>
      simp only [PrimitiveEncoding.toValue, PrimitiveEncoding.encoding] at h
      split at h
      next =>
        cases (ite_eq_ok h).2
        exact map_beNumber_append (UInt32.toNat_lt _) UInt32.ofNat_toNat t
      next => cases h
  | int64 | timestamp =>
      cases h
      exact map_beNumber_append (UInt64.toNat_lt _) (congrArg Int64.ofUInt64 UInt64.ofNat_toNat) t
  | float =>
      cases h
      exact map_beNumber_append (UInt64.toNat_lt _) UInt64.ofNat_toNat t
  | bool =>
      cases h
      exact boolean_append v t

/-- A reader of list elements reads them one by one up to the end of the input. -/
theorem list_flatten {α : Type} {f : Reader α} {e : DecodeError} (hnil : f [] = .error e)
    {vs : List α} {bs : List Bytes}
    (h : List.Forall₂ (fun v b => b ≠ [] ∧ ∀ t, f (b ++ t) = .done t v) vs bs) :
    ∀ {fuel : Nat} (acc : List α), vs.length < fuel →
      foldMany0 f fuel acc bs.flatten = .done [] (acc ++ vs) := by
  induction h with
  | nil =>
      intro fuel acc hf
      obtain ⟨fuel, rfl⟩ : ∃ n, fuel = n + 1 := ⟨fuel - 1, by simp at hf; omega⟩
      simp [foldMany0, hnil]
  | @cons v b vs bs hb _ ih =>
      intro fuel acc hf
      obtain ⟨fuel, rfl⟩ : ∃ n, fuel = n + 1 := ⟨fuel - 1, by simp at hf; omega⟩
      have hne : ¬ bs.flatten = b ++ bs.flatten := by
        intro h
        exact hb.1 (List.self_eq_append_left.mp h)
      simp only [List.flatten_cons, foldMany0, hb.2, if_neg hne]
      rw [ih (acc ++ [v]) (by simpa using hf)]
      simp

theorem boundedList_flatten {α : Type} {f : Reader α} {e : DecodeError} (hnil : f [] = .error e)
    {vs : List α} {bs : List Bytes}
    (h : List.Forall₂ (fun v b => b ≠ [] ∧ ∀ t, f (b ++ t) = .done t v) vs bs) :
    ∀ {max : Nat} (acc : List α), vs.length ≤ max →
      foldManyMax f max acc bs.flatten = .done [] (acc ++ vs) := by
  induction h with
  | nil =>
      intro max acc _
      cases max <;> simp [foldManyMax, hnil]
  | @cons v b vs bs hb _ ih =>
      intro max acc hf
      obtain ⟨max, rfl⟩ : ∃ n, max = n + 1 := ⟨max - 1, by simp at hf; omega⟩
      have hne : ¬ bs.flatten = b ++ bs.flatten := by
        intro h
        exact hb.1 (List.self_eq_append_left.mp h)
      simp only [List.flatten_cons, foldManyMax, hb.2, if_neg hne]
      rw [ih (acc ++ [v]) (by simpa using hf)]
      simp

theorem length_le_flatten {α : Type} {P : α → Bytes → Prop} {vs : List α} {bs : List Bytes}
    (h : List.Forall₂ (fun v b => b ≠ [] ∧ P v b) vs bs) : vs.length ≤ bs.flatten.length := by
  induction h with
  | nil => simp
  | cons hb _ ih =>
      have hpos := List.length_pos_iff.mpr hb.1
      simp only [List.flatten_cons, List.length_cons, List.length_append]
      omega

/-- What a reader may do at the end of the input: fail, so that a list ends
there, or return a value that is written with no bytes. -/
def StopsAt {α : Type} (P : α → Prop) (r : IResult DecodeError α) : Prop :=
  (∃ e, r = .error e) ∨ ∃ v, r = .done [] v ∧ P v

theorem beNumber_nil {w : Nat} (hw : 0 < w) : ∃ e, beNumber (E := DecodeError) w [] = .error e := by
  refine ⟨ParseError.fromErrorKind [] .eof, ?_⟩
  rw [beNumber, if_neg (by simp; omega)]

theorem nomRead_nil (p : PrimitiveEncoding) : ∃ e, p.nomRead [] = .error e := by
  cases p <;> exact ⟨_, rfl⟩

theorem path_nil (maxDepth : Option Nat) : ∃ e, path maxDepth [] = .error e := ⟨_, rfl⟩

/-- The reader of a structure reads its fields; only the names in errors depend on
their number. -/
theorem generateNomRead_struct (name : String) (fields : Fields) :
    ∃ label, generateNomRead (.struct name fields) = generateFieldsNomRead label fields := by
  by_cases h : fields.len = 1
  · exact ⟨id, if_pos h⟩
  · exact ⟨fun field => name ++ "::" ++ field, if_neg h⟩

mutual

/-- At the end of the input a reader fails or returns a value of no bytes. -/
theorem generateNomRead_nil : (s : Schema) → s.Wf →
    StopsAt (Encodes s · []) (generateNomRead s [])
  | .primitive p, _ => .inl (nomRead_nil p)
  | .bytes, _ => .inr ⟨[], rfl, .list [], rfl, rfl⟩
  | .hash t, _ => by
      refine .inl ⟨ParseError.fromErrorKind [] .eof, ?_⟩
      exact if_neg (by simpa using t.size_pos.ne')
  | .path, _ => .inl (path_nil _)
  | .string none, _ => .inl ⟨_, rfl⟩
  | .string (some max), _ => .inl ⟨_, rfl⟩
  | .struct name fields, ⟨hnd, hwf⟩ => by
      obtain ⟨label, hlabel⟩ := generateNomRead_struct name fields
      rw [hlabel]
      rcases generateFieldsNomRead_nil label fields hwf with ⟨e, he⟩ | ⟨v, hv, henc⟩
      · exact .inl ⟨e, he⟩
      · exact .inr ⟨v, hv, encodes_struct_of hnd henc (by simp)⟩
  | .enum name tagType ignoreUnknown tags, _ => by
      obtain ⟨e, he⟩ := beNumber_nil (w := tagType.size) (by cases tagType <;> decide)
      refine .inl ⟨e, ?_⟩
      simp only [generateNomRead, he]
      rfl
  | .optionField inner, _ => .inl ⟨_, rfl⟩
  | .list none inner, ⟨hwf, _, hne⟩ => by
      rcases generateNomRead_nil inner hwf with ⟨e, he⟩ | ⟨v, hv, henc⟩
      · refine .inr ⟨[], ?_, .list [], rfl, rfl⟩
        change list (generateNomRead inner) [] = .done [] []
        simp [list, many0, foldMany0, he]
      · exact absurd rfl (hne v [] henc)
  | .list (some max) inner, ⟨hwf, _, hne⟩ => by
      rcases generateNomRead_nil inner hwf with ⟨e, he⟩ | ⟨v, hv, henc⟩
      · refine .inr ⟨[], ?_, .list [], rfl, ?_⟩
        · change boundedList max (generateNomRead inner) [] = .done [] []
          cases max <;> simp [boundedList, foldManyMax, he, IResult.andThen]
        · simp [generateEncoding, body, bodyElements]
      · exact absurd rfl (hne v [] henc)
  | .sized size inner, hwf => by
      by_cases hsize : size = 0
      · subst hsize
        rcases generateNomRead_nil inner hwf with ⟨e, he⟩ | ⟨v, hv, ⟨value, hs, hb⟩⟩
        · refine .inl ⟨e, ?_⟩
          simp [generateNomRead, Nom.sized, mapParser, take, IResult.andThen, he]
        · refine .inr ⟨v, ?_, value, hs, ?_⟩
          · simp [generateNomRead, Nom.sized, mapParser, take, IResult.andThen, hv]
          · simp [generateEncoding, body, hb, bind, Except.bind]
      · refine .inl ⟨ParseError.fromErrorKind [] .eof, ?_⟩
        simp [generateNomRead, Nom.sized, mapParser, take, IResult.andThen, hsize]
  | .bounded max inner, hwf => by
      rcases generateNomRead_nil inner hwf with ⟨e, he⟩ | ⟨v, hv, ⟨value, hs, hb⟩⟩
      · refine .inl ⟨boundaryError e, ?_⟩
        simp [generateNomRead, Nom.bounded, he]
      · refine .inr ⟨v, ?_, value, hs, ?_⟩
        · simp [generateNomRead, Nom.bounded, hv]
        · simp [generateEncoding, body, hb, bind, Except.bind]
  | .dynamic none inner, _ => .inl ⟨_, rfl⟩
  | .dynamic (some max) inner, _ => .inl ⟨_, rfl⟩

theorem generateFieldsNomRead_nil (label : String → String) : (fields : Fields) → fields.Wf →
    StopsAt (FieldsEncode fields · []) (generateFieldsNomRead label fields [])
  | .nil, _ => .inr ⟨(), rfl, rfl⟩
  | .cons name encoding rest, hwf => by
      have hwf' := Fields.Wf.cons hwf
      rcases generateNomRead_nil encoding hwf'.1 with ⟨e, he⟩ | ⟨v, hv, henc⟩
      · refine .inl ⟨e.addField (label name), ?_⟩
        simp [generateFieldsNomRead, field, he, IResult.mapError, IResult.andThen]
      · rcases generateFieldsNomRead_nil label rest hwf'.2 with ⟨e, he⟩ | ⟨vs, hvs, hencs⟩
        · refine .inl ⟨e, ?_⟩
          simp [generateFieldsNomRead, field_done hv, he, IResult.andThen]
        · refine .inr ⟨(v, vs), ?_, [], [], rfl, henc, hencs⟩
          simp [generateFieldsNomRead, field_done hv, hvs]

end

mutual

/-- The reader of a schema reads what the writer appended, and leaves the rest. -/
theorem generateNomRead_append : (s : Schema) → s.Wf → {v : s.Val} → {b : Bytes} →
    Encodes s v b → s.All ShortString HashSized v → (t : Bytes) → (s.greedy = true → t = []) →
    generateNomRead s (b ++ t) = .done t v
  | .primitive p, _, v, b, ⟨value, hs, hb⟩, _, t, _ => by
      cases hs
      exact nomRead_append hb t
  | .bytes, _, v, b, henc, _, t, ht => by
      rw [ht rfl, List.append_nil]
      exact congrArg (IResult.done []) (encodes_bytes henc)
  | .hash hashType, _, v, b, henc, _, t, _ => by
      obtain ⟨rfl, hlen⟩ := encodes_hash henc
      exact take_append hlen
  | .path, _, v, b, henc, hall, t, _ => by
      obtain ⟨hmax, rfl⟩ := encodes_path henc
      exact path_append hall hmax t
  | .string none, _, v, b, henc, hall, t, _ => by
      rw [(encodes_string henc).2]
      exact string_append hall t
  | .string (some max), _, v, b, henc, hall, t, _ => by
      obtain ⟨hmax, rfl⟩ := encodes_string henc
      exact boundedString_append hall (hmax max rfl) t
  | .struct name fields, ⟨hnd, hwf⟩, v, b, henc, hall, t, ht => by
      obtain ⟨label, hlabel⟩ := generateNomRead_struct name fields
      rw [hlabel]
      exact generateFieldsNomRead_append label fields hwf (encodes_struct hnd henc) hall t ht
  | .enum name tagType ignoreUnknown tags, ⟨hn, hi, hid, hwf⟩, v, b, henc, hall, t, ht => by
      obtain ⟨id, b', hmem, rfl, htag⟩ := encodes_enum hn hi henc
      have hlt : id < 256 ^ tagType.size := by
        have := hid id hmem
        cases tagType <;> simp only [TagType.bound, TagType.size] at this ⊢ <;> omega
      simp only [generateNomRead, List.append_assoc, beNumber_append, Nat.mod_eq_of_lt hlt]
      exact generateTagNomRead_append name ignoreUnknown tags hwf hi htag hall t ht
  | .optionField inner, hwf, v, b, henc, hall, t, ht => by
      rcases encodes_optionField henc with ⟨rfl, rfl⟩ | ⟨x, b', rfl, rfl, henc'⟩
      · exact optionalField_none _ t
      · exact optionalField_some (generateNomRead_append inner hwf henc' hall t ht)
  | .list max inner, ⟨hwf, hg, hne⟩, v, b, henc, hall, t, ht => by
      obtain ⟨hmax, bs, rfl, hbs⟩ := encodes_list henc
      have hread : List.Forall₂ (fun v b => b ≠ [] ∧
          ∀ t, generateNomRead inner (b ++ t) = .done t v) (v : List inner.Val) bs := by
        refine ((List.forall₂_and_left _ _).mpr ⟨hall, hbs⟩).imp fun {x y} hxy =>
          ⟨hne x y hxy.2, fun t => ?_⟩
        exact generateNomRead_append inner hwf hxy.2 hxy.1 t (by simp [hg])
      rcases generateNomRead_nil inner hwf with ⟨e, he⟩ | ⟨x, _, hx⟩
      · rw [ht rfl, List.append_nil]
        cases max with
        | none =>
            exact list_flatten he hread [] (Nat.lt_succ_of_le (length_le_flatten hread))
        | some m =>
            have hfold := boundedList_flatten he hread [] (hmax m rfl)
            simp only [generateNomRead, boundedList, hfold, andThen_done]
            rfl
      · exact absurd rfl (hne x [] hx)
  | .sized size inner, hwf, v, b, henc, hall, t, _ => by
      obtain ⟨henc', rfl⟩ := encodes_sized henc
      have hread := generateNomRead_append inner hwf henc' hall [] (fun _ => rfl)
      rw [List.append_nil] at hread
      exact sized_append hread
  | .bounded max inner, hwf, v, b, henc, hall, t, ht => by
      obtain ⟨henc', hmax⟩ := encodes_bounded henc
      exact bounded_append hmax (generateNomRead_append inner hwf henc' hall _
        (fun hg => by rw [ht hg, List.take_nil]))
  | .dynamic max inner, hwf, v, b, henc, hall, t, _ => by
      obtain ⟨b', rfl, hlt, henc', hmax⟩ := encodes_dynamic henc
      have hread := generateNomRead_append inner hwf henc' hall [] (fun _ => rfl)
      rw [List.append_nil] at hread
      cases max with
      | none => exact dynamic_append hlt hread
      | some m => exact boundedDynamic_append hlt (hmax m rfl) hread

theorem generateFieldsNomRead_append (label : String → String) : (fields : Fields) → fields.Wf →
    {v : fields.Val} → {b : Bytes} → FieldsEncode fields v b →
    fields.All ShortString HashSized v → (t : Bytes) → (fields.greedy = true → t = []) →
    generateFieldsNomRead label fields (b ++ t) = .done t v
  | .nil, _, (), b, henc, _, t, _ => by
      cases henc
      rfl
  | .cons name encoding rest, hwf, (v, vs), b, ⟨b₁, b₂, hb, henc, hencs⟩, ⟨hall, halls⟩, t, ht => by
      subst hb
      -- Only the last field may be greedy, and then nothing follows it.
      have hhead : generateNomRead encoding (b₁ ++ (b₂ ++ t)) = .done (b₂ ++ t) v := by
        cases rest with
        | nil =>
            cases hencs
            exact generateNomRead_append encoding hwf henc hall _ ht
        | cons name' encoding' rest' =>
            exact generateNomRead_append encoding hwf.1 henc hall _ (by simp [hwf.2.1])
      have htail : generateFieldsNomRead label rest (b₂ ++ t) = .done t vs := by
        cases rest with
        | nil =>
            cases hencs
            rfl
        | cons name' encoding' rest' =>
            exact generateFieldsNomRead_append label _ hwf.2.2 hencs halls t ht
      simp only [generateFieldsNomRead, List.append_assoc, field_done hhead, andThen_done, htail]

theorem generateTagNomRead_append (enumName : String) (ignoreUnknown : Bool) : (tags : Tags) →
    tags.Wf → tags.ids.Nodup → {v : tags.Val} → {id : Nat} → {b : Bytes} → TagEncodes tags v id b →
    tags.All ShortString HashSized v → (t : Bytes) → (tags.greedy = true → t = []) →
    generateTagNomRead enumName ignoreUnknown id tags (b ++ t) = .done t v
  | .unit id' name rest, _, _, .inl (), id, b, ⟨hid, hb⟩, _, t, _ => by
      subst hid hb
      exact if_pos rfl
  | .unit id' name rest, hwf, hi, .inr v, id, b, henc, hall, t, ht => by
      have hi' := List.nodup_cons.mp hi
      have hread := generateTagNomRead_append enumName ignoreUnknown rest hwf hi'.2 henc hall t ht
      have hne : id ≠ id' := fun h => hi'.1 (h ▸ tagEncodes_mem henc)
      simp only [generateTagNomRead, if_neg hne, hread, andThen_done]
  | .newtype id' name encoding rest, ⟨hwf, _⟩, _, .inl v, id, b, ⟨hid, henc⟩, hall, t, ht => by
      subst hid
      have hread := generateNomRead_append encoding hwf henc hall t
        (fun hg => ht (by simp [Tags.greedy, hg]))
      simp [generateTagNomRead, variant_done hread]
  | .newtype id' name encoding rest, ⟨_, hwf⟩, hi, .inr v, id, b, henc, hall, t, ht => by
      have hi' := List.nodup_cons.mp hi
      have hread := generateTagNomRead_append enumName ignoreUnknown rest hwf hi'.2 henc hall t
        (fun hg => ht (by simp [Tags.greedy, hg]))
      have hne : id ≠ id' := fun h => hi'.1 (h ▸ tagEncodes_mem henc)
      simp only [generateTagNomRead, if_neg hne, hread, andThen_done]

end

/-! ## What a reader returns -/

theorem size_yields : Yields size (· < 2 ^ 32) := by
  intro input s n h
  rw [size, beNumber] at h
  split at h
  next hlen =>
    cases h
    have hlt := ofBe_lt (input.take 4)
    rw [List.length_take, min_eq_left hlen] at hlt
    exact hlt
  next => cases h

theorem boundedSize_yields (kind : BoundedEncodingKind) (max : Nat) :
    Yields (boundedSize kind max) (· < 2 ^ 32) := by
  intro input s n h
  obtain ⟨s', m, hm, h⟩ := andThen_eq_done h
  split at h
  · cases h
    exact size_yields _ _ _ hm
  · cases h

theorem string_yields {len : Reader Nat} (h : Yields len (· < 2 ^ 32)) :
    Yields (mapRes utf8Error (complete (lengthData len)) fromUtf8) ShortString := by
  refine h.lengthData.complete.mapRes fun b v hb hv => ?_
  rw [ShortString, utf8_of_fromUtf8 hv]
  exact hb

theorem bounded_yields {α : Type} {f : Reader α} {P : α → Prop} (h : Yields f P) (max : Nat) :
    Yields (Nom.bounded max f) P := by
  intro input s a ha
  simp only [Nom.bounded] at ha
  split at ha
  next hf =>
    cases ha
    exact h _ _ _ hf
  next => cases ha
  next => cases ha
  next => cases ha

theorem boundedList_yields {α : Type} {f : Reader α} {P : α → Prop} (h : Yields f P) (max : Nat) :
    Yields (boundedList max f) (fun l => ∀ a ∈ l, P a) := by
  intro input s l hl
  obtain ⟨s', l', hl', hl⟩ := andThen_eq_done hl
  split at hl
  · cases hl
  · cases hl
    exact h.foldManyMax max (List.forall_mem_nil _) _ _ _ hl'

theorem mapError_eq_done {α : Type} {f : DecodeError → DecodeError} {r : IResult DecodeError α}
    {s : Bytes} {a : α} (h : r.mapError f = .done s a) : r = .done s a := by
  cases r with
  | done s' a' => exact h
  | error e => cases h
  | failure e => cases h
  | incomplete => cases h

mutual

/-- Every value a derived reader returns has short strings only. -/
theorem shortStrings_of_generateNomRead : (s : Schema) →
    Yields (generateNomRead s) (ShortStrings s)
  | .primitive _ | .bytes | .hash _ | .path => fun _ _ _ _ => trivial
  | .string none => string_yields size_yields
  | .string (some max) => string_yields (boundedSize_yields .string max)
  | .struct name fields => by
      obtain ⟨label, hlabel⟩ := generateNomRead_struct name fields
      intro input s v h
      rw [hlabel] at h
      exact shortStrings_of_generateFieldsNomRead label fields _ _ _ h
  | .enum name tagType ignoreUnknown tags => by
      intro input s v h
      obtain ⟨s', tag, _, h⟩ := andThen_eq_done h
      exact shortStrings_of_generateTagNomRead name ignoreUnknown tag tags _ _ _ h
  | .optionField inner => by
      have hnone : Yields (success (E := DecodeError) (none : Option inner.Val))
          (ShortStrings (.optionField inner)) := by
        intro input s v h
        cases h
        trivial
      have hsome : Yields (map (generateNomRead inner) some) (ShortStrings (.optionField inner)) :=
        (shortStrings_of_generateNomRead inner).map fun a ha => ha
      exact hnone.preceded.alt hsome.preceded
  | .list none inner => (shortStrings_of_generateNomRead inner).many0
  | .list (some max) inner => boundedList_yields (shortStrings_of_generateNomRead inner) max
  | .sized size inner => (shortStrings_of_generateNomRead inner).mapParser
  | .bounded max inner => bounded_yields (shortStrings_of_generateNomRead inner) max
  | .dynamic none inner => (shortStrings_of_generateNomRead inner).allConsuming.lengthValue
  | .dynamic (some max) inner => (shortStrings_of_generateNomRead inner).allConsuming.lengthValue

theorem shortStrings_of_generateFieldsNomRead (label : String → String) : (fields : Fields) →
    Yields (generateFieldsNomRead label fields) (fields.All ShortString fun _ => True)
  | .nil => fun _ _ _ _ => trivial
  | .cons name encoding rest => by
      intro input s v h
      obtain ⟨s₁, v₁, h₁, h⟩ := andThen_eq_done h
      obtain ⟨s₂, v₂, h₂, h⟩ := andThen_eq_done h
      cases h
      exact ⟨shortStrings_of_generateNomRead encoding _ _ _ (mapError_eq_done h₁),
        shortStrings_of_generateFieldsNomRead label rest _ _ _ h₂⟩

theorem shortStrings_of_generateTagNomRead (enumName : String) (ignoreUnknown : Bool) (tag : Nat) :
    (tags : Tags) →
      Yields (generateTagNomRead enumName ignoreUnknown tag tags) (tags.All ShortString fun _ => True)
  | .nil => fun _ _ _ h => by cases h
  | .unit id name rest => by
      intro input s v h
      simp only [generateTagNomRead] at h
      split at h
      · cases h
        trivial
      · obtain ⟨s', v', hv', h⟩ := andThen_eq_done h
        cases h
        exact shortStrings_of_generateTagNomRead enumName ignoreUnknown tag rest _ _ _ hv'
  | .newtype id name encoding rest => by
      intro input s v h
      simp only [generateTagNomRead] at h
      split at h
      · obtain ⟨s', v', hv', h⟩ := andThen_eq_done h
        cases h
        exact shortStrings_of_generateNomRead encoding _ _ _ (mapError_eq_done hv')
      · obtain ⟨s', v', hv', h⟩ := andThen_eq_done h
        cases h
        exact shortStrings_of_generateTagNomRead enumName ignoreUnknown tag rest _ _ _ hv'

end

mutual

/-- Without path codecs the predicate on paths plays no role. -/
theorem all_of_noPath {P : String → Prop} {Q Q' : List PathItem → Prop} : (s : Schema) → s.NoPath →
    {v : s.Val} → s.All P Q v → s.All P Q' v
  | .primitive _, _, _, _ | .bytes, _, _, _ | .hash _, _, _, _ => trivial
  | .string _, _, _, h => h
  | .struct _ fields, hp, _, h => fieldsAll_of_noPath fields hp h
  | .enum _ _ _ tags, hp, _, h => tagsAll_of_noPath tags hp h
  | .optionField _, _, none, _ => trivial
  | .optionField inner, hp, some _, h => all_of_noPath inner hp h
  | .list _ inner, hp, _, h => fun v hv => all_of_noPath inner hp (h v hv)
  | .sized _ inner, hp, _, h | .bounded _ inner, hp, _, h | .dynamic _ inner, hp, _, h =>
      all_of_noPath inner hp h

theorem fieldsAll_of_noPath {P : String → Prop} {Q Q' : List PathItem → Prop} : (fields : Fields) →
    fields.NoPath → {v : fields.Val} → fields.All P Q v → fields.All P Q' v
  | .nil, _, _, _ => trivial
  | .cons _ encoding rest, hp, _, h =>
      ⟨all_of_noPath encoding hp.1 h.1, fieldsAll_of_noPath rest hp.2 h.2⟩

theorem tagsAll_of_noPath {P : String → Prop} {Q Q' : List PathItem → Prop} : (tags : Tags) →
    tags.NoPath → {v : tags.Val} → tags.All P Q v → tags.All P Q' v
  | .unit _ _ _, _, .inl _, _ => trivial
  | .unit _ _ rest, hp, .inr _, h => tagsAll_of_noPath rest hp h
  | .newtype _ _ encoding _, hp, .inl _, h => all_of_noPath encoding hp.1 h
  | .newtype _ _ _ rest, hp, .inr _, h => tagsAll_of_noPath rest hp.2 h

end

mutual

theorem all_true : (s : Schema) → (v : s.Val) → s.All (fun _ => True) (fun _ => True) v
  | .primitive _, _ | .bytes, _ | .hash _, _ | .path, _ | .string _, _ => trivial
  | .struct _ fields, v => fieldsAll_true fields v
  | .enum _ _ _ tags, v => tagsAll_true tags v
  | .optionField _, none => trivial
  | .optionField inner, some v => all_true inner v
  | .list _ inner, _ => fun v _ => all_true inner v
  | .sized _ inner, v | .bounded _ inner, v | .dynamic _ inner, v => all_true inner v

theorem fieldsAll_true : (fields : Fields) → (v : fields.Val) →
    fields.All (fun _ => True) (fun _ => True) v
  | .nil, _ => trivial
  | .cons _ encoding rest, (v, vs) => ⟨all_true encoding v, fieldsAll_true rest vs⟩

theorem tagsAll_true : (tags : Tags) → (v : tags.Val) → tags.All (fun _ => True) (fun _ => True) v
  | .unit _ _ _, .inl _ => trivial
  | .unit _ _ rest, .inr v => tagsAll_true rest v
  | .newtype _ _ encoding _, .inl v => all_true encoding v
  | .newtype _ _ _ rest, .inr v => tagsAll_true rest v

end

mutual

/-- In fewer than `2 ^ 32` bytes there is no room for a long string. -/
theorem shortStrings_of_length {Q : List PathItem → Prop} : (s : Schema) → s.Wf → {v : s.Val} →
    {b : Bytes} → Encodes s v b → b.length < 2 ^ 32 → s.All (fun _ => True) Q v →
    s.All ShortString Q v
  | .primitive _, _, _, _, _, _, _ | .bytes, _, _, _, _, _, _ | .hash _, _, _, _, _, _, _ => trivial
  | .path, _, _, _, _, _, h => h
  | .string _, _, v, _, henc, hlen, _ => by
      rw [(encodes_string henc).2, List.length_append, toBe_length] at hlen
      change (utf8 v).length < 2 ^ 32
      omega
  | .struct _ fields, hwf, _, _, henc, hlen, h =>
      fieldsShort_of_length fields hwf.2 (encodes_struct hwf.1 henc) hlen h
  | .enum _ _ _ tags, hwf, _, _, henc, hlen, h => by
      obtain ⟨id, b', _, rfl, htag⟩ := encodes_enum hwf.1 hwf.2.1 henc
      rw [List.length_append] at hlen
      exact tagsShort_of_length tags hwf.2.2.2 htag (by omega) h
  | .optionField _, _, none, _, _, _, _ => trivial
  | .optionField inner, hwf, some v, _, henc, hlen, h => by
      rcases encodes_optionField henc with ⟨hv, _⟩ | ⟨x, b', hv, rfl, henc'⟩
      · cases hv
      · cases hv
        rw [List.length_cons] at hlen
        exact shortStrings_of_length inner hwf henc' (by omega) h
  | .list _ inner, hwf, vs, _, henc, hlen, h => by
      obtain ⟨_, bs, rfl, hbs⟩ := encodes_list henc
      intro v hv
      obtain ⟨b, hb, henc'⟩ := exists_mem_of_forall₂ hbs hv
      have hle : b.length ≤ bs.flatten.length := (List.sublist_flatten_of_mem hb).length_le
      exact shortStrings_of_length inner hwf.1 henc' (by omega) (h v hv)
  | .sized _ inner, hwf, _, _, henc, hlen, h =>
      shortStrings_of_length inner hwf (encodes_sized henc).1 hlen h
  | .bounded _ inner, hwf, _, _, henc, hlen, h =>
      shortStrings_of_length inner hwf (encodes_bounded henc).1 hlen h
  | .dynamic _ inner, hwf, _, _, henc, _, h => by
      obtain ⟨b', _, hlt, henc', _⟩ := encodes_dynamic henc
      exact shortStrings_of_length inner hwf henc' hlt h

theorem fieldsShort_of_length {Q : List PathItem → Prop} : (fields : Fields) → fields.Wf →
    {v : fields.Val} → {b : Bytes} → FieldsEncode fields v b → b.length < 2 ^ 32 →
    fields.All (fun _ => True) Q v → fields.All ShortString Q v
  | .nil, _, _, _, _, _, _ => trivial
  | .cons _ encoding rest, hwf, (_, _), _, ⟨b₁, b₂, hb, henc, hencs⟩, hlen, h => by
      obtain ⟨hwf₁, hwf₂⟩ := Fields.Wf.cons hwf
      rw [hb, List.length_append] at hlen
      exact ⟨shortStrings_of_length encoding hwf₁ henc (by omega) h.1,
        fieldsShort_of_length rest hwf₂ hencs (by omega) h.2⟩

theorem tagsShort_of_length {Q : List PathItem → Prop} : (tags : Tags) → tags.Wf →
    {v : tags.Val} → {id : Nat} → {b : Bytes} → TagEncodes tags v id b → b.length < 2 ^ 32 →
    tags.All (fun _ => True) Q v → tags.All ShortString Q v
  | .unit _ _ _, _, .inl _, _, _, _, _, _ => trivial
  | .unit _ _ rest, hwf, .inr _, _, _, henc, hlen, h =>
      tagsShort_of_length rest hwf henc hlen h
  | .newtype _ _ encoding _, hwf, .inl _, _, _, henc, hlen, h =>
      shortStrings_of_length encoding hwf.1 henc.2 hlen h
  | .newtype _ _ _ rest, hwf, .inr _, _, _, henc, hlen, h =>
      tagsShort_of_length rest hwf.2 henc hlen h

end

/-! ## The agreement -/

/-- A value whose strings are short is read back from its bytes. -/
theorem generateNomRead_of_shortStrings {s : Schema} (hwf : s.Wf) (hpath : s.NoPath) {v : s.Val}
    {b : Bytes} (hb : asBytes s v = .ok b) (hshort : ShortStrings s v) :
    generateNomRead s b = .done [] v := by
  have hread := generateNomRead_append s hwf (asBytes_iff.mp hb) (all_of_noPath s hpath hshort) []
    fun _ => rfl
  rwa [List.append_nil] at hread

/-- The derived reader reads back what the derived writer wrote, and leaves what
follows, exactly when the strings of the value fit their length prefix. -/
theorem generateNomRead_asBytes_iff {s : Schema} (hwf : s.Wf) (hpath : s.NoPath) {v : s.Val}
    {b : Bytes} (hb : asBytes s v = .ok b) :
    (∀ t, (s.greedy = true → t = []) → generateNomRead s (b ++ t) = .done t v) ↔
      ShortStrings s v := by
  constructor
  · intro h
    exact shortStrings_of_generateNomRead s _ _ _ (h [] fun _ => rfl)
  · intro hshort t ht
    exact generateNomRead_append s hwf (asBytes_iff.mp hb) (all_of_noPath s hpath hshort) t ht

/-- A structure with one string, as derived types have them. -/
def namedSchema : Schema := .struct "Component" (.cons "name" (.string none) .nil)

theorem namedSchema_wf : namedSchema.Wf := ⟨by simp [Fields.names], trivial⟩

theorem namedSchema_noPath : namedSchema.NoPath := ⟨trivial, trivial⟩

theorem generateNomRead_asBytes_named :
    (∀ t, (namedSchema.greedy = true → t = []) →
      generateNomRead namedSchema ([0, 0, 0, 2, 104, 105] ++ t) = .done t ("hi", ())) ↔
      ShortStrings namedSchema ("hi", ()) :=
  generateNomRead_asBytes_iff namedSchema_wf namedSchema_noPath rfl

theorem utf8_replicate_length (n : Nat) :
    (utf8 (String.ofList (List.replicate n 'a'))).length = n := by
  rw [utf8, String.toByteArray_ofList]
  induction n with
  | zero => rfl
  | succ n ih =>
      rw [List.replicate_succ, List.utf8Encode_cons]
      have hhead : (['a'].utf8Encode).data.toList.length = 1 := rfl
      rw [ByteArray.data_append, Array.toList_append, List.length_append, hhead, ih]
      omega

/-- A name whose length is cast to zero. -/
def longName : String := String.ofList (List.replicate (2 ^ 32) 'a')

/-- A string of `2 ^ 32` bytes is written without an error, and is not read back. -/
theorem asBytes_longName_not_read :
    ∃ b, asBytes namedSchema (longName, ()) = .ok b ∧
      generateNomRead namedSchema b ≠ .done [] (longName, ()) := by
  have hlen : (utf8 longName).length = 2 ^ 32 := utf8_replicate_length _
  have hbody : bodyString longName = .ok (toBe 4 (utf8 longName).length ++ utf8 longName) := by
    rw [bodyString, if_pos (by rw [hlen]; norm_num)]
  have hfields : FieldsEncode (.cons "name" (.string none) .nil) (longName, ())
      (toBe 4 (utf8 longName).length ++ utf8 longName) :=
    ⟨_, [], (List.append_nil _).symm, ⟨_, rfl, hbody⟩, rfl⟩
  obtain ⟨values, hvs, hb⟩ := bodyFields_of_fieldsEncode hfields
  have hnd : (values.map Prod.fst).Nodup := by
    rw [serializeFields_names hvs]
    simp [Fields.names]
  refine ⟨_, asBytes_iff.mpr ⟨.record values, ?_, hb values 0
    (fun p hp => findValueInRecordValues_of_mem hnd hp) ?_⟩, fun h => ?_⟩
  · exact congrArg (Except.map Value.record) hvs
  · rw [List.length_append, toBe_length, hlen]
    norm_num
  · have hshort : (utf8 longName).length < 2 ^ 32 :=
      (shortStrings_of_generateNomRead namedSchema _ _ _ h).1
    exact absurd hlen (Nat.ne_of_lt hshort)

end NodeFuzzer
