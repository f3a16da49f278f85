import NodeFuzzer.Encoding.PathCodec

/-!
# One encoding for each value

A derived reader takes exactly the bytes the derived writer has for the value it
returns (`takes_generateNomRead`), so that no two byte strings are read as one
value.  This needs a schema whose numbers the writer has no error for, and whose
blocks of a fixed size hold plain bytes: the reader of any other such block drops
what its content does not use (`Schema.canonical`).

The induction is on the schema.  A part carries what the reader checked for it
(`Schema.Written`): short strings and hashes of their size, which are what the
other direction (`generateNomRead_append`) needs.
-/

namespace NodeFuzzer

open Nom

mutual

/-- A value is read from one byte string only. -/
def Schema.canonical : Schema → Bool
  | .primitive .int31 | .primitive .uint32 => false
  | .primitive _ | .bytes | .hash _ | .path | .string _ => true
  | .struct _ fields => fields.canonical
  | .enum _ tagType _ tags => (tagType.size == 1 || tagType.size == 2) && tags.canonical
  | .optionField inner => inner.canonical
  | .list _ inner => inner.canonical
  | .sized _ .bytes => true
  | .sized _ _ => false
  | .bounded _ inner => inner.canonical
  | .dynamic _ inner => inner.canonical

@[inherit_doc Schema.canonical]
def Fields.canonical : Fields → Bool
  | .nil => true
  | .cons _ encoding rest => encoding.canonical && rest.canonical

@[inherit_doc Schema.canonical]
def Tags.canonical : Tags → Bool
  | .nil => true
  | .unit _ _ rest => rest.canonical
  | .newtype _ _ encoding rest => encoding.canonical && rest.canonical

end

/-- The writer has these bytes for the value as long as their number is one, and its
strings and hashes are such that they are read back. -/
def Schema.Written (s : Schema) (v : s.Val) (b : Bytes) : Prop :=
  s.All ShortString HashSized v ∧ (b.length < 2 ^ 64 → Encodes s v b)

@[inherit_doc Schema.Written]
def Fields.Written (fields : Fields) (v : fields.Val) (b : Bytes) : Prop :=
  fields.All ShortString HashSized v ∧ (b.length < 2 ^ 64 → FieldsEncode fields v b)

@[inherit_doc Schema.Written]
def Tags.Written (tags : Tags) (id : Nat) (v : tags.Val) (b : Bytes) : Prop :=
  tags.All ShortString HashSized v ∧ (b.length < 2 ^ 64 → TagEncodes tags v id b)

/-! ## Numbers, lengths and paths -/

/-- A number of `w` bytes that is written as it was read. -/
theorem takes_number {p : PrimitiveEncoding} {w : Nat} {f : Nat → p.Val}
    (h : ∀ n < 256 ^ w, Encodes (.primitive p) (f n) (toBe w n)) :
    Takes (E := DecodeError) (map (beNumber w) f) (Schema.primitive p).Written := by
  refine (takes_beNumber w).map fun n b hb => ?_
  obtain ⟨rfl, hn⟩ := hb
  exact ⟨trivial, fun _ => h n hn⟩

theorem takes_primitive {p : PrimitiveEncoding} (h : (Schema.primitive p).canonical = true) :
    Takes p.nomRead (Schema.primitive p).Written := by
  cases p with
  | int31 => cases h
  | uint32 => cases h
  | bool =>
      refine Takes.alt ?_ ?_
      · refine (consumes_tag _).takes.map fun t b hb => ?_
        subst hb
        exact ⟨trivial, fun _ => ⟨_, rfl, rfl⟩⟩
      · refine (consumes_tag _).takes.map fun t b hb => ?_
        subst hb
        exact ⟨trivial, fun _ => ⟨_, rfl, rfl⟩⟩
  | int8 | uint8 =>
      refine takes_number fun n hn => ⟨_, rfl, ?_⟩
      have hread : (UInt8.ofNat n).toNat = n := UInt8.toNat_ofNat_of_lt hn
      exact congrArg (fun n => Except.ok (toBe 1 n)) hread
  | int16 | uint16 =>
      refine takes_number fun n hn => ⟨_, rfl, ?_⟩
      have hread : (UInt16.ofNat n).toNat = n := UInt16.toNat_ofNat_of_lt hn
      exact congrArg (fun n => Except.ok (toBe 2 n)) hread
  | int32 =>
      refine takes_number fun n hn => ⟨_, rfl, ?_⟩
      have hread : (UInt32.ofNat n).toNat = n := UInt32.toNat_ofNat_of_lt hn
      exact congrArg (fun n => Except.ok (toBe 4 n)) hread
  | int64 | float | timestamp =>
      refine takes_number fun n hn => ⟨_, rfl, ?_⟩
      have hread : (UInt64.ofNat n).toNat = n := UInt64.toNat_ofNat_of_lt hn
      exact congrArg (fun n => Except.ok (toBe 8 n)) hread

/-- The bytes of a size within its bound, if it has one. -/
def SizeBytes (max : Option Nat) (n : Nat) (b : Bytes) : Prop :=
  b = toBe 4 n ∧ n < 2 ^ 32 ∧ ∀ m, max = some m → n ≤ m

theorem takes_size : Takes size (SizeBytes none) :=
  (takes_beNumber 4).mono fun _ _ h => ⟨h.1, h.2.trans_eq (by norm_num), unbounded⟩

theorem takes_boundedSize (kind : BoundedEncodingKind) (max : Nat) :
    Takes (boundedSize kind max) (SizeBytes (some max)) := by
  intro input rest n h
  obtain ⟨rest', n', hn', h⟩ := andThen_eq_done h
  obtain ⟨b, ⟨hb, hlt, _⟩, hinput⟩ := takes_size _ _ _ hn'
  split at h
  next hle =>
    cases h
    exact ⟨b, ⟨hb, hlt, fun m hm => Option.some.inj hm ▸ hle⟩, hinput⟩
  next => cases h

theorem takes_string {len : Reader Nat} {max : Option Nat} (h : Takes len (SizeBytes max)) :
    Takes (mapRes utf8Error (complete (lengthData len)) fromUtf8) (Schema.string max).Written := by
  refine h.lengthData.complete.mapRes fun text v b hb hv => ?_
  have hutf8 : utf8 v = text := utf8_of_fromUtf8 hv
  subst hutf8
  obtain ⟨l, ⟨rfl, hlt, hmax⟩, rfl⟩ := hb
  refine ⟨hlt, fun hlen => encodes_string_of hmax ?_⟩
  simpa using hlen

theorem takes_path : Takes (path MAX_PASS_MERKLE_DEPTH) Schema.path.Written := by
  intro input rest items h
  have hsized := (spends_path _ _ _ h).1.2
  exact ⟨_, ⟨hsized, fun _ => encodes_path_of (path_length h)⟩, consumes_path _ _ _ _ h⟩

/-! ## Options, lists and blocks -/

theorem takes_optionField {s : Schema} {f : Reader s.Val} (h : Takes f s.Written) :
    Takes (optionalField f) (Schema.optionField s).Written := by
  have hnone : Takes (preceded (tag [0x00]) (success (E := DecodeError) (none : Option s.Val)))
      (Schema.optionField s).Written := by
    intro input rest v hv
    obtain ⟨rest', t, ht, hv⟩ := andThen_eq_done hv
    cases hv
    exact ⟨_, ⟨trivial, fun _ => ⟨_, rfl, rfl⟩⟩, consumes_tag _ _ _ _ ht⟩
  have hsome : Takes (preceded (tag [0xff]) (map f some)) (Schema.optionField s).Written := by
    intro input rest v hv
    obtain ⟨rest', t, ht, hv⟩ := andThen_eq_done hv
    obtain ⟨rest'', x, hx, hv⟩ := andThen_eq_done hv
    cases hv
    obtain ⟨b, ⟨hall, hb⟩, hrest⟩ := h _ _ _ hx
    refine ⟨0xff :: b, ⟨hall, fun hlen => ?_⟩, ?_⟩
    · rw [List.length_cons] at hlen
      exact encodes_some_of (hb (by omega)) (by omega)
    · simpa [hrest] using consumes_tag _ _ _ _ ht
  exact hnone.alt hsome

/-- The bytes of a part are not more than those of the whole. -/
theorem length_lt_of_append {b c : Bytes} {n : Nat} (h : (b ++ c).length < n) :
    b.length < n ∧ c.length < n := by
  rw [List.length_append] at h
  omega

theorem written_list {s : Schema} {l : List s.Val} {bs : List Bytes}
    (h : List.Forall₂ s.Written l bs) :
    (∀ v : s.Val, List.Mem v l → s.All ShortString HashSized v) ∧
      (bs.flatten.length < 2 ^ 64 → List.Forall₂ (Encodes s) l bs) := by
  induction h with
  | nil =>
      refine ⟨?_, fun _ => .nil⟩
      intro v hv
      cases hv
  | @cons v b l bs hv _ ih =>
      obtain ⟨halls, hencs⟩ := ih
      refine ⟨?_, ?_⟩
      · intro x hx
        cases hx with
        | head => exact hv.1
        | tail _ hx => exact halls x hx
      · intro hlen
        have hparts := length_lt_of_append hlen
        exact .cons (hv.2 hparts.1) (hencs hparts.2)

theorem takes_list {s : Schema} {f : Reader s.Val} (h : Takes f s.Written) :
    Takes (list f) (Schema.list none s).Written := by
  refine h.many0.mono fun l b hb => ?_
  obtain ⟨bs, hbs, rfl⟩ := hb
  obtain ⟨hall, henc⟩ := written_list hbs
  exact ⟨hall, fun hlen => encodes_list_of unbounded (henc hlen)⟩

theorem takes_boundedList {s : Schema} {f : Reader s.Val} (max : Nat) (h : Takes f s.Written) :
    Takes (boundedList max f) (Schema.list (some max) s).Written := by
  intro input rest l hl
  obtain ⟨rest', l', hl', hl⟩ := andThen_eq_done hl
  split at hl
  next => cases hl
  next =>
    cases hl
    obtain ⟨l'', bs, rfl, hmax, hbs, hinput⟩ := h.foldManyMax max hl'
    obtain ⟨hall, henc⟩ := written_list hbs
    refine ⟨bs.flatten, ⟨hall, fun hlen => encodes_list_of ?_ (henc hlen)⟩, hinput⟩
    intro m hm
    exact Option.some.inj hm ▸ hmax

/-- A block of a fixed size is filled by plain bytes. -/
theorem takes_sizedBytes (n : Nat) : Takes (Nom.sized n bytes) (Schema.sized n .bytes).Written := by
  intro input rest v hv
  obtain ⟨rest', b, hb, hv⟩ := andThen_eq_done hv
  have hlen : b.length = n := (spends_take n _ _ _ hb).1
  have hinput := consumes_take n _ _ _ hb
  cases hv
  exact ⟨v, ⟨trivial, fun _ => encodes_sized_of (encodes_bytes_of v) hlen⟩, hinput⟩

theorem takes_bounded {s : Schema} {f : Reader s.Val} (max : Nat) (h : Takes f s.Written) :
    Takes (Nom.bounded max f) (Schema.bounded max s).Written := by
  intro input rest v hv
  simp only [Nom.bounded] at hv
  split at hv
  next rest' v' hf =>
    cases hv
    obtain ⟨b, ⟨hall, hb⟩, htake⟩ := h _ _ _ hf
    have hlen : min max input.length = b.length + rest'.length := by
      have htaken := congrArg List.length htake
      rwa [List.length_take_of_le (Nat.min_le_right _ _), List.length_append] at htaken
    -- The reader saw a prefix of the input, of which it left `rest'`.
    have hfront : input.take b.length = b := by
      have hprefix : (input.take (min max input.length)).take b.length = b := by
        rw [htake, List.take_left]
      rwa [List.take_take, Nat.min_eq_left (by omega)] at hprefix
    have hinput := List.take_append_drop b.length input
    rw [hfront] at hinput
    refine ⟨b, ⟨hall, fun hlt => encodes_bounded_of (hb hlt) (by omega)⟩, ?_⟩
    rw [hlen, Nat.add_sub_cancel]
    exact hinput.symm
  next => cases hv
  next => cases hv
  next => cases hv

theorem takes_dynamic {s : Schema} {len : Reader Nat} {f : Reader s.Val} {max : Option Nat}
    (hlen : Takes len (SizeBytes max)) (h : Takes f s.Written) :
    Takes (lengthValue len (allConsuming f)) (Schema.dynamic max s).Written := by
  refine (hlen.lengthValue h).mono fun v b hb => ?_
  obtain ⟨l, c, ⟨rfl, hlt, hmax⟩, hc, rfl⟩ := hb
  have hshort : c.length < 2 ^ 64 := hlt.trans (by norm_num)
  exact ⟨hc.1, fun _ => encodes_dynamic_of (hc.2 hshort) hlt hmax⟩

/-! ## Derived readers -/

mutual

/-- What a derived reader takes from its input is what the writer has for the value. -/
theorem takes_generateNomRead : (s : Schema) → s.Wf → s.canonical = true →
    Takes (generateNomRead s) s.Written
  | .primitive p, _, h => takes_primitive h
  | .bytes, _, _ => by
      intro input rest v hv
      cases hv
      exact ⟨input, ⟨trivial, fun _ => encodes_bytes_of input⟩, (List.append_nil input).symm⟩
  | .hash t, _, _ => by
      intro input rest v hv
      have hlen := (spends_take t.size _ _ _ hv).1
      exact ⟨v, ⟨trivial, fun _ => encodes_hash_of hlen⟩, consumes_take _ _ _ _ hv⟩
  | .path, _, _ => takes_path
  | .string none, _, _ => takes_string takes_size
  | .string (some max), _, _ => takes_string (takes_boundedSize .string max)
  | .struct name fields, hwf, h => by
      obtain ⟨label, hlabel⟩ := generateNomRead_struct name fields
      rw [hlabel]
      refine (takes_generateFieldsNomRead label fields hwf.2 h).mono fun v b hb => ?_
      exact ⟨hb.1, fun hlen => encodes_struct_of hwf.1 (hb.2 hlen) hlen⟩
  | .enum name tagType ignoreUnknown tags, hwf, h => by
      rw [Schema.canonical, Bool.and_eq_true, Bool.or_eq_true, beq_iff_eq, beq_iff_eq] at h
      intro input rest v hv
      obtain ⟨rest', tag, htag, hv⟩ := andThen_eq_done hv
      obtain ⟨l, ⟨rfl, _⟩, hinput⟩ := takes_beNumber tagType.size _ _ _ htag
      obtain ⟨b, ⟨hall, hb⟩, hrest⟩ :=
        takes_generateTagNomRead name ignoreUnknown tag tags hwf.2.2.2 h.2 _ _ _ hv
      refine ⟨toBe tagType.size tag ++ b, ⟨hall, fun hlen => ?_⟩, ?_⟩
      · exact encodes_enum_of hwf.1 hwf.2.1 h.1 (hb (length_lt_of_append hlen).2)
      · rw [hinput, hrest, List.append_assoc]
  | .optionField inner, hwf, h => takes_optionField (takes_generateNomRead inner hwf h)
  | .list none inner, hwf, h => takes_list (takes_generateNomRead inner hwf.1 h)
  | .list (some max) inner, hwf, h => takes_boundedList max (takes_generateNomRead inner hwf.1 h)
  | .sized n .bytes, _, _ => takes_sizedBytes n
  | .bounded max inner, hwf, h => takes_bounded max (takes_generateNomRead inner hwf h)
  | .dynamic none inner, hwf, h => takes_dynamic takes_size (takes_generateNomRead inner hwf h)
  | .dynamic (some max) inner, hwf, h =>
      takes_dynamic (takes_boundedSize .dynamic max) (takes_generateNomRead inner hwf h)

@[inherit_doc takes_generateNomRead]
theorem takes_generateFieldsNomRead (label : String → String) : (fields : Fields) → fields.Wf →
    fields.canonical = true → Takes (generateFieldsNomRead label fields) fields.Written
  | .nil, _, _ => by
      intro input rest v hv
      cases hv
      exact ⟨[], ⟨trivial, fun _ => rfl⟩, rfl⟩
  | .cons name encoding others, hwf, h => by
      rw [Fields.canonical, Bool.and_eq_true] at h
      intro input rest v hv
      obtain ⟨rest₁, v₁, h₁, hv⟩ := andThen_eq_done hv
      obtain ⟨rest₂, v₂, h₂, hv⟩ := andThen_eq_done hv
      cases hv
      obtain ⟨b₁, ⟨hall₁, hb₁⟩, hinput⟩ :=
        takes_generateNomRead encoding hwf.cons.1 h.1 _ _ _ (mapError_eq_done h₁)
      obtain ⟨b₂, ⟨hall₂, hb₂⟩, hrest⟩ :=
        takes_generateFieldsNomRead label others hwf.cons.2 h.2 _ _ _ h₂
      refine ⟨b₁ ++ b₂, ⟨⟨hall₁, hall₂⟩, fun hlen => ?_⟩, by rw [hinput, hrest, List.append_assoc]⟩
      have hparts := length_lt_of_append hlen
      exact ⟨b₁, b₂, rfl, hb₁ hparts.1, hb₂ hparts.2⟩

@[inherit_doc takes_generateNomRead]
theorem takes_generateTagNomRead (enumName : String) (ignoreUnknown : Bool) (tag : Nat) :
    (tags : Tags) → tags.Wf → tags.canonical = true →
      Takes (generateTagNomRead enumName ignoreUnknown tag tags) (tags.Written tag)
  | .nil, _, _ => fun _ _ _ h => by cases h
  | .unit id name others, hwf, h => by
      intro input rest v hv
      simp only [generateTagNomRead] at hv
      split at hv
      next htag =>
        cases hv
        exact ⟨[], ⟨trivial, fun _ => ⟨htag, rfl⟩⟩, rfl⟩
      next =>
        obtain ⟨rest', v', hv', hv⟩ := andThen_eq_done hv
        cases hv
        exact takes_generateTagNomRead enumName ignoreUnknown tag others hwf h _ _ _ hv'
  | .newtype id name encoding others, hwf, h => by
      rw [Tags.canonical, Bool.and_eq_true] at h
      intro input rest v hv
      simp only [generateTagNomRead] at hv
      split at hv
      next htag =>
        obtain ⟨rest', v', hv', hv⟩ := andThen_eq_done hv
        cases hv
        obtain ⟨b, ⟨hall, hb⟩, hinput⟩ :=
          takes_generateNomRead encoding hwf.1 h.1 _ _ _ (mapError_eq_done hv')
        exact ⟨b, ⟨hall, fun hlen => ⟨htag, hb hlen⟩⟩, hinput⟩
      next =>
        obtain ⟨rest', v', hv', hv⟩ := andThen_eq_done hv
        cases hv
        exact takes_generateTagNomRead enumName ignoreUnknown tag others hwf.2 h.2 _ _ _ hv'

end

/-- What is read is what was written: the reader and the writer are inverse to each other on
the values with short strings and hashes of their size, and the reader returns no others. -/
theorem generateNomRead_done_iff {s : Schema} (hwf : s.Wf) (h : s.canonical = true) {v : s.Val}
    {b : Bytes} (hlen : b.length < 2 ^ 64) :
    generateNomRead s b = .done [] v ↔
      asBytes s v = .ok b ∧ s.All ShortString HashSized v := by
  constructor
  · intro hread
    obtain ⟨b', ⟨hall, hb⟩, hinput⟩ := takes_generateNomRead s hwf h _ _ _ hread
    rw [List.append_nil] at hinput
    subst hinput
    exact ⟨asBytes_iff.mpr (hb hlen), hall⟩
  · intro hwrite
    have hread := generateNomRead_append s hwf (asBytes_iff.mp hwrite.1) hwrite.2 [] fun _ => rfl
    rwa [List.append_nil] at hread

/-- Reading is the inverse of writing, also in front of other bytes. -/
theorem generateNomRead_exact {s : Schema} (hwf : s.Wf) (h : s.canonical = true) :
    (∀ (input rest : Bytes) (v : s.Val), input.length < 2 ^ 64 →
      generateNomRead s input = .done rest v → ∃ b, asBytes s v = .ok b ∧ input = b ++ rest) ∧
    ∀ (v : s.Val) (b : Bytes), b.length < 2 ^ 64 →
      (generateNomRead s b = .done [] v ↔ asBytes s v = .ok b ∧ s.All ShortString HashSized v) := by
  refine ⟨?_, fun v b hlen => generateNomRead_done_iff hwf h hlen⟩
  intro input rest v hlen hread
  obtain ⟨b, hb, rfl⟩ := takes_generateNomRead s hwf h _ _ _ hread
  exact ⟨b, asBytes_iff.mpr (hb.2 (length_lt_of_append hlen).1), rfl⟩

/-- An optional list of two flags, with a byte behind it that is none. -/
theorem generateNomRead_exact_flags :
    ∃ b, asBytes (.optionField (.list none (.primitive .bool)))
        (some [true, false] : Option (List Bool)) = .ok b ∧ [0xff, 0xff, 0x00, 9] = b ++ [9] :=
  (generateNomRead_exact (s := .optionField (.list none (.primitive .bool)))
    (Schema.wf_of_check _ (by decide +kernel)) rfl).1 _ [9] (some [true, false] : Option (List Bool))
    (by decide) rfl

end NodeFuzzer
