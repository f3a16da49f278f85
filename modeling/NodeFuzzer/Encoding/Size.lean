import NodeFuzzer.Encoding.WellFormed

/-!
# Sizes of values

The number of bytes the writer needs for a value (`Schema.size`), and the values it can
write (`Schema.Writable`): hashes have their sizes, and lists, strings and blocks stay
within their bounds.  Such a value is written, with that many bytes
(`encodes_of_writable`), and no more of them than the bounds of its schema add up to
(`size_le_maxSize`).
-/

namespace NodeFuzzer

/-- The bytes of a primitive. -/
def PrimitiveEncoding.size : PrimitiveEncoding → Nat
  | .int8 | .uint8 | .bool => 1
  | .int16 | .uint16 => 2
  | .int31 | .int32 | .uint32 => 4
  | .int64 | .float | .timestamp => 8

/-- The writer has no error for the number. -/
def PrimitiveEncoding.Writable : (p : PrimitiveEncoding) → p.Val → Prop
  | .int31, (v : Int32) => v &&& 0x7FFFFFFF = v
  | .uint32, (v : UInt32) => v.toNat ≤ 2 ^ 31 - 1 ∧ (0 : Int32) ≤ ⟨v⟩
  | _, _ => True

mutual

/-- The number of bytes of a value. -/
def Schema.size : (s : Schema) → s.Val → Nat
  | .primitive p, _ => p.size
  | .bytes, v => List.length (α := UInt8) v
  | .hash _, v => List.length (α := UInt8) v
  | .path, v => (bodyPath (List.map PathItem.parts v)).length
  | .string _, v => 4 + (utf8 v).length
  | .struct _ fields, v => fields.size v
  | .enum _ tagType _ tags, v => tagType.size + tags.size v
  | .optionField inner, v =>
      match (v : Option inner.Val) with
      | none => 1
      | some v => 1 + inner.size v
  | .list _ inner, vs => (List.map (fun v : inner.Val => inner.size v) vs).sum
  | .sized _ inner, v => inner.size v
  | .bounded _ inner, v => inner.size v
  | .dynamic _ inner, v => 4 + inner.size v

@[inherit_doc Schema.size]
def Fields.size : (fields : Fields) → fields.Val → Nat
  | .nil, _ => 0
  | .cons _ encoding rest, v =>
      encoding.size (v : encoding.Val × rest.Val).1 + rest.size (v : encoding.Val × rest.Val).2

@[inherit_doc Schema.size]
def Tags.size : (tags : Tags) → tags.Val → Nat
  | .nil, _ => 0
  | .unit _ _ rest, v =>
      match (v : Unit ⊕ rest.Val) with
      | .inl _ => 0
      | .inr v => rest.size v
  | .newtype _ _ encoding rest, v =>
      match (v : encoding.Val ⊕ rest.Val) with
      | .inl v => encoding.size v
      | .inr v => rest.size v

end

/-- Where there is no bound, no bound is exceeded. -/
theorem unbounded {P : Nat → Prop} : ∀ m, (none : Option Nat) = some m → P m := by
  intro m h
  cases h

mutual

/-- The writer has no error for the value, as long as its size is a number. -/
def Schema.Writable : (s : Schema) → s.Val → Prop
  | .primitive p, v => p.Writable v
  | .bytes, _ => True
  | .hash t, v => List.length (α := UInt8) v = t.size
  | .path, v => ∀ max, MAX_PASS_MERKLE_DEPTH = some max → List.length (α := PathItem) v ≤ max
  | .string max, v => ∀ m, max = some m → (utf8 v).length ≤ m
  | .struct _ fields, v => fields.Writable v
  | .enum _ tagType _ tags, v => (tagType.size = 1 ∨ tagType.size = 2) ∧ tags.Writable v
  | .optionField inner, v =>
      match (v : Option inner.Val) with
      | none => True
      | some v => inner.Writable v
  | .list max inner, vs => (∀ m, max = some m → List.length (α := inner.Val) vs ≤ m) ∧
      ∀ v : inner.Val, List.Mem v vs → inner.Writable v
  | .sized size inner, v => inner.Writable v ∧ inner.size v = size
  | .bounded max inner, v => inner.Writable v ∧ inner.size v ≤ max
  | .dynamic max inner, v => inner.Writable v ∧ inner.size v < 2 ^ 32 ∧
      ∀ m, max = some m → inner.size v ≤ m

@[inherit_doc Schema.Writable]
def Fields.Writable : (fields : Fields) → fields.Val → Prop
  | .nil, _ => True
  | .cons _ encoding rest, v =>
      encoding.Writable (v : encoding.Val × rest.Val).1 ∧
        rest.Writable (v : encoding.Val × rest.Val).2

@[inherit_doc Schema.Writable]
def Tags.Writable : (tags : Tags) → tags.Val → Prop
  | .nil, _ => True
  | .unit _ _ rest, v =>
      match (v : Unit ⊕ rest.Val) with
      | .inl _ => True
      | .inr v => rest.Writable v
  | .newtype _ _ encoding rest, v =>
      match (v : encoding.Val ⊕ rest.Val) with
      | .inl v => encoding.Writable v
      | .inr v => rest.Writable v

end

theorem primitive_writable {p : PrimitiveEncoding} {v : p.Val} (h : p.Writable v) :
    ∃ b, Encodes (.primitive p) v b ∧ b.length = p.size := by
  cases p with
  | int31 => exact ⟨_, ⟨_, rfl, if_pos h⟩, toBe_length _ _⟩
  | uint32 =>
      obtain ⟨hle, hpos⟩ := h
      refine ⟨toBe 4 (UInt32.toNat v), ⟨_, rfl, ?_⟩, toBe_length 4 _⟩
      simp only [PrimitiveEncoding.toValue]
      rw [if_pos hle]
      exact if_pos hpos
  | bool => exact ⟨_, ⟨_, rfl, rfl⟩, rfl⟩
  | int8 | uint8 => exact ⟨_, ⟨_, rfl, rfl⟩, toBe_length 1 _⟩
  | int16 | uint16 => exact ⟨_, ⟨_, rfl, rfl⟩, toBe_length 2 _⟩
  | int32 => exact ⟨_, ⟨_, rfl, rfl⟩, toBe_length 4 _⟩
  | int64 | float | timestamp => exact ⟨_, ⟨_, rfl, rfl⟩, toBe_length 8 _⟩

theorem bodyPath_length {items : List PathItem} (h : HashSized items) :
    (bodyPath (items.map PathItem.parts)).length = 1 + 33 * items.length := by
  induction items with
  | nil => rfl
  | cons item rest ih =>
      have hitem := h item List.mem_cons_self
      have hrest := ih fun item hmem => h item (List.mem_cons_of_mem _ hmem)
      cases item with
      | right hash =>
          simp only [PathItem.hash] at hitem
          simp only [bodyPath, PathItem.parts, List.map_cons, List.flatten_cons, List.length_append,
            List.length_cons, List.filterMap_cons_none, hitem] at hrest ⊢
          omega
      | left hash =>
          simp only [PathItem.hash] at hitem
          simp [bodyPath, PathItem.parts, hitem] at hrest ⊢
          omega

/-! ## Writing -/

theorem bodyElements_of_forall₂ {s : Schema} {vs : List s.Val} {bs : List Bytes}
    (h : List.Forall₂ (Encodes s) vs bs) : ∃ values, vs.mapM (serialize s) = .ok values ∧
      values.length = vs.length ∧ bodyElements (body (generateEncoding s)) values = .ok bs.flatten := by
  induction h with
  | nil => exact ⟨[], rfl, rfl, rfl⟩
  | @cons v b vs bs hv _ ih =>
      obtain ⟨value, hserialize, hbody⟩ := hv
      obtain ⟨values, hvalues, hlen, hbodies⟩ := ih
      refine ⟨value :: values, ?_, by simp [hlen], ?_⟩
      · rw [List.mapM_cons, hserialize, hvalues]
        rfl
      · rw [bodyElements, hbody, hbodies]
        rfl

theorem encodes_list_of {s : Schema} {max : Option Nat} {vs : List s.Val} {bs : List Bytes}
    (hmax : ∀ m, max = some m → vs.length ≤ m) (h : List.Forall₂ (Encodes s) vs bs) :
    Encodes (.list max s) vs bs.flatten := by
  obtain ⟨values, hvalues, hlen, hbody⟩ := bodyElements_of_forall₂ h
  refine ⟨.list values, ?_, ?_⟩
  · change (vs.mapM (serialize s)).map Value.list = _
    rw [hvalues]
    rfl
  · cases max with
    | none => exact hbody
    | some m =>
        have hle := hmax m rfl
        rw [generateEncoding, body, if_neg (by omega)]
        exact hbody

theorem encodes_string_of {max : Option Nat} {v : String}
    (hmax : ∀ m, max = some m → (utf8 v).length ≤ m) (hlt : 4 + (utf8 v).length < 2 ^ 64) :
    Encodes (.string max) v (toBe 4 (utf8 v).length ++ utf8 v) := by
  refine ⟨.string v, rfl, ?_⟩
  have hbody : bodyString v = .ok (toBe 4 (utf8 v).length ++ utf8 v) := if_pos hlt
  cases max with
  | none => exact hbody
  | some m =>
      have hle := hmax m rfl
      rw [generateEncoding, body, if_neg (by omega)]
      exact hbody

theorem encodes_bytes_of (v : Bytes) : Encodes .bytes v v := by
  refine ⟨_, rfl, ?_⟩
  rw [generateEncoding, bytesValue, body, listToU8s_bytesValue]
  rfl

theorem encodes_hash_of {t : HashType} {v : Bytes} (h : v.length = t.size) :
    Encodes (.hash t) v v := by
  refine ⟨_, rfl, ?_⟩
  rw [generateEncoding, bytesValue, body, listToU8s_bytesValue]
  exact if_pos h

theorem encodes_path_of {items : List PathItem}
    (h : ∀ max, MAX_PASS_MERKLE_DEPTH = some max → items.length ≤ max) :
    Encodes .path items (bodyPath (items.map PathItem.parts)) := by
  have hle := h 3 rfl
  refine ⟨.list (items.map PathItem.toValue), ?_, body_path items⟩
  change pathToValue MAX_PASS_MERKLE_DEPTH items = _
  simp only [pathToValue, MAX_PASS_MERKLE_DEPTH]
  rw [if_neg (by omega)]

theorem encodes_some_of {s : Schema} {v : s.Val} {b : Bytes} (h : Encodes s v b)
    (hlt : 1 + b.length < 2 ^ 64) :
    Encodes (.optionField s) (some v : Option s.Val) (BYTE_FIELD_SOME :: b) := by
  obtain ⟨value, hserialize, hbody⟩ := h
  refine ⟨.option (some value), ?_, ?_⟩
  · change (serialize s v).map (fun v => Value.option (some v)) = _
    rw [hserialize]
    rfl
  · rw [generateEncoding, body, hbody]
    exact if_pos hlt

theorem encodes_sized_of {s : Schema} {size : Nat} {v : s.Val} {b : Bytes} (h : Encodes s v b)
    (hsize : b.length = size) : Encodes (.sized size s) v b := by
  obtain ⟨value, hserialize, hbody⟩ := h
  refine ⟨value, hserialize, ?_⟩
  rw [generateEncoding, body, hbody]
  exact if_pos hsize

theorem encodes_bounded_of {s : Schema} {max : Nat} {v : s.Val} {b : Bytes} (h : Encodes s v b)
    (hmax : b.length ≤ max) : Encodes (.bounded max s) v b := by
  obtain ⟨value, hserialize, hbody⟩ := h
  refine ⟨value, hserialize, ?_⟩
  rw [generateEncoding, body, hbody]
  exact if_pos hmax

theorem encodes_dynamic_of {s : Schema} {max : Option Nat} {v : s.Val} {b : Bytes}
    (h : Encodes s v b) (hlt : b.length < 2 ^ 32) (hmax : ∀ m, max = some m → b.length ≤ m) :
    Encodes (.dynamic max s) v (toBe 4 b.length ++ b) := by
  obtain ⟨value, hserialize, hbody⟩ := h
  refine ⟨value, hserialize, ?_⟩
  have hdynamic : bodyDynamic b = .ok (toBe 4 b.length ++ b) := if_pos hlt
  cases max with
  | none =>
      rw [generateEncoding, body, hbody]
      exact hdynamic
  | some m =>
      have hle : ¬ b.length > m := Nat.not_lt.mpr (hmax m rfl)
      rw [generateEncoding, body, hbody]
      exact (if_neg hle).trans hdynamic

/-- A variant has a name under which the tag map finds its id, and its field is written under
that id. -/
theorem serializeTags_of_tagEncodes : ∀ {tags : Tags} {v : tags.Val} {id : Nat} {b : Bytes}
    (index : Nat), tags.names.Nodup → tags.ids.Nodup → TagEncodes tags v id b →
    ∃ name, TagOf tags name id ∧
      ((b = [] ∧ ∃ i, serializeTags tags index v = .ok (.enum (some name) i)) ∨
        ∃ w, serializeTags tags index v = .ok (.tag name w) ∧
          bodyTag (generateTagEncoding tags) id w = some (.ok b))
  | .unit id name rest, .inl (), _, _, index, hn, hi, ⟨rfl, rfl⟩ => by
      rw [Tags.names, List.nodup_cons] at hn
      exact ⟨name, .head rfl rfl rfl hn.1, .inl ⟨rfl, _, rfl⟩⟩
  | .unit id name rest, .inr v, id', b, index, hn, hi, h => by
      rw [Tags.names, List.nodup_cons] at hn
      rw [Tags.ids, List.nodup_cons] at hi
      obtain ⟨name', htag, hval⟩ := serializeTags_of_tagEncodes (v := v) (index + 1) hn.2 hi.2 h
      refine ⟨name', htag.cons rfl rfl rfl, hval.imp_right ?_⟩
      intro h
      obtain ⟨w, hw, hbody⟩ := h
      refine ⟨w, hw, ?_⟩
      rw [generateTagEncoding, bodyTag, hbody]
  | .newtype id name encoding rest, .inl v, _, b, index, hn, hi, ⟨rfl, h⟩ => by
      rw [Tags.names, List.nodup_cons] at hn
      rw [Tags.ids, List.nodup_cons] at hi
      obtain ⟨w, hserialize, hbody⟩ := h
      refine ⟨name, .head rfl rfl rfl hn.1, .inr ⟨w, ?_, ?_⟩⟩
      · change (serialize encoding v).map (Value.tag name) = _
        rw [hserialize]
        rfl
      · rw [generateTagEncoding, bodyTag, bodyTag_eq_none hi.1]
        simp [hbody]
  | .newtype id name encoding rest, .inr v, id', b, index, hn, hi, h => by
      rw [Tags.names, List.nodup_cons] at hn
      rw [Tags.ids, List.nodup_cons] at hi
      obtain ⟨name', htag, hval⟩ := serializeTags_of_tagEncodes (v := v) (index + 1) hn.2 hi.2 h
      refine ⟨name', htag.cons rfl rfl rfl, hval.imp_right ?_⟩
      intro h
      obtain ⟨w, hw, hbody⟩ := h
      refine ⟨w, hw, ?_⟩
      rw [generateTagEncoding, bodyTag, hbody]

theorem encodes_enum_of {name : String} {tagType : TagType} {ignoreUnknown : Bool} {tags : Tags}
    {v : tags.Val} {id : Nat} {b : Bytes} (hn : tags.names.Nodup) (hi : tags.ids.Nodup)
    (hsize : tagType.size = 1 ∨ tagType.size = 2) (h : TagEncodes tags v id b) :
    Encodes (.enum name tagType ignoreUnknown tags) v (toBe tagType.size id ++ b) := by
  obtain ⟨variant, htag, ⟨rfl, i, hval⟩ | ⟨w, hval, hbody⟩⟩ := serializeTags_of_tagEncodes 0 hn hi h
  · obtain ⟨e, he⟩ := findById_of_mem htag.id_mem
    refine ⟨_, hval, ?_⟩
    simp only [generateEncoding, body, TagMap.findByVariant, htag.idOfVariant, Option.bind_some, he,
      bodyTagId, if_pos hsize, List.append_nil]
  · refine ⟨_, hval, ?_⟩
    simp only [generateEncoding, body, htag.idOfVariant, bodyTagId, if_pos hsize, hbody]
    rfl

/-- The elements of a list that are written one by one. -/
theorem forall₂_of_elements {s : Schema} {vs : List s.Val}
    (h : ∀ v : s.Val, List.Mem v vs → ∃ b, Encodes s v b ∧ b.length = s.size v) :
    ∃ bs, List.Forall₂ (Encodes s) vs bs ∧
      bs.flatten.length = (vs.map fun v : s.Val => s.size v).sum := by
  induction vs with
  | nil => exact ⟨[], .nil, rfl⟩
  | cons v vs ih =>
      obtain ⟨b, hb, hlen⟩ := h v (List.Mem.head _)
      obtain ⟨bs, hbs, hsum⟩ := ih fun v hv => h v (List.Mem.tail _ hv)
      refine ⟨b :: bs, .cons hb hbs, ?_⟩
      rw [List.flatten_cons, List.length_append, hlen, hsum, List.map_cons, List.sum_cons]

theorem size_le_sum {α : Type} {f : α → Nat} {a : α} {l : List α} (h : List.Mem a l) :
    f a ≤ (l.map f).sum := by
  induction h with
  | head l => simp
  | tail b _ ih => simp only [List.map_cons, List.sum_cons]; omega

mutual

/-- A value that can be written is written, with as many bytes as its size says. -/
theorem encodes_of_writable : (s : Schema) → s.Wf → {v : s.Val} → s.Writable v →
    s.size v < 2 ^ 64 → ∃ b, Encodes s v b ∧ b.length = s.size v
  | .primitive p, _, v, h, _ => primitive_writable h
  | .bytes, _, v, _, _ => ⟨v, encodes_bytes_of v, rfl⟩
  | .hash t, _, v, h, _ => ⟨v, encodes_hash_of h, rfl⟩
  | .path, _, v, h, _ => ⟨_, encodes_path_of h, rfl⟩
  | .string max, _, v, h, hlt => ⟨_, encodes_string_of h hlt, by simp [Schema.size]⟩
  | .struct name fields, hwf, v, h, hlt => by
      obtain ⟨b, hb, hlen⟩ := fieldsEncode_of_writable fields hwf.2 h hlt
      exact ⟨b, encodes_struct_of hwf.1 hb (by rw [hlen]; exact hlt), hlen⟩
  | .enum name tagType ignoreUnknown tags, hwf, v, h, hlt => by
      have hlt' : tags.size v < 2 ^ 64 := by
        simp only [Schema.size] at hlt
        omega
      obtain ⟨id, b, hb, hlen⟩ := tagEncodes_of_writable tags hwf.2.2.2 h.2 hlt'
      refine ⟨_, encodes_enum_of hwf.1 hwf.2.1 h.1 hb, ?_⟩
      rw [List.length_append, toBe_length, hlen]
      rfl
  | .optionField inner, hwf, none, _, _ => ⟨[BYTE_FIELD_NONE], ⟨_, rfl, rfl⟩, rfl⟩
  | .optionField inner, hwf, some v, h, hlt => by
      have hlt' : 1 + inner.size v < 2 ^ 64 := hlt
      obtain ⟨b, hb, hlen⟩ := encodes_of_writable inner hwf (v := v) h (by omega)
      refine ⟨_, encodes_some_of hb (by rw [hlen]; exact hlt'), ?_⟩
      rw [List.length_cons, hlen, Nat.add_comm]
      rfl
  | .list max inner, hwf, vs, h, hlt => by
      have elements : ∀ v : inner.Val, List.Mem v vs → ∃ b, Encodes inner v b ∧
          b.length = inner.size v := by
        intro v hv
        have hle := size_le_sum (f := fun v : inner.Val => inner.size v) hv
        exact encodes_of_writable inner hwf.1 (h.2 v hv) (Nat.lt_of_le_of_lt hle hlt)
      obtain ⟨bs, hbs, hsum⟩ := forall₂_of_elements elements
      exact ⟨bs.flatten, encodes_list_of h.1 hbs, hsum⟩
  | .sized size inner, hwf, v, h, hlt => by
      obtain ⟨b, hb, hlen⟩ := encodes_of_writable inner hwf h.1 hlt
      exact ⟨b, encodes_sized_of hb (hlen.trans h.2), hlen⟩
  | .bounded max inner, hwf, v, h, hlt => by
      obtain ⟨b, hb, hlen⟩ := encodes_of_writable inner hwf h.1 hlt
      exact ⟨b, encodes_bounded_of hb (by rw [hlen]; exact h.2), hlen⟩
  | .dynamic max inner, hwf, v, h, hlt => by
      obtain ⟨b, hb, hlen⟩ := encodes_of_writable inner hwf h.1 (h.2.1.trans (by decide))
      refine ⟨_, encodes_dynamic_of hb (by rw [hlen]; exact h.2.1) (by rw [hlen]; exact h.2.2), ?_⟩
      rw [List.length_append, toBe_length, hlen]
      rfl

@[inherit_doc encodes_of_writable]
theorem fieldsEncode_of_writable : (fields : Fields) → fields.Wf → {v : fields.Val} →
    fields.Writable v → fields.size v < 2 ^ 64 →
    ∃ b, FieldsEncode fields v b ∧ b.length = fields.size v
  | .nil, _, _, _, _ => ⟨[], rfl, rfl⟩
  | .cons name encoding rest, hwf, (v, vs), h, hlt => by
      have hlt' : encoding.size v + rest.size vs < 2 ^ 64 := hlt
      obtain ⟨b₁, hb₁, hlen₁⟩ := encodes_of_writable encoding hwf.cons.1 h.1 (by dsimp only; omega)
      obtain ⟨b₂, hb₂, hlen₂⟩ := fieldsEncode_of_writable rest hwf.cons.2 h.2 (by dsimp only; omega)
      refine ⟨b₁ ++ b₂, ⟨b₁, b₂, rfl, hb₁, hb₂⟩, ?_⟩
      rw [List.length_append, hlen₁, hlen₂]
      rfl

@[inherit_doc encodes_of_writable]
theorem tagEncodes_of_writable : (tags : Tags) → tags.Wf → {v : tags.Val} → tags.Writable v →
    tags.size v < 2 ^ 64 → ∃ id b, TagEncodes tags v id b ∧ b.length = tags.size v
  | .nil, _, v, _, _ => (v : Empty).elim
  | .unit id name rest, _, .inl (), _, _ => ⟨id, [], ⟨rfl, rfl⟩, rfl⟩
  | .unit id name rest, hwf, .inr v, h, hlt =>
      tagEncodes_of_writable rest hwf (v := v) h hlt
  | .newtype id name encoding rest, hwf, .inl v, h, hlt => by
      obtain ⟨b, hb, hlen⟩ := encodes_of_writable encoding hwf.1 (v := v) h hlt
      exact ⟨id, b, ⟨rfl, hb⟩, hlen⟩
  | .newtype id name encoding rest, hwf, .inr v, h, hlt =>
      tagEncodes_of_writable rest hwf.2 (v := v) h hlt

end

/-! ## Bounds -/

mutual

/-- The largest size of a value that can be written, if the schema bounds it. -/
def Schema.maxSize : Schema → Option Nat
  | .primitive p => some p.size
  | .bytes | .path => none
  | .hash t => some t.size
  | .string max => max.map (4 + ·)
  | .struct _ fields => fields.maxSize
  | .enum _ tagType _ tags => tags.maxSize.map (tagType.size + ·)
  | .optionField inner => inner.maxSize.map (1 + ·)
  | .list (some max) inner => inner.maxSize.map (max * ·)
  | .list none _ => none
  | .sized size _ => some size
  | .bounded max _ => some max
  | .dynamic (some max) _ => some (4 + max)
  | .dynamic none inner => inner.maxSize.map (4 + ·)

@[inherit_doc Schema.maxSize]
def Fields.maxSize : Fields → Option Nat
  | .nil => some 0
  | .cons _ encoding rest => encoding.maxSize.bind fun n => rest.maxSize.map (n + ·)

@[inherit_doc Schema.maxSize]
def Tags.maxSize : Tags → Option Nat
  | .nil => some 0
  | .unit _ _ rest => rest.maxSize
  | .newtype _ _ encoding rest => encoding.maxSize.bind fun n => rest.maxSize.map (max n ·)

end

theorem sum_le_mul {α : Type} {f : α → Nat} {n : Nat} {l : List α}
    (h : ∀ a, List.Mem a l → f a ≤ n) : (l.map f).sum ≤ l.length * n := by
  induction l with
  | nil => simp
  | cons a l ih =>
      have ha := h a (List.Mem.head l)
      have hl := ih fun a ha => h a (List.Mem.tail _ ha)
      rw [List.map_cons, List.sum_cons, List.length_cons, Nat.succ_mul]
      omega

mutual

/-- A value that can be written is at most as large as the bounds of its schema add up to. -/
theorem size_le_maxSize : (s : Schema) → {v : s.Val} → {n : Nat} → s.Writable v →
    s.maxSize = some n → s.size v ≤ n
  | .primitive p, v, _, _, rfl => Nat.le_refl _
  | .hash t, v, _, h, rfl => Nat.le_of_eq h
  | .string (some max), v, _, h, rfl => Nat.add_le_add_left (h max rfl) 4
  | .struct _ fields, v, _, h, hn => fields_size_le_maxSize fields h hn
  | .enum _ tagType _ tags, v, _, h, hn => by
      obtain ⟨n, htags, rfl⟩ := Option.map_eq_some_iff.mp hn
      exact Nat.add_le_add_left (tags_size_le_maxSize tags h.2 htags) _
  | .optionField inner, none, _, h, hn => by
      obtain ⟨n, hinner, rfl⟩ := Option.map_eq_some_iff.mp hn
      exact Nat.le_add_right 1 n
  | .optionField inner, some v, _, h, hn => by
      obtain ⟨n, hinner, rfl⟩ := Option.map_eq_some_iff.mp hn
      exact Nat.add_le_add_left (size_le_maxSize inner (v := v) h hinner) 1
  | .list (some max) inner, vs, _, h, hn => by
      obtain ⟨n, hinner, rfl⟩ := Option.map_eq_some_iff.mp hn
      have hsum := sum_le_mul fun v hv => size_le_maxSize inner (h.2 v hv) hinner
      exact hsum.trans (Nat.mul_le_mul_right n (h.1 max rfl))
  | .sized size inner, v, _, h, rfl => Nat.le_of_eq h.2
  | .bounded max inner, v, _, h, rfl => h.2
  | .dynamic (some max) inner, v, _, h, rfl => Nat.add_le_add_left (h.2.2 max rfl) 4
  | .dynamic none inner, v, _, h, hn => by
      obtain ⟨n, hinner, rfl⟩ := Option.map_eq_some_iff.mp hn
      exact Nat.add_le_add_left (size_le_maxSize inner h.1 hinner) 4

@[inherit_doc size_le_maxSize]
theorem fields_size_le_maxSize : (fields : Fields) → {v : fields.Val} → {n : Nat} →
    fields.Writable v → fields.maxSize = some n → fields.size v ≤ n
  | .nil, _, _, _, _ => Nat.zero_le _
  | .cons _ encoding rest, v, _, h, hn => by
      obtain ⟨n, hencoding, hmap⟩ := Option.bind_eq_some_iff.mp hn
      obtain ⟨m, hrest, rfl⟩ := Option.map_eq_some_iff.mp hmap
      exact Nat.add_le_add (size_le_maxSize encoding h.1 hencoding)
        (fields_size_le_maxSize rest h.2 hrest)

@[inherit_doc size_le_maxSize]
theorem tags_size_le_maxSize : (tags : Tags) → {v : tags.Val} → {n : Nat} → tags.Writable v →
    tags.maxSize = some n → tags.size v ≤ n
  | .nil, v, _, _, _ => (v : Empty).elim
  | .unit _ _ rest, .inl (), _, _, _ => Nat.zero_le _
  | .unit _ _ rest, .inr v, _, h, hn => tags_size_le_maxSize rest (v := v) h hn
  | .newtype _ _ encoding rest, v, _, h, hn => by
      obtain ⟨n, hencoding, hmap⟩ := Option.bind_eq_some_iff.mp hn
      obtain ⟨m, hrest, rfl⟩ := Option.map_eq_some_iff.mp hmap
      cases v with
      | inl v => exact (size_le_maxSize encoding (v := v) h hencoding).trans (Nat.le_max_left n m)
      | inr v => exact (tags_size_le_maxSize rest (v := v) h hrest).trans (Nat.le_max_right n m)

end

end NodeFuzzer
