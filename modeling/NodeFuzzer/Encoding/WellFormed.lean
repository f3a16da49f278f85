import Mathlib.Data.List.Forall2
import NodeFuzzer.Encoding.Derive

/-!
# Well-formed schemas

The schemas on which a derived writer and a derived reader are to agree
(`Schema.Wf`): names and tags are distinct, a part that reads all its input
(`Schema.greedy`) stands last or in a block of known size, and list elements are
written with at least one byte.  `Schema.check` decides this for a given schema.

`Encodes s v b` says that `b` is what the writer appends for `v`.  For each
constructor of a schema there is one lemma that says what `b` is made of.
-/

namespace NodeFuzzer

/-! ## Sequencing -/

/-- What ran to the end ran each of its steps. -/
theorem bind_eq_ok {ε α β : Type} {x : Except ε α} {f : α → Except ε β} {b : β}
    (h : x >>= f = .ok b) : ∃ a, x = .ok a ∧ f a = .ok b := by
  cases x with
  | error e => cases h
  | ok a => exact ⟨a, rfl, h⟩

theorem map_eq_ok {ε α β : Type} {x : Except ε α} {f : α → β} {b : β}
    (h : x.map f = .ok b) : ∃ a, x = .ok a ∧ f a = b := by
  cases x with
  | error e => cases h
  | ok a => exact ⟨a, rfl, Except.ok.inj h⟩

theorem ite_eq_ok {ε α : Type} {c : Prop} [Decidable c] {x : Except ε α} {e : ε} {a : α}
    (h : (if c then x else .error e) = .ok a) : c ∧ x = .ok a := by
  split at h
  · exact ⟨‹c›, h⟩
  · cases h

theorem mapM_cons_eq_ok {ε α β : Type} {f : α → Except ε β} {a : α} {as : List α} {bs : List β}
    (h : (a :: as).mapM f = .ok bs) :
    ∃ b bs', f a = .ok b ∧ as.mapM f = .ok bs' ∧ bs = b :: bs' := by
  rw [List.mapM_cons] at h
  obtain ⟨b, hb, h⟩ := bind_eq_ok h
  obtain ⟨bs', hbs, h⟩ := bind_eq_ok h
  exact ⟨b, bs', hb, hbs, (Except.ok.inj h).symm⟩

/-! ## Well-formed schemas -/

/-- `as_bytes`: serialize and write. -/
def asBytes (s : Schema) (v : s.Val) : Except BinaryWriterError Bytes :=
  match serialize s v with
  | .ok value => write value (generateEncoding s)
  | .error e => throwKind e

/-- The writer appends `b` for the value. -/
def Encodes (s : Schema) (v : s.Val) (b : Bytes) : Prop :=
  ∃ value, serialize s v = .ok value ∧ body (generateEncoding s) value = .ok b

/-- `as_bytes` returns what the writer appends. -/
theorem asBytes_iff {s : Schema} {v : s.Val} {b : Bytes} : asBytes s v = .ok b ↔ Encodes s v b := by
  rw [asBytes, Encodes]
  cases serialize s v with
  | ok value => simp [write_eq_body]
  | error e => simp [throwKind]

mutual

/-- The reader of the schema takes all the input that is left. -/
def Schema.greedy : Schema → Bool
  | .bytes => true
  | .list _ _ => true
  | .struct _ fields => fields.greedy
  | .enum _ _ _ tags => tags.greedy
  | .optionField inner => inner.greedy
  | .bounded _ inner => inner.greedy
  | _ => false

/-- The last field is greedy. -/
def Fields.greedy : Fields → Bool
  | .nil => false
  | .cons _ encoding .nil => encoding.greedy
  | .cons _ _ rest => rest.greedy

/-- The field of some variant is greedy. -/
def Tags.greedy : Tags → Bool
  | .nil => false
  | .unit _ _ rest => rest.greedy
  | .newtype _ _ encoding rest => encoding.greedy || rest.greedy

end

mutual

/-- The schemas on which the writer and the reader are to agree. -/
def Schema.Wf : Schema → Prop
  | .primitive p => p ≠ .float
  | .bytes => True
  | .hash _ => True
  | .path => True
  | .string _ => True
  | .struct _ fields => fields.names.Nodup ∧ fields.Wf
  | .enum _ tagType _ tags =>
      tags.names.Nodup ∧ tags.ids.Nodup ∧ (∀ id ∈ tags.ids, id < tagType.bound) ∧ tags.Wf
  | .optionField inner => inner.Wf
  -- Every element is written with at least one byte.
  | .list _ inner => inner.Wf ∧ inner.greedy = false ∧ ∀ v b, Encodes inner v b → b ≠ []
  | .sized _ inner => inner.Wf
  | .bounded _ inner => inner.Wf
  | .dynamic _ inner => inner.Wf

/-- All fields are well-formed, and those before the last are not greedy. -/
def Fields.Wf : Fields → Prop
  | .nil => True
  | .cons _ encoding .nil => encoding.Wf
  | .cons _ encoding rest => encoding.Wf ∧ encoding.greedy = false ∧ rest.Wf

/-- The fields of all variants are well-formed. -/
def Tags.Wf : Tags → Prop
  | .nil => True
  | .unit _ _ rest => rest.Wf
  | .newtype _ _ encoding rest => encoding.Wf ∧ rest.Wf

end

theorem Fields.Wf.cons {name : String} {encoding : Schema} {rest : Fields}
    (h : (Fields.cons name encoding rest).Wf) : encoding.Wf ∧ rest.Wf := by
  cases rest with
  | nil => exact ⟨h, trivial⟩
  | cons name' encoding' rest' => exact ⟨h.1, h.2.2⟩

mutual

/-- The schema has no hand-written path codec. -/
def Schema.NoPath : Schema → Prop
  | .path => False
  | .struct _ fields => fields.NoPath
  | .enum _ _ _ tags => tags.NoPath
  | .optionField inner => inner.NoPath
  | .list _ inner => inner.NoPath
  | .sized _ inner => inner.NoPath
  | .bounded _ inner => inner.NoPath
  | .dynamic _ inner => inner.NoPath
  | _ => True

@[inherit_doc Schema.NoPath]
def Fields.NoPath : Fields → Prop
  | .nil => True
  | .cons _ encoding rest => encoding.NoPath ∧ rest.NoPath

@[inherit_doc Schema.NoPath]
def Tags.NoPath : Tags → Prop
  | .nil => True
  | .unit _ _ rest => rest.NoPath
  | .newtype _ _ encoding rest => encoding.NoPath ∧ rest.NoPath

end

mutual

/-- Every string and every path in a value satisfies a predicate. -/
def Schema.All (P : String → Prop) (Q : List PathItem → Prop) : (s : Schema) → s.Val → Prop
  | .primitive _, _ => True
  | .bytes, _ => True
  | .hash _, _ => True
  | .path, v => Q v
  | .string _, v => P v
  | .struct _ fields, v => fields.All P Q v
  | .enum _ _ _ tags, v => tags.All P Q v
  | .optionField inner, v =>
      match (v : Option inner.Val) with
      | none => True
      | some v => inner.All P Q v
  | .list _ inner, vs => ∀ v : inner.Val, List.Mem v vs → inner.All P Q v
  | .sized _ inner, v => inner.All P Q v
  | .bounded _ inner, v => inner.All P Q v
  | .dynamic _ inner, v => inner.All P Q v

@[inherit_doc Schema.All]
def Fields.All (P : String → Prop) (Q : List PathItem → Prop) : (fields : Fields) → fields.Val → Prop
  | .nil, _ => True
  | .cons _ encoding rest, v =>
      encoding.All P Q (v : encoding.Val × rest.Val).1 ∧
        rest.All P Q (v : encoding.Val × rest.Val).2

@[inherit_doc Schema.All]
def Tags.All (P : String → Prop) (Q : List PathItem → Prop) : (tags : Tags) → tags.Val → Prop
  | .nil, _ => True
  | .unit _ _ rest, v =>
      match (v : Unit ⊕ rest.Val) with
      | .inl _ => True
      | .inr v => rest.All P Q v
  | .newtype _ _ encoding rest, v =>
      match (v : encoding.Val ⊕ rest.Val) with
      | .inl v => encoding.All P Q v
      | .inr v => rest.All P Q v

end

/-- The length of the string fits the four bytes it is written in. -/
def ShortString (v : String) : Prop := (utf8 v).length < 2 ^ 32

/-- Every string in the value has fewer than `2 ^ 32` bytes. -/
def ShortStrings (s : Schema) (v : s.Val) : Prop := s.All ShortString (fun _ => True) v

/-- Every hash of the path has the size the reader takes. -/
def HashSized (items : List PathItem) : Prop := ∀ item ∈ items, item.hash.length = 32

/-! ## Records and variants -/

/-- The bytes of the fields, one after the other. -/
def FieldsEncode : (fields : Fields) → fields.Val → Bytes → Prop
  | .nil, _, b => b = []
  | .cons _ encoding rest, v, b => ∃ b₁ b₂, b = b₁ ++ b₂ ∧
      Encodes encoding (v : encoding.Val × rest.Val).1 b₁ ∧
      FieldsEncode rest (v : encoding.Val × rest.Val).2 b₂

/-- The tag id and the bytes of the field of a variant. -/
def TagEncodes : (tags : Tags) → tags.Val → Nat → Bytes → Prop
  | .nil, _, _, _ => False
  | .unit id _ rest, v, id', b =>
      match (v : Unit ⊕ rest.Val) with
      | .inl _ => id' = id ∧ b = []
      | .inr v => TagEncodes rest v id' b
  | .newtype id _ encoding rest, v, id', b =>
      match (v : encoding.Val ⊕ rest.Val) with
      | .inl v => id' = id ∧ Encodes encoding v b
      | .inr v => TagEncodes rest v id' b

/-- Among distinct names the one that is looked for is found. -/
theorem findValueInRecordValues_of_mem {name : String} {value : Value} :
    ∀ {values : List (String × Value)}, (values.map Prod.fst).Nodup → (name, value) ∈ values →
      findValueInRecordValues name values = some value
  | (name', value') :: rest, hnd, hmem => by
      rw [List.map_cons, List.nodup_cons] at hnd
      rw [findValueInRecordValues]
      rcases List.mem_cons.mp hmem with heq | hrest
      · cases heq
        rw [if_pos rfl]
      · have hne : name' ≠ name := by
          intro h
          exact hnd.1 (List.mem_map.mpr ⟨(name, value), hrest, h.symm⟩)
        rw [if_neg hne]
        exact findValueInRecordValues_of_mem hnd.2 hrest

theorem serializeFields_cons {name : String} {encoding : Schema} {rest : Fields} {v : encoding.Val}
    {vs : rest.Val} {values : List (String × Value)}
    (h : serializeFields (.cons name encoding rest) (v, vs) = .ok values) :
    ∃ value values', serialize encoding v = .ok value ∧ serializeFields rest vs = .ok values' ∧
      values = (name, value) :: values' := by
  obtain ⟨value, hv, h⟩ := bind_eq_ok (x := serialize encoding v) h
  obtain ⟨values', hvs, h⟩ := bind_eq_ok (x := serializeFields rest vs) h
  exact ⟨value, values', hv, hvs, (Except.ok.inj h).symm⟩

/-- A record is serialized under the names of its fields, in their order. -/
theorem serializeFields_names : ∀ {fields : Fields} {v : fields.Val}
    {values : List (String × Value)}, serializeFields fields v = .ok values →
      values.map Prod.fst = fields.names
  | .nil, _, _, h => by
      cases h
      rfl
  | .cons name encoding rest, (v, vs), _, h => by
      obtain ⟨value, values', _, hrest, rfl⟩ := serializeFields_cons h
      rw [List.map_cons, serializeFields_names hrest, Fields.names]

/-- The first field is written in front of the others. -/
theorem bodyFields_cons {name : String} {e : Encoding} {rest : FieldList}
    {values : List (String × Value)} {size : Nat} {b : Bytes} {value : Value}
    (hfind : findValueInRecordValues name values = some value)
    (h : bodyFields (.cons name e rest) values size = .ok b) :
    ∃ b₁ b₂, b = b₁ ++ b₂ ∧ body e value = .ok b₁ ∧
      bodyFields rest values (size + b₁.length) = .ok b₂ := by
  rw [bodyFields, hfind] at h
  cases hb : body e value with
  | error err => simp [hb] at h
  | ok b₁ =>
      simp only [hb] at h
      obtain ⟨b₂, hb₂, h⟩ := map_eq_ok (ite_eq_ok h).2
      exact ⟨b₁, b₂, h.symm, rfl, hb₂⟩

/-- The writer finds each field by its name.  `all` is the whole record, of which `values` are the
fields that are left. -/
theorem fieldsEncode_of_bodyFields : ∀ {fields : Fields} {v : fields.Val}
    {values all : List (String × Value)} {size : Nat} {b : Bytes},
    serializeFields fields v = .ok values →
    (∀ p ∈ values, findValueInRecordValues p.1 all = some p.2) →
    bodyFields (generateFieldEncoding fields) all size = .ok b → FieldsEncode fields v b
  | .nil, _, _, _, _, _, _, _, hb => by
      cases hb
      rfl
  | .cons name encoding rest, (v, vs), _, all, size, b, hs, hall, hb => by
      obtain ⟨value, values', hv, hvs, rfl⟩ := serializeFields_cons hs
      obtain ⟨b₁, b₂, rfl, hbv, hrest⟩ := bodyFields_cons (hall (name, value) (by simp)) hb
      exact ⟨b₁, b₂, rfl, ⟨value, hv, hbv⟩,
        fieldsEncode_of_bodyFields hvs (fun p hp => hall p (by simp [hp])) hrest⟩

/-- So fields that are encoded one by one are written. -/
theorem bodyFields_of_fieldsEncode : ∀ {fields : Fields} {v : fields.Val} {b : Bytes},
    FieldsEncode fields v b → ∃ values, serializeFields fields v = .ok values ∧
      ∀ (all : List (String × Value)) (size : Nat),
        (∀ p ∈ values, findValueInRecordValues p.1 all = some p.2) → size + b.length < 2 ^ 64 →
          bodyFields (generateFieldEncoding fields) all size = .ok b
  | .nil, _, _, h => by
      cases h
      exact ⟨[], rfl, fun _ _ _ _ => rfl⟩
  | .cons name encoding rest, (v, vs), _, ⟨b₁, b₂, hb, ⟨value, hv, hbv⟩, hrest⟩ => by
      obtain ⟨values, hvs, hbody⟩ := bodyFields_of_fieldsEncode hrest
      subst hb
      refine ⟨(name, value) :: values, ?_, fun all size hall hsize => ?_⟩
      · change (do
          let value ← serialize encoding v
          let values ← serializeFields rest vs
          return (name, value) :: values) = Except.ok ((name, value) :: values)
        rw [hv, hvs]
        rfl
      · rw [List.length_append] at hsize
        have hfind : findValueInRecordValues name all = some value := hall (name, value) (by simp)
        have htail : bodyFields (generateFieldEncoding rest) all (size + b₁.length) = .ok b₂ :=
          hbody all (size + b₁.length) (fun p hp => hall p (by simp [hp])) (by omega)
        simp only [generateFieldEncoding, bodyFields, hfind, hbv, htail]
        rw [if_pos (by omega)]
        rfl

/-- A record with distinct names is written field by field. -/
theorem encodes_struct {name : String} {fields : Fields} {v : fields.Val} {b : Bytes}
    (hnd : fields.names.Nodup) (h : Encodes (.struct name fields) v b) :
    FieldsEncode fields v b := by
  obtain ⟨value, hv, hb⟩ := h
  obtain ⟨values, hvs, rfl⟩ := map_eq_ok (x := serializeFields fields v) hv
  rw [← serializeFields_names hvs] at hnd
  exact fieldsEncode_of_bodyFields hvs (fun p hp => findValueInRecordValues_of_mem hnd hp) hb

/-- Fields whose bytes can be counted make up a record. -/
theorem encodes_struct_of {name : String} {fields : Fields} {v : fields.Val} {b : Bytes}
    (hnd : fields.names.Nodup) (h : FieldsEncode fields v b) (hlt : b.length < 2 ^ 64) :
    Encodes (.struct name fields) v b := by
  obtain ⟨values, hvs, hbody⟩ := bodyFields_of_fieldsEncode h
  rw [← serializeFields_names hvs] at hnd
  refine ⟨.record values, ?_, ?_⟩
  · change (serializeFields fields v).map Value.record = _
    rw [hvs]
    rfl
  · exact hbody values 0 (fun p hp => findValueInRecordValues_of_mem hnd hp) (by omega)

/-- A name that no variant has is not found, -/
theorem idOfVariant_eq_none {name : String} : ∀ {tags : Tags}, name ∉ tags.names →
    (generateTagEncoding tags).idOfVariant name = none
  | .nil, _ => rfl
  | .unit _ name' rest, h | .newtype _ name' _ rest, h => by
      rw [Tags.names, List.mem_cons, not_or] at h
      rw [generateTagEncoding, TagMap.idOfVariant, idOfVariant_eq_none h.2]
      exact if_neg (Ne.symm h.1)

/-- nor is anything written under a tag that no variant has. -/
theorem bodyTag_eq_none {id : Nat} {value : Value} : ∀ {tags : Tags}, id ∉ tags.ids →
    bodyTag (generateTagEncoding tags) id value = none
  | .nil, _ => rfl
  | .unit id' _ rest, h | .newtype id' _ _ rest, h => by
      rw [Tags.ids, List.mem_cons, not_or] at h
      rw [generateTagEncoding, bodyTag, bodyTag_eq_none h.2]
      exact if_neg (Ne.symm h.1)

theorem findById_of_mem {id : Nat} : ∀ {tags : Tags}, id ∈ tags.ids →
    ∃ e, (generateTagEncoding tags).findById id = some (id, e)
  | .unit id' _ rest, h | .newtype id' _ _ rest, h => by
      rw [Tags.ids, List.mem_cons] at h
      rw [generateTagEncoding, TagMap.findById]
      cases hr : (generateTagEncoding rest).findById id with
      | some t =>
          by_cases hmem : id ∈ rest.ids
          · obtain ⟨e, he⟩ := findById_of_mem hmem
            exact ⟨e, hr.symm.trans he⟩
          · have hnone := findById_eq_none hmem
            rw [hr] at hnone
            cases hnone
      | none =>
          rcases h with rfl | hmem
          · exact ⟨_, if_pos rfl⟩
          · obtain ⟨e, he⟩ := findById_of_mem hmem
            rw [hr] at he
            cases he
where
  /-- No tag has the id. -/
  findById_eq_none {id : Nat} : ∀ {tags : Tags}, id ∉ tags.ids →
      (generateTagEncoding tags).findById id = none
    | .nil, _ => rfl
    | .unit id' _ rest, h | .newtype id' _ _ rest, h => by
        rw [Tags.ids, List.mem_cons, not_or] at h
        rw [generateTagEncoding, TagMap.findById, findById_eq_none h.2]
        exact if_neg (Ne.symm h.1)

/-- The variant of a name has the tag of an id, and the tag map finds it. -/
structure TagOf (tags : Tags) (name : String) (id : Nat) : Prop where
  name_mem : name ∈ tags.names
  id_mem : id ∈ tags.ids
  idOfVariant : (generateTagEncoding tags).idOfVariant name = some id

/-- A variant behind the first one keeps its tag. -/
theorem TagOf.cons {tags tags' : Tags} {name name' : String} {id id' : Nat} {e : Encoding}
    (hn : tags'.names = name' :: tags.names) (hi : tags'.ids = id' :: tags.ids)
    (hgen : generateTagEncoding tags' = .cons id' name' e (generateTagEncoding tags))
    (h : TagOf tags name id) : TagOf tags' name id where
  name_mem := hn ▸ List.mem_cons_of_mem _ h.name_mem
  id_mem := hi ▸ List.mem_cons_of_mem _ h.id_mem
  idOfVariant := by rw [hgen, TagMap.idOfVariant, h.idOfVariant]

/-- The first variant has its own tag, as no later one has its name. -/
theorem TagOf.head {tags tags' : Tags} {name : String} {id : Nat} {e : Encoding}
    (hn : tags'.names = name :: tags.names) (hi : tags'.ids = id :: tags.ids)
    (hgen : generateTagEncoding tags' = .cons id name e (generateTagEncoding tags))
    (h : name ∉ tags.names) : TagOf tags' name id where
  name_mem := hn ▸ List.mem_cons_self
  id_mem := hi ▸ List.mem_cons_self
  idOfVariant := by
    rw [hgen, TagMap.idOfVariant, idOfVariant_eq_none h]
    exact if_pos rfl

/-- Another tag in front does not change what is written under an id behind it. -/
theorem bodyTag_of_cons {tags : Tags} {id id' : Nat} {name : String} {e : Encoding} {w : Value}
    {r : Except BinaryWriterError Bytes} (hid : id' ∉ tags.ids) (hmem : id ∈ tags.ids)
    (h : bodyTag (.cons id' name e (generateTagEncoding tags)) id w = some r) :
    bodyTag (generateTagEncoding tags) id w = some r := by
  rw [bodyTag] at h
  cases hr : bodyTag (generateTagEncoding tags) id w with
  | some r' => rwa [hr] at h
  | none =>
      have hne : id' ≠ id := fun h => hid (h ▸ hmem)
      simp [hr, hne] at h

/-- A variant is serialized as its name alone, or with the value of its field. -/
theorem serializeTags_cases : ∀ {tags : Tags} {v : tags.Val} {index : Nat} {value : Value},
    tags.names.Nodup → tags.ids.Nodup → serializeTags tags index v = .ok value →
    ∃ name id, TagOf tags name id ∧
      ((∃ i, value = .enum (some name) i ∧ TagEncodes tags v id []) ∨
        ∃ w, value = .tag name w ∧
          ∀ b, bodyTag (generateTagEncoding tags) id w = some (.ok b) → TagEncodes tags v id b)
  | .unit id name rest, .inl (), index, value, hn, hi, h => by
      rw [Tags.names, List.nodup_cons] at hn
      cases h
      exact ⟨name, id, .head rfl rfl rfl hn.1, .inl ⟨_, rfl, rfl, rfl⟩⟩
  | .unit id name rest, .inr v, index, value, hn, hi, h => by
      rw [Tags.names, List.nodup_cons] at hn
      rw [Tags.ids, List.nodup_cons] at hi
      obtain ⟨name', id', htag, hval⟩ := serializeTags_cases (v := v) hn.2 hi.2 h
      refine ⟨name', id', htag.cons rfl rfl rfl, hval.imp_right ?_⟩
      rintro ⟨w, rfl, hw⟩
      exact ⟨w, rfl, fun b hb => hw b (bodyTag_of_cons hi.1 htag.id_mem hb)⟩
  | .newtype id name encoding rest, .inl v, index, value, hn, hi, h => by
      rw [Tags.names, List.nodup_cons] at hn
      rw [Tags.ids, List.nodup_cons] at hi
      obtain ⟨w, hv, rfl⟩ := map_eq_ok (x := serialize encoding v) h
      refine ⟨name, id, .head rfl rfl rfl hn.1, .inr ⟨w, rfl, fun b hb => ⟨rfl, w, hv, ?_⟩⟩⟩
      rw [generateTagEncoding, bodyTag, bodyTag_eq_none hi.1] at hb
      simpa using hb
  | .newtype id name encoding rest, .inr v, index, value, hn, hi, h => by
      rw [Tags.names, List.nodup_cons] at hn
      rw [Tags.ids, List.nodup_cons] at hi
      obtain ⟨name', id', htag, hval⟩ := serializeTags_cases (v := v) hn.2 hi.2 h
      refine ⟨name', id', htag.cons rfl rfl rfl, hval.imp_right ?_⟩
      rintro ⟨w, rfl, hw⟩
      exact ⟨w, rfl, fun b hb => hw b (bodyTag_of_cons hi.1 htag.id_mem hb)⟩

/-- Only under a tag of the schema. -/
theorem tagEncodes_mem : ∀ {tags : Tags} {v : tags.Val} {id : Nat} {b : Bytes},
    TagEncodes tags v id b → id ∈ tags.ids
  | .unit _ _ rest, .inl (), _, _, ⟨hid, _⟩ => by
      rw [hid]
      exact List.mem_cons_self
  | .unit _ _ rest, .inr v, _, _, h => List.mem_cons_of_mem _ (tagEncodes_mem (v := v) h)
  | .newtype _ _ _ rest, .inl v, _, _, ⟨hid, _⟩ => by
      rw [hid]
      exact List.mem_cons_self
  | .newtype _ _ _ rest, .inr v, _, _, h => List.mem_cons_of_mem _ (tagEncodes_mem (v := v) h)

/-- A tag id, and what is written under it. -/
theorem encodes_enum {name : String} {tagType : TagType} {ignoreUnknown : Bool} {tags : Tags}
    {v : tags.Val} {b : Bytes} (hn : tags.names.Nodup) (hi : tags.ids.Nodup)
    (h : Encodes (.enum name tagType ignoreUnknown tags) v b) :
    ∃ id b', id ∈ tags.ids ∧ b = toBe tagType.size id ++ b' ∧ TagEncodes tags v id b' := by
  obtain ⟨value, hv, hb⟩ := h
  obtain ⟨variant, id, htag, ⟨i, rfl, henc⟩ | ⟨w, rfl, henc⟩⟩ := serializeTags_cases hn hi hv
  · obtain ⟨e, he⟩ := findById_of_mem htag.id_mem
    simp only [generateEncoding, body, TagMap.findByVariant, htag.idOfVariant, Option.bind_some,
      he] at hb
    have hid := (ite_eq_ok hb).2
    exact ⟨id, [], htag.id_mem, by simpa using (Except.ok.inj hid).symm, henc⟩
  · simp only [generateEncoding, body, htag.idOfVariant] at hb
    obtain ⟨t, ht, hb⟩ := bind_eq_ok hb
    cases (ite_eq_ok ht).2
    split at hb
    next => cases hb
    next r hr =>
      obtain ⟨b', rfl, rfl⟩ := map_eq_ok hb
      exact ⟨id, b', htag.id_mem, rfl, henc b' hr⟩

/-! ## The other constructors -/

/-- Elements stand one after the other, with nothing between them. -/
theorem encodes_elements {s : Schema} : ∀ {vs : List s.Val} {values : List Value} {b : Bytes},
    vs.mapM (serialize s) = .ok values → bodyElements (body (generateEncoding s)) values = .ok b →
    values.length = vs.length ∧
      ∃ bs : List Bytes, b = bs.flatten ∧ List.Forall₂ (Encodes s) vs bs
  | [], _, _, hs, hb => by
      cases hs
      cases hb
      exact ⟨rfl, [], rfl, .nil⟩
  | v :: vs, _, _, hs, hb => by
      obtain ⟨value, values, hv, hvs, rfl⟩ := mapM_cons_eq_ok hs
      rw [bodyElements] at hb
      cases hbv : body (generateEncoding s) value with
      | error e => simp [hbv] at hb
      | ok b₁ =>
          rw [hbv] at hb
          obtain ⟨b₂, hrest, rfl⟩ := map_eq_ok hb
          obtain ⟨hlen, bs, rfl, hall⟩ := encodes_elements hvs hrest
          exact ⟨by simp [hlen], b₁ :: bs, rfl, .cons ⟨value, hv, hbv⟩ hall⟩

/-- A bounded list is not longer than its bound. -/
theorem encodes_list {s : Schema} {max : Option Nat} {vs : List s.Val} {b : Bytes}
    (h : Encodes (.list max s) vs b) :
    (∀ m, max = some m → vs.length ≤ m) ∧
      ∃ bs : List Bytes, b = bs.flatten ∧ List.Forall₂ (Encodes s) vs bs := by
  obtain ⟨value, hv, hb⟩ := h
  obtain ⟨values, hvs, rfl⟩ := map_eq_ok (x := vs.mapM (serialize s)) hv
  cases max with
  | none => exact ⟨nofun, (encodes_elements hvs hb).2⟩
  | some m =>
      simp only [generateEncoding, body] at hb
      split at hb
      next => cases hb
      next hle =>
        obtain ⟨hlen, hbs⟩ := encodes_elements hvs hb
        exact ⟨fun m' hm => by cases hm; omega, hbs⟩

/-- A string stands behind the number of its bytes. -/
theorem encodes_string {max : Option Nat} {v : String} {b : Bytes}
    (h : Encodes (.string max) v b) :
    (∀ m, max = some m → (utf8 v).length ≤ m) ∧ b = toBe 4 (utf8 v).length ++ utf8 v := by
  obtain ⟨value, hv, hb⟩ := h
  cases hv
  have hbody : bodyString v = .ok b → b = toBe 4 (utf8 v).length ++ utf8 v :=
    fun hb => (Except.ok.inj (ite_eq_ok hb).2).symm
  cases max with
  | none => exact ⟨nofun, hbody hb⟩
  | some m =>
      simp only [generateEncoding, body] at hb
      split at hb
      next => cases hb
      next hle => exact ⟨fun m' hm => by cases hm; omega, hbody hb⟩

theorem encodes_bytes {v b : Bytes} (h : Encodes .bytes v b) : b = v := by
  obtain ⟨value, hv, hb⟩ := h
  cases hv
  rw [generateEncoding, bytesValue, body, listToU8s_bytesValue] at hb
  exact (Except.ok.inj hb).symm

/-- Only hashes of the size of their kind are written. -/
theorem encodes_hash {t : HashType} {v b : Bytes} (h : Encodes (.hash t) v b) :
    b = v ∧ v.length = t.size := by
  obtain ⟨value, hv, hb⟩ := h
  cases hv
  rw [generateEncoding, bytesValue, body, listToU8s_bytesValue] at hb
  obtain ⟨hlen, hb⟩ := ite_eq_ok hb
  exact ⟨(Except.ok.inj hb).symm, hlen⟩

/-- The sides of a path are written last. -/
theorem encodes_path {items : List PathItem} {b : Bytes} (h : Encodes .path items b) :
    (∀ max, MAX_PASS_MERKLE_DEPTH = some max → items.length ≤ max) ∧
      b = bodyPath (items.map PathItem.parts) := by
  obtain ⟨value, hv, hb⟩ := h
  change pathToValue MAX_PASS_MERKLE_DEPTH items = .ok value at hv
  simp only [pathToValue, MAX_PASS_MERKLE_DEPTH] at hv
  split at hv
  next => cases hv
  next hle =>
    cases hv
    rw [generateEncoding, body_path] at hb
    exact ⟨fun max hmax => by cases hmax; omega, (Except.ok.inj hb).symm⟩

/-- One byte tells whether there is a value. -/
theorem encodes_optionField {s : Schema} {v : Option s.Val} {b : Bytes}
    (h : Encodes (.optionField s) v b) :
    (v = none ∧ b = [BYTE_FIELD_NONE]) ∨
      ∃ x b', v = some x ∧ b = BYTE_FIELD_SOME :: b' ∧ Encodes s x b' := by
  obtain ⟨value, hv, hb⟩ := h
  cases v with
  | none =>
      cases hv
      exact .inl ⟨rfl, (Except.ok.inj hb).symm⟩
  | some x =>
      obtain ⟨w, hx, rfl⟩ := map_eq_ok (x := serialize s x) hv
      rw [generateEncoding, body] at hb
      obtain ⟨b', hw, hb⟩ := bind_eq_ok hb
      exact .inr ⟨x, b', rfl, (Except.ok.inj (ite_eq_ok hb).2).symm, w, hx, hw⟩

theorem encodes_sized {s : Schema} {size : Nat} {v : s.Val} {b : Bytes}
    (h : Encodes (.sized size s) v b) : Encodes s v b ∧ b.length = size := by
  obtain ⟨value, hv, hb⟩ := h
  rw [generateEncoding, body] at hb
  obtain ⟨b', hw, hb⟩ := bind_eq_ok hb
  obtain ⟨hsize, hb⟩ := ite_eq_ok hb
  cases hb
  exact ⟨⟨value, hv, hw⟩, hsize⟩

theorem encodes_bounded {s : Schema} {max : Nat} {v : s.Val} {b : Bytes}
    (h : Encodes (.bounded max s) v b) : Encodes s v b ∧ b.length ≤ max := by
  obtain ⟨value, hv, hb⟩ := h
  rw [generateEncoding, body] at hb
  obtain ⟨b', hw, hb⟩ := bind_eq_ok hb
  obtain ⟨hmax, hb⟩ := ite_eq_ok hb
  cases hb
  exact ⟨⟨value, hv, hw⟩, hmax⟩

/-- A block stands behind the number of its bytes. -/
theorem encodes_dynamic {s : Schema} {max : Option Nat} {v : s.Val} {b : Bytes}
    (h : Encodes (.dynamic max s) v b) :
    ∃ b', b = toBe 4 b'.length ++ b' ∧ b'.length < 2 ^ 32 ∧ Encodes s v b' ∧
      ∀ m, max = some m → b'.length ≤ m := by
  obtain ⟨value, hv, hb⟩ := h
  cases max with
  | none =>
      rw [generateEncoding, body] at hb
      obtain ⟨b', hw, hb⟩ := bind_eq_ok hb
      obtain ⟨hlt, hb⟩ := ite_eq_ok hb
      exact ⟨b', (Except.ok.inj hb).symm, hlt, ⟨value, hv, hw⟩, nofun⟩
  | some m =>
      rw [generateEncoding, body] at hb
      obtain ⟨b', hw, hb⟩ := bind_eq_ok hb
      split at hb
      next => cases hb
      next hle =>
        obtain ⟨hlt, hb⟩ := ite_eq_ok hb
        exact ⟨b', (Except.ok.inj hb).symm, hlt, ⟨value, hv, hw⟩, fun m' hm => by cases hm; omega⟩

/-! ## Deciding well-formedness -/

mutual

/-- Every value of the schema is written with at least one byte. -/
def Schema.writes : Schema → Bool
  | .bytes | .list _ _ => false
  | .struct _ fields => fields.writes
  | .sized _ inner => inner.writes
  | .bounded _ inner => inner.writes
  | _ => true

@[inherit_doc Schema.writes]
def Fields.writes : Fields → Bool
  | .nil => false
  | .cons _ encoding rest => encoding.writes || rest.writes

end

mutual

/-- The schema is well-formed, with list elements that obviously have bytes. -/
def Schema.check : Schema → Bool
  | .primitive p => p ≠ .float
  | .bytes | .hash _ | .path | .string _ => true
  | .struct _ fields => decide fields.names.Nodup && fields.check
  | .enum _ tagType _ tags =>
      decide tags.names.Nodup && decide tags.ids.Nodup &&
        decide (∀ id ∈ tags.ids, id < tagType.bound) && tags.check
  | .optionField inner => inner.check
  | .list _ inner => inner.check && !inner.greedy && inner.writes
  | .sized _ inner => inner.check
  | .bounded _ inner => inner.check
  | .dynamic _ inner => inner.check

@[inherit_doc Schema.check]
def Fields.check : Fields → Bool
  | .nil => true
  | .cons _ encoding .nil => encoding.check
  | .cons _ encoding rest => encoding.check && !encoding.greedy && rest.check

@[inherit_doc Schema.check]
def Tags.check : Tags → Bool
  | .nil => true
  | .unit _ _ rest => rest.check
  | .newtype _ _ encoding rest => encoding.check && rest.check

end

/-- A number takes at least one byte. -/
theorem primitive_writes {p : PrimitiveEncoding} {v : p.Val} {b : Bytes}
    (h : Encodes (.primitive p) v b) : b ≠ [] := by
  obtain ⟨value, hv, hb⟩ := h
  cases hv
  rintro rfl
  cases p with
  | int31 =>
      simp only [generateEncoding, PrimitiveEncoding.toValue, PrimitiveEncoding.encoding, body] at hb
      split at hb <;> cases hb
  | uint32 =>
      simp only [generateEncoding, PrimitiveEncoding.toValue, PrimitiveEncoding.encoding] at hb
      split at hb
      · cases (ite_eq_ok hb).2
      · cases hb
  | _ => cases hb

theorem toBe_append_ne_nil {w : Nat} (hw : 0 < w) (n : Nat) (b : Bytes) : toBe w n ++ b ≠ [] := by
  intro h
  have hlen := congrArg List.length h
  rw [List.length_append, toBe_length, List.length_nil] at hlen
  omega

mutual

/-- By the structure of the schema; a record has bytes as soon as one of its fields has. -/
theorem writes_ne_nil : (s : Schema) → s.Wf → s.writes = true → {v : s.Val} → {b : Bytes} →
    Encodes s v b → b ≠ []
  | .primitive _, _, _, _, _, h => primitive_writes h
  | .hash t, _, _, v, b, h => by
      obtain ⟨rfl, hlen⟩ := encodes_hash h
      rintro rfl
      exact absurd hlen t.size_pos.ne
  | .path, _, _, _, _, h => by
      rw [(encodes_path h).2, bodyPath]
      simp
  | .string _, _, _, _, _, h => by
      rw [(encodes_string h).2]
      exact toBe_append_ne_nil (by decide) _ _
  | .struct _ fields, hwf, hw, _, _, h =>
      fieldsWrites_ne_nil fields hwf.2 hw (encodes_struct hwf.1 h)
  | .enum _ tagType _ _, hwf, _, _, _, h => by
      obtain ⟨id, b', _, rfl, _⟩ := encodes_enum hwf.1 hwf.2.1 h
      exact toBe_append_ne_nil (by cases tagType <;> decide) _ _
  | .optionField _, _, _, _, _, h => by
      rcases encodes_optionField h with ⟨_, rfl⟩ | ⟨_, _, _, rfl, _⟩ <;> exact List.cons_ne_nil _ _
  | .sized _ inner, hwf, hw, _, _, h => writes_ne_nil inner hwf hw (encodes_sized h).1
  | .bounded _ inner, hwf, hw, _, _, h => writes_ne_nil inner hwf hw (encodes_bounded h).1
  | .dynamic _ _, _, _, _, _, h => by
      obtain ⟨b', rfl, _⟩ := encodes_dynamic h
      exact toBe_append_ne_nil (by decide) _ _

theorem fieldsWrites_ne_nil : (fields : Fields) → fields.Wf → fields.writes = true →
    {v : fields.Val} → {b : Bytes} → FieldsEncode fields v b → b ≠ []
  | .cons _ encoding rest, hwf, hw, (_, _), _, ⟨b₁, b₂, hb, henc, hencs⟩ => by
      obtain ⟨hwf₁, hwf₂⟩ := Fields.Wf.cons hwf
      rw [hb, Ne, List.append_eq_nil_iff, not_and_or]
      rw [Fields.writes, Bool.or_eq_true] at hw
      rcases hw with hw | hw
      · exact .inl (writes_ne_nil encoding hwf₁ hw henc)
      · exact .inr (fieldsWrites_ne_nil rest hwf₂ hw hencs)

end

mutual

/-- What is checked is enough for the schema to be well-formed. -/
theorem Schema.wf_of_check : (s : Schema) → s.check = true → s.Wf
  | .primitive p, h => by
      rw [Schema.check, decide_eq_true_iff] at h
      exact h
  | .bytes, _ | .hash _, _ | .path, _ | .string _, _ => trivial
  | .struct _ fields, h => by
      rw [Schema.check, Bool.and_eq_true, decide_eq_true_iff] at h
      exact ⟨h.1, fields.wf_of_check h.2⟩
  | .enum _ _ _ tags, h => by
      simp only [Schema.check, Bool.and_eq_true, decide_eq_true_iff] at h
      exact ⟨h.1.1.1, h.1.1.2, h.1.2, tags.wf_of_check h.2⟩
  | .optionField inner, h => inner.wf_of_check h
  | .list _ inner, h => by
      simp only [Schema.check, Bool.and_eq_true, Bool.not_eq_true'] at h
      have hwf := inner.wf_of_check h.1.1
      exact ⟨hwf, h.1.2, fun _ _ => writes_ne_nil inner hwf h.2⟩
  | .sized _ inner, h => inner.wf_of_check h
  | .bounded _ inner, h => inner.wf_of_check h
  | .dynamic _ inner, h => inner.wf_of_check h

theorem Fields.wf_of_check : (fields : Fields) → fields.check = true → fields.Wf
  | .nil, _ => trivial
  | .cons _ encoding .nil, h => encoding.wf_of_check h
  | .cons _ encoding (.cons name encoding' rest), h => by
      simp only [Fields.check, Bool.and_eq_true, Bool.not_eq_true'] at h
      exact ⟨encoding.wf_of_check h.1.1, h.1.2, Fields.wf_of_check (.cons name encoding' rest) h.2⟩

theorem Tags.wf_of_check : (tags : Tags) → tags.check = true → tags.Wf
  | .nil, _ => trivial
  | .unit _ _ rest, h => rest.wf_of_check h
  | .newtype _ _ encoding rest, h => by
      rw [Tags.check, Bool.and_eq_true] at h
      exact ⟨encoding.wf_of_check h.1, rest.wf_of_check h.2⟩

end

end NodeFuzzer
