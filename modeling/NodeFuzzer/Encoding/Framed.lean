import NodeFuzzer.Encoding.Buffer
import NodeFuzzer.Encoding.WellFormed

/-!
# Blocks and their sizes

`Framed e v b` says where the blocks with a size stand in the bytes of a value, and
that each size is the length of its block.  It holds of everything the writer
appends, so that the count the writer returns, which is computed in three ways
(added up, measured on the buffer, or constant), is the right one to patch into
the size of every enclosing block.
-/

namespace NodeFuzzer

mutual

/-- The blocks of a value stand behind their size, which is within the bound of the
block. -/
def Framed : Encoding → Value → Bytes → Prop
  | .dynamic inner, v, b => ∃ content, b = toBe 4 content.length ++ content ∧
      content.length < 2 ^ 32 ∧ Framed inner v content
  | .boundedDynamic max inner, v, b => ∃ content, b = toBe 4 content.length ++ content ∧
      content.length < 2 ^ 32 ∧ content.length ≤ max ∧ Framed inner v content
  | .list inner, .list values, b => ∃ bs, b = bs.flatten ∧ List.Forall₂ (Framed inner) values bs
  | .boundedList _ inner, .list values, b =>
      ∃ bs, b = bs.flatten ∧ List.Forall₂ (Framed inner) values bs
  | .option inner, .option (some v), b => ∃ b', b = BYTE_VAL_SOME :: b' ∧ Framed inner v b'
  | .optionalField inner, .option (some v), b =>
      ∃ b', b = BYTE_FIELD_SOME :: b' ∧ Framed inner v b'
  | .sized _ inner, v, b | .bounded _ inner, v, b | .greedy inner, v, b => Framed inner v b
  | .tags tagSize tagMap, .tag variant v, b => ∃ id b', tagMap.idOfVariant variant = some id ∧
      b = toBe tagSize id ++ b' ∧ FramedTag tagMap id v b'
  | .obj _ schema, .record values, b => FramedFields schema values b
  | .tup encodings, .tuple values, b => FramedItems encodings values b
  -- The other encodings have no blocks inside.
  | _, _, _ => True

@[inherit_doc Framed]
def FramedFields : FieldList → List (String × Value) → Bytes → Prop
  | .nil, _, b => b = []
  | .cons name encoding rest, values, b => ∃ value b₁ b₂,
      findValueInRecordValues name values = some value ∧ b = b₁ ++ b₂ ∧ Framed encoding value b₁ ∧
        FramedFields rest values b₂

@[inherit_doc Framed]
def FramedItems : EncodingList → List Value → Bytes → Prop
  | .nil, _, b => b = []
  | .cons _ _, [], _ => False
  | .cons encoding rest, value :: values, b => ∃ b₁ b₂, b = b₁ ++ b₂ ∧ Framed encoding value b₁ ∧
      FramedItems rest values b₂

/-- The blocks of a value under the encoding of a tag, found as by
`TagMap.findById`. -/
def FramedTag : TagMap → Nat → Value → Bytes → Prop
  | .nil, _, _, _ => False
  | .cons id _ encoding rest, id', v, b =>
      if (rest.findById id').isSome then FramedTag rest id' v b
      else id = id' ∧ Framed encoding v b

end

theorem framed_elements {spec : Value → Except BinaryWriterError Bytes} {P : Value → Bytes → Prop}
    (h : ∀ v b, spec v = .ok b → P v b) : ∀ {values : List Value} {b : Bytes},
    bodyElements spec values = .ok b → ∃ bs, b = bs.flatten ∧ List.Forall₂ P values bs
  | [], _, hb => by
      cases hb
      exact ⟨[], rfl, .nil⟩
  | v :: values, b, hb => by
      rw [bodyElements] at hb
      cases hv : spec v with
      | error e => simp [hv] at hb
      | ok b₁ =>
          simp only [hv] at hb
          obtain ⟨b₂, hrest, rfl⟩ := map_eq_ok hb
          obtain ⟨bs, rfl, hall⟩ := framed_elements h hrest
          exact ⟨b₁ :: bs, rfl, .cons (h v b₁ hv) hall⟩

/-- A tag has a body when the id has an encoding. -/
theorem bodyTag_isSome_eq (id : Nat) (v : Value) : ∀ tags : TagMap,
    (bodyTag tags id v).isSome = (tags.findById id).isSome
  | .nil => rfl
  | .cons id' _ encoding rest => by
      have ih := bodyTag_isSome_eq id v rest
      rw [bodyTag, TagMap.findById]
      cases hbody : bodyTag rest id v with
      | some w =>
          have hfind : (rest.findById id).isSome := by
            rw [← ih, hbody]
            rfl
          obtain ⟨t, ht⟩ := Option.isSome_iff_exists.mp hfind
          rw [ht]
          rfl
      | none =>
          have hfind : rest.findById id = none := by
            rw [← Option.not_isSome_iff_eq_none, ← ih, hbody]
            simp
          rw [hfind]
          dsimp only
          split <;> rfl

/-- What is written behind the byte for a value. -/
theorem present_eq_ok {w : Except BinaryWriterError Bytes} {marker : UInt8} {b : Bytes}
    (h : w >>= bodyPresent marker = .ok b) : ∃ b', w = .ok b' ∧ b = marker :: b' := by
  obtain ⟨b', hb', h⟩ := bind_eq_ok h
  cases (ite_eq_ok h).2
  exact ⟨b', hb', rfl⟩

/-- What is written behind its size. -/
theorem dynamic_eq_ok {content b : Bytes} (h : bodyDynamic content = .ok b) :
    b = toBe 4 content.length ++ content ∧ content.length < 2 ^ 32 := by
  obtain ⟨hlt, h⟩ := ite_eq_ok h
  cases h
  exact ⟨rfl, hlt⟩

/-- A size that was checked. -/
theorem check_eq_ok {w : Except BinaryWriterError Bytes} {c : Nat → Prop} [DecidablePred c]
    {k : Nat → SerError} {b : Bytes}
    (h : (w >>= fun b => if c b.length then .ok b else throwKind (k b.length)) = .ok b) :
    w = .ok b := by
  obtain ⟨b', hb', h⟩ := bind_eq_ok h
  cases (ite_eq_ok h).2
  exact hb'

theorem framed_tags {tagSize : Nat} {tagMap : TagMap} {v : Value} {b : Bytes}
    (ih : ∀ {id : Nat} {v : Value} {b : Bytes}, bodyTag tagMap id v = some (.ok b) →
      FramedTag tagMap id v b) (h : body (.tags tagSize tagMap) v = .ok b) :
    Framed (.tags tagSize tagMap) v b := by
  cases v with
  | tag variant v =>
      rw [body] at h
      cases hid : tagMap.idOfVariant variant with
      | none => simp [hid, throwKind] at h
      | some id =>
          simp only [hid] at h
          obtain ⟨t, ht, h⟩ := bind_eq_ok h
          obtain ⟨_, ht⟩ := ite_eq_ok ht
          cases ht
          cases hw : bodyTag tagMap id v with
          | none => simp [hw, throwKind] at h
          | some w =>
              simp only [hw] at h
              obtain ⟨b', hb', rfl⟩ := map_eq_ok h
              subst hb'
              exact ⟨id, b', hid, rfl, ih hw⟩
  | _ => trivial

mutual

/-- The blocks in what the writer appends are framed. -/
theorem framed_body : (e : Encoding) → {v : Value} → {b : Bytes} → body e v = .ok b → Framed e v b
  | .unit, _, _, _ | .int8, _, _, _ | .uint8, _, _, _ | .int16, _, _, _ | .uint16, _, _, _
  | .int31, _, _, _ | .int32, _, _, _ | .uint32, _, _, _ | .int64, _, _, _ | .rangedInt, _, _, _
  | .z, _, _, _ | .mutez, _, _, _ | .float, _, _, _ | .rangedFloat, _, _, _ | .bool, _, _, _
  | .string, _, _, _ | .boundedString _, _, _, _ | .bytes, _, _, _ | .enum, _, _, _
  | .hash _, _, _, _ | .timestamp, _, _, _ | .custom, _, _, _ => trivial
  | .list inner, v, b, h => by
      cases v with
      | list values => exact framed_elements (fun _ _ => framed_body inner) h
      | _ => trivial
  | .boundedList max inner, v, b, h => by
      cases v with
      | list values =>
          rw [body] at h
          split at h
          · cases h
          · exact framed_elements (fun _ _ => framed_body inner) h
      | _ => trivial
  | .option inner, v, b, h => by
      cases v with
      | option v =>
          cases v with
          | none => trivial
          | some v =>
              rw [body] at h
              obtain ⟨b', hb', rfl⟩ := present_eq_ok h
              exact ⟨b', rfl, framed_body inner hb'⟩
      | _ => trivial
  | .optionalField inner, v, b, h => by
      cases v with
      | option v =>
          cases v with
          | none => trivial
          | some v =>
              rw [body] at h
              obtain ⟨b', hb', rfl⟩ := present_eq_ok h
              exact ⟨b', rfl, framed_body inner hb'⟩
      | _ => trivial
  | .dynamic inner, v, b, h => by
      rw [body] at h
      obtain ⟨content, hcontent, h⟩ := bind_eq_ok h
      obtain ⟨rfl, hlt⟩ := dynamic_eq_ok h
      exact ⟨content, rfl, hlt, framed_body inner hcontent⟩
  | .boundedDynamic max inner, v, b, h => by
      rw [body] at h
      obtain ⟨content, hcontent, h⟩ := bind_eq_ok h
      split at h
      next => cases h
      next hle =>
        obtain ⟨rfl, hlt⟩ := dynamic_eq_ok h
        exact ⟨content, rfl, hlt, Nat.le_of_not_gt hle, framed_body inner hcontent⟩
  | .sized size inner, v, b, h => by
      rw [body] at h
      exact framed_body inner (check_eq_ok (c := (· = size)) (k := (.wrongSize · size)) h)
  | .bounded max inner, v, b, h => by
      rw [body] at h
      exact framed_body inner (check_eq_ok (c := (· ≤ max)) (k := .bound max) h)
  | .greedy inner, v, b, h => framed_body inner (by rwa [body] at h)
  | .tags tagSize tagMap, v, b, h => framed_tags (framed_tag tagMap) h
  | .obj name schema, v, b, h => by
      cases v with
      | record values => exact framed_fields schema h
      | _ => trivial
  | .tup encodings, v, b, h => by
      cases v with
      | tuple values => exact framed_items encodings h
      | _ => trivial

theorem framed_fields : (fields : FieldList) → {values : List (String × Value)} → {size : Nat} →
    {b : Bytes} → bodyFields fields values size = .ok b → FramedFields fields values b
  | .nil, _, _, _, h => by
      cases h
      rfl
  | .cons name encoding rest, values, size, b, h => by
      rw [bodyFields] at h
      cases hfind : findValueInRecordValues name values with
      | none => simp [hfind, throwKind] at h
      | some value =>
          simp only [hfind] at h
          cases hvalue : body encoding value with
          | error e => simp [hvalue] at h
          | ok b₁ =>
              simp only [hvalue] at h
              obtain ⟨_, h⟩ := ite_eq_ok h
              obtain ⟨b₂, hrest, rfl⟩ := map_eq_ok h
              exact ⟨value, b₁, b₂, hfind, rfl, framed_body encoding hvalue, framed_fields rest hrest⟩

theorem framed_items : (items : EncodingList) → {values : List Value} → {size : Nat} →
    {b : Bytes} → bodyItems items values size = .ok b → FramedItems items values b
  | .nil, _, _, _, h => by
      cases h
      rfl
  | .cons _ _, [], _, _, h => by cases h
  | .cons encoding rest, value :: values, size, b, h => by
      rw [bodyItems] at h
      cases hvalue : body encoding value with
      | error e => simp [hvalue] at h
      | ok b₁ =>
          simp only [hvalue] at h
          obtain ⟨_, h⟩ := ite_eq_ok h
          obtain ⟨b₂, hrest, rfl⟩ := map_eq_ok h
          exact ⟨b₁, b₂, rfl, framed_body encoding hvalue, framed_items rest hrest⟩

theorem framed_tag : (tags : TagMap) → {id : Nat} → {v : Value} → {b : Bytes} →
    bodyTag tags id v = some (.ok b) → FramedTag tags id v b
  | .nil, _, _, _, h => nomatch h
  | .cons id' variant encoding rest, id, v, b, h => by
      have hsome := bodyTag_isSome_eq id v rest
      rw [bodyTag] at h
      rw [FramedTag, ← hsome]
      cases hrest : bodyTag rest id v with
      | some w =>
          rw [hrest] at h
          cases h
          simpa using framed_tag rest hrest
      | none =>
          simp only [hrest] at h
          split at h
          next hid =>
            exact ⟨hid, framed_body encoding (Option.some.inj h)⟩
          next => cases h

end

theorem Buffer.ends_eq_ok {α : Type} {value : Bytes → α} {w : Except BinaryWriterError Bytes} {a : α}
    {b : Bytes} (h : ends value w = .ok (a, b)) : w = .ok b ∧ a = value b := by
  cases w with
  | ok b' =>
      cases h
      exact ⟨rfl, rfl⟩
  | error e =>
      rw [ends] at h
      split at h <;> cases h

/-- The writer never changes the bytes that are in the buffer already.  When it
returns a number, it has appended that many bytes, and every block in them stands
behind its size. -/
theorem Buffer.encodeAny_accounts (e : Encoding) (v : Value) (data : Bytes) :
    data <+: (encodeAny v e data).2 ∧
      ∀ n, (encodeAny v e data).1 = .ok n → ∃ b, (encodeAny v e data).2 = data ++ b ∧
        b.length = n ∧ Framed e v b := by
  rw [encodeAny_eq_encodeValue]
  have happends := encodeValue_appends e v
  refine ⟨happends.isPrefix data, ?_⟩
  intro n hn
  obtain ⟨b, hw, hdata⟩ := happends.of_ok hn
  obtain ⟨hbody, hlen⟩ := ends_eq_ok hw
  exact ⟨b, hdata, hlen.symm, framed_body e hbody⟩

/-- A list of two strings in a bounded block. -/
theorem Buffer.encodeAny_accounts_block :
    ([7] : Bytes) <+: (encodeAny (.list [.string "a", .string ""])
        (.boundedDynamic 9 (.list .string)) [7]).2 ∧
      ∃ b, (encodeAny (.list [.string "a", .string ""])
          (.boundedDynamic 9 (.list .string)) [7]).2 = [7] ++ b ∧
        b.length = 13 ∧
        Framed (.boundedDynamic 9 (.list .string)) (.list [.string "a", .string ""]) b := by
  obtain ⟨hstart, hcount⟩ := encodeAny_accounts (.boundedDynamic 9 (.list .string))
    (.list [.string "a", .string ""]) [7]
  exact ⟨hstart, hcount 13 (by rfl)⟩

end NodeFuzzer
