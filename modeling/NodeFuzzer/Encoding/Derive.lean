import NodeFuzzer.Encoding.Path

/-!
# Derived codecs

The derive macros turn the declaration of a type into two things that never
meet: an `Encoding` for the writer (`enc.rs`) and a parser (`nom.rs`).  A
`Schema` is what the macros see of the declaration (`encoding-derive`'s
`Encoding`, with the paths to other derived types replaced by their schemas),
`Schema.Val` is the Rust type, `serialize` its derived `Serialize` with the
serializer of `ser.rs`, and `generateEncoding` and `generateNomRead` are the two
macros.
-/

namespace NodeFuzzer

/-! ## Schemas -/

/-- `PrimitiveEncoding`. -/
inductive PrimitiveEncoding where
  | int8 | uint8 | int16 | uint16 | int31 | int32 | uint32 | int64 | float | bool | timestamp
deriving DecidableEq, Repr

/-- The integer types an enumeration can have its tags in. -/
inductive TagType where
  | u8 | u16 | u32 | u64 | u128 | i16 | i32 | i64 | i128
deriving DecidableEq, Repr

/-- `std::mem::size_of` of a tag type. -/
def TagType.size : TagType → Nat
  | .u8 => 1
  | .u16 | .i16 => 2
  | .u32 | .i32 => 4
  | .u64 | .i64 => 8
  | .u128 | .i128 => 16

/-- The number of tag ids that are literals of the type. -/
def TagType.bound : TagType → Nat
  | .i16 => 2 ^ 15
  | .i32 => 2 ^ 31
  | .i64 => 2 ^ 63
  | .i128 => 2 ^ 127
  | t => 256 ^ t.size

mutual

/-- The description of a type the derive macros work on.  The constructors `hash`
and `path` stand for paths to the types with a hand-written codec. -/
inductive Schema where
  | primitive (primitive : PrimitiveEncoding)
  | bytes
  | hash (hashType : HashType)
  | path
  | string (max : Option Nat)
  | struct (name : String) (fields : Fields)
  | enum (name : String) (tagType : TagType) (ignoreUnknown : Bool) (tags : Tags)
  | optionField (inner : Schema)
  | list (max : Option Nat) (inner : Schema)
  | sized (size : Nat) (inner : Schema)
  | bounded (max : Nat) (inner : Schema)
  | dynamic (max : Option Nat) (inner : Schema)

/-- The fields of a structure. -/
inductive Fields where
  | nil
  | cons (name : String) (encoding : Schema) (rest : Fields)

/-- The variants of an enumeration: with no field, or with one. -/
inductive Tags where
  | nil
  | unit (id : Nat) (name : String) (rest : Tags)
  | newtype (id : Nat) (name : String) (encoding : Schema) (rest : Tags)

end

/-- The number of fields. -/
def Fields.len : Fields → Nat
  | .nil => 0
  | .cons _ _ rest => rest.len + 1

/-- The names of the fields. -/
def Fields.names : Fields → List String
  | .nil => []
  | .cons name _ rest => name :: rest.names

/-- The names of the variants. -/
def Tags.names : Tags → List String
  | .nil => []
  | .unit _ name rest => name :: rest.names
  | .newtype _ name _ rest => name :: rest.names

/-- The ids of the variants. -/
def Tags.ids : Tags → List Nat
  | .nil => []
  | .unit id _ rest => id :: rest.ids
  | .newtype id _ _ rest => id :: rest.ids

/-! ## Values -/

/-- The Rust type of a primitive; a float is its bits. -/
def PrimitiveEncoding.Val : PrimitiveEncoding → Type
  | .int8 => Int8
  | .uint8 => UInt8
  | .int16 => Int16
  | .uint16 => UInt16
  | .int31 | .int32 => Int32
  | .uint32 => UInt32
  | .int64 | .timestamp => Int64
  | .float => UInt64
  | .bool => Bool

mutual

/-- The Rust type a schema describes. -/
def Schema.Val : Schema → Type
  | .primitive p => p.Val
  | .bytes => Bytes
  | .hash _ => Bytes
  | .path => List PathItem
  | .string _ => String
  | .struct _ fields => fields.Val
  | .enum _ _ _ tags => tags.Val
  | .optionField inner => Option inner.Val
  | .list _ inner => List inner.Val
  | .sized _ inner => inner.Val
  | .bounded _ inner => inner.Val
  | .dynamic _ inner => inner.Val

/-- The values of the fields. -/
def Fields.Val : Fields → Type
  | .nil => Unit
  | .cons _ encoding rest => encoding.Val × rest.Val

/-- A variant with its value. -/
def Tags.Val : Tags → Type
  | .nil => Empty
  | .unit _ _ rest => Unit ⊕ rest.Val
  | .newtype _ _ encoding rest => encoding.Val ⊕ rest.Val

end

/-! ## The serializer -/

/-- What the serializer makes of a primitive. -/
def PrimitiveEncoding.toValue : (p : PrimitiveEncoding) → p.Val → Value
  | .int8, v => .int8 v
  | .uint8, v => .uint8 v
  | .int16, v => .int16 v
  | .uint16, v => .uint16 v
  | .int31, v => .int32 v
  | .int32, v => .int32 v
  | .uint32, (v : UInt32) =>
      if v.toNat ≤ 2 ^ 31 - 1 then .int32 ⟨v⟩ else .int64 ⟨UInt64.ofNat v.toNat⟩
  | .int64, v => .int64 v
  | .float, v => .float v
  | .bool, v => .bool v
  | .timestamp, v => .int64 v

mutual

/-- The derived `Serialize` of the type of a schema. -/
def serialize : (s : Schema) → s.Val → Except SerError Value
  | .primitive p, v => .ok (p.toValue v)
  | .bytes, v => .ok (bytesValue v)
  | .hash _, v => .ok (bytesValue v)
  | .path, v => pathToValue MAX_PASS_MERKLE_DEPTH v
  | .string _, v => .ok (.string v)
  | .struct _ fields, v => (serializeFields fields v).map .record
  | .enum _ _ _ tags, v => serializeTags tags 0 v
  | .optionField inner, v =>
      match (v : Option inner.Val) with
      | none => .ok (.option none)
      | some v => (serialize inner v).map fun v => .option (some v)
  | .list _ inner, v => ((v : List inner.Val).mapM (serialize inner)).map .list
  | .sized _ inner, v => serialize inner v
  | .bounded _ inner, v => serialize inner v
  | .dynamic _ inner, v => serialize inner v

/-- The fields of a structure, by name. -/
def serializeFields : (fields : Fields) → fields.Val → Except SerError (List (String × Value))
  | .nil, _ => .ok []
  | .cons name encoding rest, v => do
      let value ← serialize encoding (v : encoding.Val × rest.Val).1
      let values ← serializeFields rest (v : encoding.Val × rest.Val).2
      return (name, value) :: values

/-- A variant, whose index in the declaration counts from `index`. -/
def serializeTags : (tags : Tags) → Nat → tags.Val → Except SerError Value
  | .nil, _, v => (v : Empty).elim
  | .unit _ name rest, index, v =>
      match (v : Unit ⊕ rest.Val) with
      | .inl _ => .ok (.enum (some name) (some index))
      | .inr v => serializeTags rest (index + 1) v
  | .newtype _ name encoding rest, index, v =>
      match (v : encoding.Val ⊕ rest.Val) with
      | .inl v => (serialize encoding v).map (.tag name)
      | .inr v => serializeTags rest (index + 1) v

end

/-! ## The encoding macro -/

/-- `generage_primitive_encoding`. -/
def PrimitiveEncoding.encoding : PrimitiveEncoding → Encoding
  | .int8 => .int8
  | .uint8 => .uint8
  | .int16 => .int16
  | .uint16 => .uint16
  | .int31 => .int31
  | .int32 => .int32
  | .uint32 => .uint32
  | .int64 => .int64
  | .float => .float
  | .bool => .bool
  | .timestamp => .timestamp

mutual

/-- `generate_encoding`. -/
@[simp] def generateEncoding : Schema → Encoding
  | .primitive p => p.encoding
  | .bytes => .bytes
  | .hash t => .hash t
  | .path => .custom
  | .string none => .string
  | .string (some max) => .boundedString max
  | .struct name fields => .obj name (generateFieldEncoding fields)
  | .enum _ tagType _ tags => .tags tagType.size (generateTagEncoding tags)
  | .optionField inner => .optionalField (generateEncoding inner)
  | .list none inner => .list (generateEncoding inner)
  | .list (some max) inner => .boundedList max (generateEncoding inner)
  | .sized size inner => .sized size (generateEncoding inner)
  | .bounded max inner => .bounded max (generateEncoding inner)
  | .dynamic none inner => .dynamic (generateEncoding inner)
  | .dynamic (some max) inner => .boundedDynamic max (generateEncoding inner)

/-- `generate_field_encoding`. -/
def generateFieldEncoding : Fields → FieldList
  | .nil => .nil
  | .cons name encoding rest => .cons name (generateEncoding encoding) (generateFieldEncoding rest)

/-- `generate_tag_encoding`. -/
def generateTagEncoding : Tags → TagMap
  | .nil => .nil
  | .unit id name rest => .cons id name .unit (generateTagEncoding rest)
  | .newtype id name encoding rest =>
      .cons id name (generateEncoding encoding) (generateTagEncoding rest)

end

/-! ## The parser macro -/

open Nom

/-- `generage_primitive_nom_read`. -/
def PrimitiveEncoding.nomRead : (p : PrimitiveEncoding) → Reader p.Val
  | .int8 => map (beNumber 1) fun n => (⟨UInt8.ofNat n⟩ : Int8)
  | .uint8 => map (beNumber 1) UInt8.ofNat
  | .int16 => map (beNumber 2) fun n => (⟨UInt16.ofNat n⟩ : Int16)
  | .uint16 => map (beNumber 2) UInt16.ofNat
  | .int31 | .int32 => map (beNumber 4) fun n => (⟨UInt32.ofNat n⟩ : Int32)
  | .uint32 => map (beNumber 4) UInt32.ofNat
  | .int64 | .timestamp => map (beNumber 8) fun n => (⟨UInt64.ofNat n⟩ : Int64)
  | .float => map (beNumber 8) UInt64.ofNat
  | .bool => boolean

/-- `format!("0x{:.2X}", tag)`. -/
def tagText (tag : Nat) : String :=
  "0x" ++ String.ofList ((Nat.toDigits 16 tag).map Char.toUpper)

/-- The error of a tag that no variant has. -/
def unknownTagError (ignoreUnknown : Bool) (input : Bytes) (tag : Nat) : DecodeError :=
  .mk input (if ignoreUnknown then .unknownTag (tagText tag) else .invalidTag (tagText tag)) none

mutual

/-- `generate_nom_read`. -/
def generateNomRead : (s : Schema) → Reader s.Val
  | .primitive p => p.nomRead
  | .bytes => bytes
  | .hash t => take t.size
  | .path => path MAX_PASS_MERKLE_DEPTH
  | .string none => string
  | .string (some max) => boundedString max
  | .struct name fields =>
      -- A single field is named alone, several with the name of the structure.
      if fields.len = 1 then generateFieldsNomRead id fields
      else generateFieldsNomRead (fun field => name ++ "::" ++ field) fields
  | .enum name tagType ignoreUnknown tags => fun input =>
      (beNumber tagType.size input).andThen fun rest tag =>
        generateTagNomRead name ignoreUnknown tag tags rest
  | .optionField inner => optionalField (generateNomRead inner)
  | .list none inner => list (generateNomRead inner)
  | .list (some max) inner => boundedList max (generateNomRead inner)
  | .sized size inner => Nom.sized size (generateNomRead inner)
  | .bounded max inner => Nom.bounded max (generateNomRead inner)
  | .dynamic none inner => dynamic (generateNomRead inner)
  | .dynamic (some max) inner => boundedDynamic max (generateNomRead inner)

/-- The parsers of the fields, one after the other. -/
def generateFieldsNomRead (label : String → String) : (fields : Fields) → Reader fields.Val
  | .nil => success ()
  | .cons name encoding rest => fun input =>
      (field (label name) (generateNomRead encoding) input).andThen fun input v =>
        (generateFieldsNomRead label rest input).andThen fun input vs => .done input (v, vs)

/-- `generate_tag_nom_read`, for the variant that has the tag. -/
def generateTagNomRead (enumName : String) (ignoreUnknown : Bool) (tag : Nat) :
    (tags : Tags) → Reader tags.Val
  | .nil => fun input => .failure (unknownTagError ignoreUnknown input tag)
  | .unit id _ rest => fun input =>
      if tag = id then .done input (.inl ())
      else (generateTagNomRead enumName ignoreUnknown tag rest input).andThen fun input v =>
        .done input (.inr v)
  | .newtype id name encoding rest => fun input =>
      if tag = id then
        (variant (enumName ++ "::" ++ name) (generateNomRead encoding) input).andThen
          fun input v => .done input (.inl v)
      else (generateTagNomRead enumName ignoreUnknown tag rest input).andThen fun input v =>
        .done input (.inr v)

end

end NodeFuzzer
