import NodeFuzzer.Library.Bytes

/-!
# Intermediate values and encodings

`Value` is the schema-less form a Rust value is serialized to, and `Encoding`
the dynamic schema the binary writer interprets.  Both follow the enumerations
of `types.rs` and `encoding.rs`.  Floating point numbers are kept as their 64
bits.  The only custom codec of the repository is the one for Merkle paths, so
`Encoding.custom` takes no argument.
-/

namespace NodeFuzzer

/-! ## Strings -/

/-- The UTF-8 bytes of a string. -/
def utf8 (s : String) : Bytes := s.toByteArray.data.toList

/-- The string with the given UTF-8 bytes, if they are valid. -/
def fromUtf8 (b : Bytes) : Option String := String.fromUTF8? ⟨b.toArray⟩

@[simp] theorem fromUtf8_utf8 (s : String) : fromUtf8 (utf8 s) = some s := by
  have hb : (⟨(utf8 s).toArray⟩ : ByteArray) = s.toByteArray := by
    simp [utf8]
  rw [fromUtf8, hb, String.fromUTF8?, dif_pos s.isValidUTF8]
  rfl

theorem utf8_of_fromUtf8 {b : Bytes} {s : String} (h : fromUtf8 b = some s) : utf8 s = b := by
  rw [fromUtf8, String.fromUTF8?] at h
  split at h
  · rw [← Option.some.inj h]
    rfl
  · cases h

theorem utf8_injective : Function.Injective utf8 := by
  intro a b h
  have hsome := congrArg fromUtf8 h
  rw [fromUtf8_utf8, fromUtf8_utf8] at hsome
  exact Option.some.inj hsome

theorem utf8_append (s t : String) : utf8 (s ++ t) = utf8 s ++ utf8 t := by
  simp [utf8]

/-- A text of ASCII characters has one byte for each. -/
theorem utf8_ofList {chars : List Char} (h : ∀ c ∈ chars, c.toNat < 128) :
    utf8 (String.ofList chars) = chars.map fun c => UInt8.ofNat c.toNat := by
  have hbytes : utf8 (String.ofList chars) = chars.flatMap String.utf8EncodeChar := by
    simp [utf8, List.utf8Encode]
  rw [hbytes]
  clear hbytes
  induction chars with
  | nil => rfl
  | cons c chars ih =>
      have hsize : c.utf8Size = 1 := by
        have hc := h c (by simp)
        rw [Char.utf8Size_eq_one_iff, UInt32.le_iff_toNat_le]
        exact Nat.le_of_lt_succ hc
      rw [List.flatMap_cons, String.utf8EncodeChar_eq_singleton hsize, List.map_cons,
        ih (fun d hd => h d (by simp [hd]))]
      rfl

/-! ## Typed hashes -/

/-- The kinds of typed hashes. -/
inductive HashType where
  | chainId | blockHash | blockMetadataHash | protocolHash | contextHash | operationHash
  | operationListListHash | operationMetadataHash | operationMetadataListListHash
  | cryptoboxPublicKeyHash | contractKt1Hash | contractTz1Hash | contractTz2Hash
  | contractTz3Hash | publicKeyEd25519 | publicKeySecp256k1 | publicKeyP256
deriving DecidableEq, Repr

/-- Size of a hash in bytes. -/
def HashType.size : HashType → Nat
  | .chainId => 4
  | .blockHash | .blockMetadataHash | .contextHash | .protocolHash | .operationHash
  | .operationListListHash | .operationMetadataHash | .operationMetadataListListHash
  | .publicKeyEd25519 => 32
  | .cryptoboxPublicKeyHash => 16
  | .contractKt1Hash | .contractTz1Hash | .contractTz2Hash | .contractTz3Hash => 20
  | .publicKeySecp256k1 | .publicKeyP256 => 33

theorem HashType.size_pos (t : HashType) : 0 < t.size := by
  cases t <;> decide

/-- A hash of the source, `BlockHash` and its siblings: it is only made of bytes of the
right number. -/
def TypedHash (t : HashType) : Type := { b : Bytes // b.length = t.size }

/-- `try_from_bytes`. -/
def TypedHash.tryFromBytes (t : HashType) (b : Bytes) : Option (TypedHash t) :=
  if h : b.length = t.size then some ⟨b, h⟩ else none

/-! ## Values -/

/-- `types::Value`. -/
inductive Value where
  | unit
  | int8 (v : Int8)
  | uint8 (v : UInt8)
  | int16 (v : Int16)
  | uint16 (v : UInt16)
  | int31 (v : Int32)
  | int32 (v : Int32)
  | int64 (v : Int64)
  | rangedInt (v : Int32)
  | float (bits : UInt64)
  | rangedFloat (bits : UInt64)
  | bool (v : Bool)
  | string (v : String)
  | bytes (v : Bytes)
  | option (v : Option Value)
  | list (vs : List Value)
  | enum (name : Option String) (ordinal : Option Nat)
  | tag (variant : String) (v : Value)
  | record (fields : List (String × Value))
  | tuple (vs : List Value)

/-- Represents `true` in binary format. -/
def BYTE_VAL_TRUE : UInt8 := 0xFF
/-- Represents `false` in binary format. -/
def BYTE_VAL_FALSE : UInt8 := 0
/-- Represents `Some(x)` in binary format. -/
def BYTE_VAL_SOME : UInt8 := 1
/-- Represents `None` in binary format. -/
def BYTE_VAL_NONE : UInt8 := 0
/-- Represents a present optional field in binary format. -/
def BYTE_FIELD_SOME : UInt8 := 0xFF
/-- Represents an absent optional field in binary format. -/
def BYTE_FIELD_NONE : UInt8 := 0

/-! ## Encodings -/

mutual

/-- `encoding::Encoding`. -/
inductive Encoding where
  | unit | int8 | uint8 | int16 | uint16 | int31 | int32 | uint32 | int64
  | rangedInt | z | mutez | float | rangedFloat | bool | string
  | boundedString (max : Nat)
  | bytes
  | tags (tagSize : Nat) (tagMap : TagMap)
  | list (inner : Encoding)
  | boundedList (max : Nat) (inner : Encoding)
  | enum
  | option (inner : Encoding)
  | optionalField (inner : Encoding)
  | obj (name : String) (schema : FieldList)
  | tup (encodings : EncodingList)
  | dynamic (inner : Encoding)
  | boundedDynamic (max : Nat) (inner : Encoding)
  | sized (size : Nat) (inner : Encoding)
  | bounded (max : Nat) (inner : Encoding)
  | greedy (inner : Encoding)
  | hash (hashType : HashType)
  | timestamp
  | custom

/-- The fields of an `Encoding::Obj`, in order. -/
inductive FieldList where
  | nil
  | cons (name : String) (encoding : Encoding) (rest : FieldList)

/-- The encodings of an `Encoding::Tup`, in order. -/
inductive EncodingList where
  | nil
  | cons (encoding : Encoding) (rest : EncodingList)

/-- The tags a `TagMap` was made of, in order. -/
inductive TagMap where
  | nil
  | cons (id : Nat) (variant : String) (encoding : Encoding) (rest : TagMap)

end

/-- `id_to_tag.get(id)`: a later tag with the same id replaced an earlier one. -/
def TagMap.findById (id : Nat) : TagMap → Option (Nat × Encoding)
  | .nil => none
  | .cons id' _ e rest =>
      match rest.findById id with
      | some t => some t
      | none => if id' = id then some (id', e) else none

/-- `variant_to_id.get(variant)`. -/
def TagMap.idOfVariant (variant : String) : TagMap → Option Nat
  | .nil => none
  | .cons id variant' _ rest =>
      match rest.idOfVariant variant with
      | some i => some i
      | none => if variant' = variant then some id else none

/-- The tag of a variant, with its id. -/
def TagMap.findByVariant (variant : String) (tags : TagMap) : Option (Nat × Encoding) :=
  (tags.idOfVariant variant).bind fun id => tags.findById id

/-! ## Errors of the writer -/

/-- `ser::Error`.  The text of an error is reduced to what it depends on. -/
inductive SerError where
  | encodingMismatch
  | noValuesFound (name : String)
  | sizeOverflow
  | outsideInt31
  | outsideUint32
  | notImplemented (encoding : String)
  | enumOrdinalTooLarge (ordinal : Nat)
  | missingOrdinal
  | missingVariantName
  | notBytes
  | bound (max actual : Nat)
  | wrongSize (expected actual : Nat)
  | unsupportedTagSize (size : Nat)
  | noTagFound (variant : String)
  | emptyNumber
  | hex
  | notEnoughBits
  | u64TooLarge
  | pathTooLong (max : Nat)
  /-- Not an error of the source: the call panicked. -/
  | panicked
  /-- Not an error of the source: a number whose text starts outside ASCII is an
  error or a panic, depending on the Unicode class of that character. -/
  | notAscii
deriving DecidableEq, Repr

/-- `EncodingError<Error>`: the error and where it happened. -/
structure BinaryWriterError where
  /-- The error. -/
  kind : SerError
  /-- Its location, innermost part first. -/
  location : String
deriving DecidableEq, Repr

/-- An error without a location. -/
def BinaryWriterError.ofKind (kind : SerError) : BinaryWriterError := ⟨kind, ""⟩

/-- Add a part to the location. -/
def BinaryWriterError.at (part : String) (e : BinaryWriterError) : BinaryWriterError :=
  ⟨e.kind, if e.location.isEmpty then part else e.location ++ " @ " ++ part⟩

/-- `ErrorInfo::field`. -/
def BinaryWriterError.field (name : String) (e : BinaryWriterError) : BinaryWriterError :=
  e.at ("field `" ++ name ++ "`")

/-- `ErrorInfo::element_of`. -/
def BinaryWriterError.elementOf (e : BinaryWriterError) : BinaryWriterError :=
  e.at "list element"

end NodeFuzzer
