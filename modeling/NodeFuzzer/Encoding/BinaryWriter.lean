import NodeFuzzer.Encoding.Hex

/-!
# The binary writer

`binary_writer.rs` appends the binary form of a `Value` to a buffer, as an
`Encoding` says.  The buffer is passed explicitly, length prefixes are
back-patched as in the source, and the number of written bytes is returned
beside it.

The second half states what the writer is for.  `body` is the byte string of a
value under an encoding, with no buffer, and `encodeValue_eq_body` says that the
writer appends exactly that byte string and returns its length.
-/

namespace NodeFuzzer

/-- What a writing call leaves: the number of bytes written and the buffer. -/
abbrev Written : Type := Except BinaryWriterError (Nat × Bytes)

/-- An error without a location. -/
def throwKind {α : Type} (kind : SerError) : Except BinaryWriterError α :=
  .error (.ofKind kind)

/-- `usize::checked_add`. -/
def checkedAdd (a b : Nat) : Option Nat := if a + b < 2 ^ 64 then some (a + b) else none

/-! ## Zarith numbers -/

/-- `BitVec::from_bytes`: the bits of each byte, most significant first. -/
def bitsOfBytes (b : Bytes) : List Bool :=
  b.flatMap fun x => [7, 6, 5, 4, 3, 2, 1, 0].map fun i => x.toNat.testBit i

/-- `BitTrim::trim_left`. -/
def trimLeft (bits : List Bool) : List Bool := bits.dropWhile (!·)

/-- `Bits::set` on a byte. -/
def setBit (n : UInt8) (place : Nat) (value : Bool) : UInt8 :=
  (n &&& ~~~(1 <<< UInt8.ofNat place)) ||| ((if value then 1 else 0) <<< UInt8.ofNat place)

/-- Set the bits of a byte from `place` on. -/
def setBits (n : UInt8) (place : Nat) : List Bool → UInt8
  | [] => n
  | b :: bits => setBits (setBit n place b) (place + 1) bits

/-- The chunks of seven bits after the first byte, in the order they are popped.
Every chunk but the last has its continuation bit set. -/
def zChunks : Nat → List Bool → Bytes
  | 0, _ => []
  | count + 1, bits =>
      let n := setBits 0 0 (bits.take 7)
      (if count = 0 then n else setBit n 7 true) :: zChunks count (bits.drop 7)

/-- The bytes `encode_z` appends.  `bits` holds the bits of the number in the
order `pop` takes them, least significant first. -/
def zBytes (value : String) : Except SerError Bytes :=
  match value.toList with
  | [] => .error .emptyNumber
  | sign :: _ =>
      if 128 ≤ sign.toNat then .error .notAscii
      else
        let negative := sign == '-'
        let text := (utf8 value).drop (if sign.isAlphanum then 0 else 1)
        let text := if text.length % 2 = 1 then 48 :: text else text
        match hexDecode text with
        | none => .error .hex
        | some bytes =>
            match bytes with
            | [byte] =>
                if byte ≤ 0x3F then .ok [if negative then byte ||| 0x40 else byte]
                else zLong negative [byte]
            | bytes => zLong negative bytes
where
  /-- The form of more than one byte. -/
  zLong (negative : Bool) (bytes : Bytes) : Except SerError Bytes :=
    let bits := (trimLeft (bitsOfBytes bytes)).reverse
    if bits.length < 6 then .error .notEnoughBits
    else
      let first := setBits (if negative then 0xC0 else 0x80) 0 (bits.take 6)
      let bits := bits.drop 6
      -- `bits.len() - 1` underflows when nothing is left.
      if bits.length = 0 then .error .panicked
      else .ok (first :: zChunks ((bits.length - 1) / 7 + 1) bits)

/-- `encode_z`. -/
def encodeZ (data : Bytes) (value : String) : Written :=
  match zBytes value with
  | .ok b => .ok (b.length, data ++ b)
  | .error e => throwKind e

/-! ## Merkle paths -/

/-- `PathCodec::list_to_u8s`, which also is how the bytes of `Encoding::Bytes` and
`Encoding::Hash` are collected; `onOther` is the error for an element that is
not a byte. -/
def listToU8s (onOther : SerError) : List Value → Except SerError Bytes
  | [] => .ok []
  | .uint8 b :: rest => do
      let bytes ← listToU8s onOther rest
      return b :: bytes
  | _ :: _ => .error onOther

/-- `PathCodec::encode_path_item`: what is appended at once, and the hash that
waits for the end marker. -/
def encodePathItem : Value → Except SerError (Bytes × Option Bytes)
  | .tag name inner =>
      if name = "Left" then
        match inner with
        | .record [(field, .list bytes)] =>
            if field = "right" then do
              let hash ← listToU8s .encodingMismatch bytes
              return ([0xF0], some hash)
            else .error .encodingMismatch
        | _ => .error .encodingMismatch
      else if name = "Right" then
        match inner with
        | .record [(field, .list bytes)] =>
            if field = "left" then do
              let hash ← listToU8s .encodingMismatch bytes
              return (0x0F :: hash, none)
            else .error .encodingMismatch
        | _ => .error .encodingMismatch
      else .error .encodingMismatch
  | _ => .error .encodingMismatch

/-- The loop of `PathCodec::encode` over the items.  `tails` is the deque, its
front first. -/
def encodePathItems : List Value → Bytes → List (Option Bytes) →
    Except SerError (Bytes × List (Option Bytes))
  | [], data, tails => .ok (data, tails)
  | item :: items, data, tails => do
      let (b, tail) ← encodePathItem item
      encodePathItems items (data ++ b) (tail :: tails)

/-- `PathCodec::encode`. -/
def encodePath (data : Bytes) : Value → Written
  | .list items =>
      match encodePathItems items data [] with
      | .ok (data', tails) =>
          let data' := data' ++ [0x00] ++ (tails.filterMap id).flatten
          .ok (data'.length - data.length, data')
      | .error e => throwKind e
  | _ => throwKind .encodingMismatch

/-! ## The writer -/

/-- `write_tag_id`. -/
def writeTagId (data : Bytes) (tagSize tagId : Nat) : Except BinaryWriterError Bytes :=
  match tagSize with
  | 1 => .ok (data ++ toBe 1 tagId)
  | 2 => .ok (data ++ toBe 2 tagId)
  | _ => throwKind (.unsupportedTagSize tagSize)

/-- `find_value_in_record_values`. -/
def findValueInRecordValues (name : String) : List (String × Value) → Option Value
  | [] => none
  | (name', value) :: rest => if name' = name then some value else findValueInRecordValues name rest

/-- The loop over the elements of a list. -/
def encodeElements (encode : Bytes → Value → Written) : Bytes → List Value →
    Except BinaryWriterError Bytes
  | data, [] => .ok data
  | data, value :: values =>
      match encode data value with
      | .ok (_, data') => encodeElements encode data' values
      | .error e => .error e.elementOf

/-- Append bytes that are known. -/
def put (data b : Bytes) : Written := .ok (b.length, data ++ b)

/-- The branches `Encoding::String` and `Encoding::BoundedString`: the length is
cast to 32 bits. -/
def encodeString (data : Bytes) (v : String) : Written :=
  match checkedAdd 4 (utf8 v).length with
  | some n => .ok (n, data ++ toBe 4 (utf8 v).length ++ utf8 v)
  | none => throwKind .sizeOverflow

/-- Write the size of a dynamic block over its placeholder, which ends at
`position + 4`. -/
def patchSize (data : Bytes) (position size : Nat) : Bytes :=
  data.take position ++ toBe 4 size ++ data.drop (position + 4)

/-- The presence byte of an option counts as written. -/
def countMarker : Written → Written
  | .ok (size, data) =>
      match checkedAdd 1 size with
      | some n => .ok (n, data)
      | none => throwKind .sizeOverflow
  | .error e => .error e

mutual

/-- `encode_value`. -/
def encodeValue : Encoding → Bytes → Value → Written
  | .unit, data, _ => .ok (0, data)
  | .int8, data, .int8 v => put data (toBe 1 v.toUInt8.toNat)
  | .uint8, data, .uint8 v => put data (toBe 1 v.toNat)
  | .int16, data, .int16 v => put data (toBe 2 v.toUInt16.toNat)
  | .uint16, data, .uint16 v => put data (toBe 2 v.toNat)
  | .int32, data, .int32 v => put data (toBe 4 v.toUInt32.toNat)
  | .int31, data, .int32 v =>
      if v &&& 0x7FFFFFFF = v then put data (toBe 4 v.toUInt32.toNat) else throwKind .outsideInt31
  | .uint32, data, .int32 v =>
      if 0 ≤ v then put data (toBe 4 v.toUInt32.toNat) else throwKind .outsideUint32
  | .rangedInt, _, _ => throwKind (.notImplemented "RangedInt")
  | .rangedFloat, _, _ => throwKind (.notImplemented "RangedFloat")
  | .int64, data, .int64 v => put data (toBe 8 v.toUInt64.toNat)
  | .timestamp, data, .int64 v => put data (toBe 8 v.toUInt64.toNat)
  | .float, data, .float bits => put data (toBe 8 bits.toNat)
  | .bool, data, .bool v => put data [if v then BYTE_VAL_TRUE else BYTE_VAL_FALSE]
  | .z, data, .string v => encodeZ data v
  | .mutez, data, .string v => encodeZ data v
  | .string, data, .string v => encodeString data v
  | .boundedString max, data, .string v =>
      if (utf8 v).length > max then throwKind (.bound max (utf8 v).length) else encodeString data v
  | .enum, data, .enum _ (some ordinal) =>
      if ordinal < 256 then put data (toBe 1 ordinal) else throwKind (.enumOrdinalTooLarge ordinal)
  | .enum, _, .enum _ none => throwKind .missingOrdinal
  | .list inner, data, .list values =>
      match encodeElements (encodeValue inner) data values with
      | .ok data' => .ok (data'.length - data.length, data')
      | .error e => .error e
  | .boundedList max inner, data, .list values =>
      if values.length > max then throwKind (.bound max values.length)
      else
        match encodeElements (encodeValue inner) data values with
        | .ok data' => .ok (data'.length - data.length, data')
        | .error e => .error e
  | .bytes, data, .list values =>
      match listToU8s .notBytes values with
      | .ok b => put data b
      | .error e => throwKind e
  | .hash hashType, data, .list values =>
      match listToU8s .notBytes values with
      | .ok b =>
          if b.length = hashType.size then put data b
          else throwKind (.wrongSize hashType.size b.length)
      | .error e => throwKind e
  | .option _, data, .option none => put data [BYTE_VAL_NONE]
  | .option inner, data, .option (some v) =>
      countMarker (encodeValue inner (data ++ [BYTE_VAL_SOME]) v)
  | .optionalField _, data, .option none => put data [BYTE_FIELD_NONE]
  | .optionalField inner, data, .option (some v) =>
      countMarker (encodeValue inner (data ++ [BYTE_FIELD_SOME]) v)
  | .dynamic inner, data, value =>
      match encodeValue inner (data ++ toBe 4 0) value with
      | .ok (size, data') =>
          if size < 2 ^ 32 then
            let patched := patchSize data' data.length size
            .ok (patched.length - data.length, patched)
          else throwKind .sizeOverflow
      | .error e => .error e
  | .boundedDynamic max inner, data, value =>
      match encodeValue inner (data ++ toBe 4 0) value with
      | .ok (size, data') =>
          if size > max then throwKind (.bound max size)
          else if size < 2 ^ 32 then
            let patched := patchSize data' data.length size
            .ok (patched.length - data.length, patched)
          else throwKind .sizeOverflow
      | .error e => .error e
  | .sized size inner, data, value =>
      match encodeValue inner data value with
      | .ok (written, data') =>
          if written = size then .ok (written, data') else throwKind (.wrongSize written size)
      | .error e => .error e
  | .bounded max inner, data, value =>
      match encodeValue inner data value with
      | .ok (written, data') =>
          if written ≤ max then .ok (written, data') else throwKind (.bound max written)
      | .error e => .error e
  | .greedy inner, data, value => encodeValue inner data value
  | .tags tagSize tagMap, data, .tag variant v =>
      match tagMap.idOfVariant variant with
      | none => throwKind (.noTagFound variant)
      | some id =>
          match writeTagId data tagSize id with
          | .error e => .error e
          | .ok data₁ =>
              match encodeTag tagMap id data₁ v with
              | none => throwKind (.noTagFound variant)
              | some (.error e) => .error e
              | some (.ok (_, data')) => .ok (data'.length - data.length, data')
  | .tags tagSize tagMap, data, .enum (some variant) _ =>
      match tagMap.findByVariant variant with
      | none => throwKind (.noTagFound variant)
      | some (id, _) =>
          match writeTagId data tagSize id with
          | .error e => .error e
          | .ok data' => .ok (data'.length - data.length, data')
  | .tags _ _, _, .enum none _ => throwKind .missingVariantName
  | .custom, data, value => encodePath data value
  | .obj _ schema, data, .record values => encodeFields schema values 0 data
  | .tup encodings, data, .tuple values => encodeItems encodings values 0 data
  | _, _, _ => throwKind .encodingMismatch

/-- The loop of `encode_record` over the fields. -/
def encodeFields : FieldList → List (String × Value) → Nat → Bytes → Written
  | .nil, _, size, data => .ok (size, data)
  | .cons name encoding rest, values, size, data =>
      match findValueInRecordValues name values with
      | none => throwKind (.noValuesFound name)
      | some value =>
          match encodeValue encoding data value with
          | .error e => .error (e.field name)
          | .ok (n, data') =>
              match checkedAdd size n with
              | some size' => encodeFields rest values size' data'
              | none => throwKind .sizeOverflow

/-- The loop of `encode_tuple` over the items. -/
def encodeItems : EncodingList → List Value → Nat → Bytes → Written
  | .nil, _, size, data => .ok (size, data)
  | .cons _ _, [], _, _ => throwKind .encodingMismatch
  | .cons encoding rest, value :: values, size, data =>
      match encodeValue encoding data value with
      | .error e => .error e
      | .ok (n, data') =>
          match checkedAdd size n with
          | some size' => encodeItems rest values size' data'
          | none => throwKind .sizeOverflow

/-- `encode_value` under the encoding of the tag with an id, found as by
`TagMap.findById`. -/
def encodeTag : TagMap → Nat → Bytes → Value → Option Written
  | .nil, _, _, _ => none
  | .cons id _ encoding rest, id', data, value =>
      match encodeTag rest id' data value with
      | some w => some w
      | none => if id = id' then some (encodeValue encoding data value) else none

end

/-- `encode_record`. -/
def encodeRecord (data : Bytes) (schema : FieldList) : Value → Written
  | .record values => encodeFields schema values 0 data
  | _ => throwKind .encodingMismatch

/-- `encode_tuple`. -/
def encodeTuple (data : Bytes) (encodings : EncodingList) : Value → Written
  | .tuple values => encodeItems encodings values 0 data
  | _ => throwKind .encodingMismatch

/-- `encode_any`. -/
def encodeAny (data : Bytes) (value : Value) : Encoding → Written
  | .obj _ schema => encodeRecord data schema value
  | .tup encodings => encodeTuple data encodings value
  | encoding => encodeValue encoding data value

/-- `write`, on a value that is serialized already. -/
def write (value : Value) (encoding : Encoding) : Except BinaryWriterError Bytes :=
  (encodeAny [] value encoding).map Prod.snd

/-! ## What the writer appends -/

/-- The bytes of the elements of a list. -/
def bodyElements (encode : Value → Except BinaryWriterError Bytes) : List Value →
    Except BinaryWriterError Bytes
  | [] => .ok []
  | value :: values =>
      match encode value with
      | .error e => .error e.elementOf
      | .ok b => (bodyElements encode values).map (b ++ ·)

/-- The bytes of a string with its length. -/
def bodyString (v : String) : Except BinaryWriterError Bytes :=
  if 4 + (utf8 v).length < 2 ^ 64 then .ok (toBe 4 (utf8 v).length ++ utf8 v)
  else throwKind .sizeOverflow

/-- A presence byte and the bytes of a value. -/
def bodyPresent (marker : UInt8) (b : Bytes) : Except BinaryWriterError Bytes :=
  if 1 + b.length < 2 ^ 64 then .ok (marker :: b) else throwKind .sizeOverflow

/-- A block with its size. -/
def bodyDynamic (b : Bytes) : Except BinaryWriterError Bytes :=
  if b.length < 2 ^ 32 then .ok (toBe 4 b.length ++ b) else throwKind .sizeOverflow

/-- A tag id. -/
def bodyTagId (tagSize tagId : Nat) : Except BinaryWriterError Bytes :=
  if tagSize = 1 ∨ tagSize = 2 then .ok (toBe tagSize tagId)
  else throwKind (.unsupportedTagSize tagSize)

/-- The bytes of a Merkle path. -/
def bodyPath (items : List (Bytes × Option Bytes)) : Bytes :=
  (items.map Prod.fst).flatten ++ [0x00] ++ (items.filterMap Prod.snd).reverse.flatten

mutual

/-- The bytes of a value under an encoding. -/
def body : Encoding → Value → Except BinaryWriterError Bytes
  | .unit, _ => .ok []
  | .int8, .int8 v => .ok (toBe 1 v.toUInt8.toNat)
  | .uint8, .uint8 v => .ok (toBe 1 v.toNat)
  | .int16, .int16 v => .ok (toBe 2 v.toUInt16.toNat)
  | .uint16, .uint16 v => .ok (toBe 2 v.toNat)
  | .int32, .int32 v => .ok (toBe 4 v.toUInt32.toNat)
  | .int31, .int32 v =>
      if v &&& 0x7FFFFFFF = v then .ok (toBe 4 v.toUInt32.toNat) else throwKind .outsideInt31
  | .uint32, .int32 v =>
      if 0 ≤ v then .ok (toBe 4 v.toUInt32.toNat) else throwKind .outsideUint32
  | .rangedInt, _ => throwKind (.notImplemented "RangedInt")
  | .rangedFloat, _ => throwKind (.notImplemented "RangedFloat")
  | .int64, .int64 v => .ok (toBe 8 v.toUInt64.toNat)
  | .timestamp, .int64 v => .ok (toBe 8 v.toUInt64.toNat)
  | .float, .float bits => .ok (toBe 8 bits.toNat)
  | .bool, .bool v => .ok [if v then BYTE_VAL_TRUE else BYTE_VAL_FALSE]
  | .z, .string v => (zBytes v).mapError .ofKind
  | .mutez, .string v => (zBytes v).mapError .ofKind
  | .string, .string v => bodyString v
  | .boundedString max, .string v =>
      if (utf8 v).length > max then throwKind (.bound max (utf8 v).length) else bodyString v
  | .enum, .enum _ (some ordinal) =>
      if ordinal < 256 then .ok (toBe 1 ordinal) else throwKind (.enumOrdinalTooLarge ordinal)
  | .enum, .enum _ none => throwKind .missingOrdinal
  | .list inner, .list values => bodyElements (body inner) values
  | .boundedList max inner, .list values =>
      if values.length > max then throwKind (.bound max values.length)
      else bodyElements (body inner) values
  | .bytes, .list values => (listToU8s .notBytes values).mapError .ofKind
  | .hash hashType, .list values => do
      let b ← (listToU8s .notBytes values).mapError .ofKind
      if b.length = hashType.size then .ok b
      else throwKind (.wrongSize hashType.size b.length)
  | .option _, .option none => .ok [BYTE_VAL_NONE]
  | .option inner, .option (some v) => body inner v >>= bodyPresent BYTE_VAL_SOME
  | .optionalField _, .option none => .ok [BYTE_FIELD_NONE]
  | .optionalField inner, .option (some v) => body inner v >>= bodyPresent BYTE_FIELD_SOME
  | .dynamic inner, value => body inner value >>= bodyDynamic
  | .boundedDynamic max inner, value => do
      let b ← body inner value
      if b.length > max then throwKind (.bound max b.length) else bodyDynamic b
  | .sized size inner, value => do
      let b ← body inner value
      if b.length = size then .ok b else throwKind (.wrongSize b.length size)
  | .bounded max inner, value => do
      let b ← body inner value
      if b.length ≤ max then .ok b else throwKind (.bound max b.length)
  | .greedy inner, value => body inner value
  | .tags tagSize tagMap, .tag variant v =>
      match tagMap.idOfVariant variant with
      | none => throwKind (.noTagFound variant)
      | some id => do
          let t ← bodyTagId tagSize id
          match bodyTag tagMap id v with
          | none => throwKind (.noTagFound variant)
          | some w => w.map (t ++ ·)
  | .tags tagSize tagMap, .enum (some variant) _ =>
      match tagMap.findByVariant variant with
      | none => throwKind (.noTagFound variant)
      | some (id, _) => bodyTagId tagSize id
  | .tags _ _, .enum none _ => throwKind .missingVariantName
  | .custom, .list items => ((items.mapM encodePathItem).map bodyPath).mapError .ofKind
  | .obj _ schema, .record values => bodyFields schema values 0
  | .tup encodings, .tuple values => bodyItems encodings values 0
  | _, _ => throwKind .encodingMismatch

/-- The bytes of the fields of a record, after `size` bytes of it. -/
def bodyFields : FieldList → List (String × Value) → Nat → Except BinaryWriterError Bytes
  | .nil, _, _ => .ok []
  | .cons name encoding rest, values, size =>
      match findValueInRecordValues name values with
      | none => throwKind (.noValuesFound name)
      | some value =>
          match body encoding value with
          | .error e => .error (e.field name)
          | .ok b =>
              if size + b.length < 2 ^ 64 then
                (bodyFields rest values (size + b.length)).map (b ++ ·)
              else throwKind .sizeOverflow

/-- The bytes of the items of a tuple, after `size` bytes of it. -/
def bodyItems : EncodingList → List Value → Nat → Except BinaryWriterError Bytes
  | .nil, _, _ => .ok []
  | .cons _ _, [], _ => throwKind .encodingMismatch
  | .cons encoding rest, value :: values, size =>
      match body encoding value with
      | .error e => .error e
      | .ok b =>
          if size + b.length < 2 ^ 64 then
            (bodyItems rest values (size + b.length)).map (b ++ ·)
          else throwKind .sizeOverflow

/-- The bytes of a value under the encoding of a tag. -/
def bodyTag : TagMap → Nat → Value → Option (Except BinaryWriterError Bytes)
  | .nil, _, _ => none
  | .cons id _ encoding rest, id', value =>
      match bodyTag rest id' value with
      | some w => some w
      | none => if id = id' then some (body encoding value) else none

end

/-- The buffer and the count that writing `b` to `data` leaves. -/
def appended (data : Bytes) (w : Except BinaryWriterError Bytes) : Written :=
  w.map fun b => (b.length, data ++ b)

@[simp] theorem appended_ok (data b : Bytes) : appended data (.ok b) = .ok (b.length, data ++ b) :=
  rfl

@[simp] theorem appended_error (data : Bytes) (e : BinaryWriterError) :
    appended data (.error e) = .error e := rfl

@[simp] theorem appended_throwKind (data : Bytes) (kind : SerError) :
    appended data (throwKind kind) = throwKind kind := rfl

/-- Elements are appended one after the other. -/
theorem encodeElements_eq {encode : Bytes → Value → Written}
    {spec : Value → Except BinaryWriterError Bytes}
    (h : ∀ data v, encode data v = appended data (spec v)) (values : List Value) (data : Bytes) :
    encodeElements encode data values = (bodyElements spec values).map (data ++ ·) := by
  induction values generalizing data with
  | nil => simp [encodeElements, bodyElements, Except.map]
  | cons v values ih =>
      rw [encodeElements, bodyElements, h]
      cases hv : spec v with
      | error e => rfl
      | ok b =>
          simp only [appended_ok, ih]
          cases bodyElements spec values <;> simp [Except.map]

/-- The length of a string is written before it, and counted. -/
theorem encodeString_eq (data : Bytes) (v : String) :
    encodeString data v = appended data (bodyString v) := by
  rw [encodeString, bodyString, checkedAdd]
  split
  next n hn =>
    split at hn
    next hlt => rw [if_pos hlt, ← Option.some.inj hn]; simp [Nat.add_comm]
    next => cases hn
  next hn =>
    split at hn
    next => cases hn
    next hlt => rw [if_neg hlt]; rfl

theorem encodeZ_eq (data : Bytes) (v : String) :
    encodeZ data v = appended data ((zBytes v).mapError .ofKind) := by
  rw [encodeZ]
  cases zBytes v <;> rfl

/-- The size goes over the four bytes that were left for it. -/
theorem patchSize_eq (data b : Bytes) (size : Nat) :
    patchSize (data ++ toBe 4 0 ++ b) data.length size = data ++ toBe 4 size ++ b := by
  have htake : (data ++ toBe 4 0 ++ b).take data.length = data := by simp
  have hdrop : (data ++ toBe 4 0 ++ b).drop (data.length + 4) = b := by
    rw [List.drop_append_of_le_length (by simp), List.drop_of_length_le (by simp), List.nil_append]
  rw [patchSize, htake, hdrop]

/-- The sides of a path are kept for its end, the last one first. -/
theorem encodePathItems_eq (items : List Value) (data : Bytes) (tails : List (Option Bytes)) :
    encodePathItems items data tails =
      (items.mapM encodePathItem).map fun parts =>
        (data ++ (parts.map Prod.fst).flatten, (parts.map Prod.snd).reverse ++ tails) := by
  induction items generalizing data tails with
  | nil => simp [encodePathItems, Except.map, pure, Except.pure]
  | cons item items ih =>
      rw [encodePathItems, List.mapM_cons]
      cases hi : encodePathItem item with
      | error e => rfl
      | ok part =>
          simp only [bind, Except.bind, ih]
          cases items.mapM encodePathItem <;> simp [Except.map, pure, Except.pure]

theorem encodePath_eq (data : Bytes) (items : List Value) :
    encodePath data (.list items) =
      appended data (((items.mapM encodePathItem).map bodyPath).mapError .ofKind) := by
  rw [encodePath, encodePathItems_eq]
  cases items.mapM encodePathItem with
  | error e => rfl
  | ok parts =>
      simp [Except.map, Except.mapError, bodyPath]

/-- A tag of one or two bytes. -/
theorem writeTagId_eq (data : Bytes) (tagSize tagId : Nat) :
    writeTagId data tagSize tagId = (bodyTagId tagSize tagId).map (data ++ ·) := by
  match tagSize with
  | 0 | 1 | 2 => rfl
  | n + 3 => rw [writeTagId, bodyTagId, if_neg (by omega)] <;> simp [Except.map, throwKind]

/-- The byte in front is counted too. -/
theorem countMarker_eq (data : Bytes) (marker : UInt8) (w : Except BinaryWriterError Bytes) :
    countMarker (appended (data ++ [marker]) w) = appended data (w >>= bodyPresent marker) := by
  cases w with
  | error e => rfl
  | ok b =>
      simp only [appended_ok, countMarker, checkedAdd, bind, Except.bind, bodyPresent]
      split_ifs
      next => simp [Nat.add_comm]
      next => rfl

/-! ### One lemma for each kind of encoding -/

section Cases

-- Each case is by the equations of the writer and of the body.
attribute [local simp] encodeValue body

theorem encodeBoundedString_eq_body (max : Nat) (data : Bytes) (v : Value) :
    encodeValue (.boundedString max) data v = appended data (body (.boundedString max) v) := by
  cases v with
  | string v =>
      simp only [encodeValue, body, encodeString_eq]
      split <;> rfl
  | _ => rfl

theorem encodeEnum_eq_body (data : Bytes) (v : Value) :
    encodeValue .enum data v = appended data (body .enum v) := by
  cases v with
  | enum name ordinal =>
      cases ordinal with
      | none => rfl
      | some ordinal => simp only [encodeValue, body]; split <;> rfl
  | _ => rfl

theorem encodeBytes_eq_body (data : Bytes) (v : Value) :
    encodeValue .bytes data v = appended data (body .bytes v) := by
  cases v with
  | list values =>
      simp only [encodeValue, body]
      cases listToU8s .notBytes values <;> rfl
  | _ => rfl

theorem encodeHash_eq_body (hashType : HashType) (data : Bytes) (v : Value) :
    encodeValue (.hash hashType) data v = appended data (body (.hash hashType) v) := by
  cases v with
  | list values =>
      simp only [encodeValue, body]
      cases listToU8s .notBytes values with
      | error e => rfl
      | ok b => simp only [Except.mapError, bind, Except.bind]; split <;> rfl
  | _ => rfl

section Inner

-- The encoding inside is written as its body says.
variable {inner : Encoding}
  (ih : ∀ (data : Bytes) (v : Value), encodeValue inner data v = appended data (body inner v))

include ih

theorem encodeList_eq_body (data : Bytes) (v : Value) :
    encodeValue (.list inner) data v = appended data (body (.list inner) v) := by
  cases v with
  | list values =>
      simp only [encodeValue, body, encodeElements_eq ih]
      cases bodyElements (body inner) values <;> simp [Except.map]
  | _ => rfl

theorem encodeBoundedList_eq_body (max : Nat) (data : Bytes) (v : Value) :
    encodeValue (.boundedList max inner) data v =
      appended data (body (.boundedList max inner) v) := by
  cases v with
  | list values =>
      simp only [encodeValue, body, encodeElements_eq ih]
      split
      next => rfl
      next => cases bodyElements (body inner) values <;> simp [Except.map]
  | _ => rfl

theorem encodeOption_eq_body (data : Bytes) (v : Value) :
    encodeValue (.option inner) data v = appended data (body (.option inner) v) := by
  cases v with
  | option v =>
      cases v with
      | none => rfl
      | some v => simp only [encodeValue, body, ih, countMarker_eq]
  | _ => rfl

theorem encodeOptionalField_eq_body (data : Bytes) (v : Value) :
    encodeValue (.optionalField inner) data v = appended data (body (.optionalField inner) v) := by
  cases v with
  | option v =>
      cases v with
      | none => rfl
      | some v => simp only [encodeValue, body, ih, countMarker_eq]
  | _ => rfl

theorem encodeDynamic_eq_body (data : Bytes) (v : Value) :
    encodeValue (.dynamic inner) data v = appended data (body (.dynamic inner) v) := by
  simp only [encodeValue, body, ih]
  cases body inner v with
  | error e => rfl
  | ok b =>
      simp only [appended_ok, patchSize_eq, bind, Except.bind, bodyDynamic]
      split <;> simp

theorem encodeBoundedDynamic_eq_body (max : Nat) (data : Bytes) (v : Value) :
    encodeValue (.boundedDynamic max inner) data v =
      appended data (body (.boundedDynamic max inner) v) := by
  simp only [encodeValue, body, ih]
  cases body inner v with
  | error e => rfl
  | ok b =>
      simp only [appended_ok, patchSize_eq, bind, Except.bind, bodyDynamic]
      split
      next => rfl
      next => split <;> simp

theorem encodeSized_eq_body (size : Nat) (data : Bytes) (v : Value) :
    encodeValue (.sized size inner) data v = appended data (body (.sized size inner) v) := by
  simp only [encodeValue, body, ih]
  cases body inner v with
  | error e => rfl
  | ok b => simp only [appended_ok, bind, Except.bind]; split <;> rfl

theorem encodeBounded_eq_body (max : Nat) (data : Bytes) (v : Value) :
    encodeValue (.bounded max inner) data v = appended data (body (.bounded max inner) v) := by
  simp only [encodeValue, body, ih]
  cases body inner v with
  | error e => rfl
  | ok b => simp only [appended_ok, bind, Except.bind]; split <;> rfl

end Inner

/-- A variant with a field is written under its tag, one without as its tag alone. -/
theorem encodeTags_eq_body (tagSize : Nat) {tagMap : TagMap}
    (ih : ∀ (id : Nat) (data : Bytes) (v : Value),
      encodeTag tagMap id data v = (bodyTag tagMap id v).map (appended data))
    (data : Bytes) (v : Value) :
    encodeValue (.tags tagSize tagMap) data v = appended data (body (.tags tagSize tagMap) v) := by
  cases v with
  | tag variant v =>
      simp only [encodeValue, body]
      split
      next => rfl
      next id _ =>
        rw [writeTagId_eq]
        cases bodyTagId tagSize id with
        | error e => rfl
        | ok t =>
            simp only [Except.map, ih, bind, Except.bind]
            cases bodyTag tagMap id v with
            | none => rfl
            | some w => cases w <;> simp
  | enum variant ordinal =>
      cases variant with
      | none => rfl
      | some variant =>
          simp only [encodeValue, body]
          split
          next => rfl
          next id _ _ =>
            rw [writeTagId_eq]
            cases bodyTagId tagSize id <;> simp [Except.map]
  | _ => rfl

end Cases

mutual

/-- The writer appends the bytes of the value and returns how many they are. -/
theorem encodeValue_eq_body : (e : Encoding) → (data : Bytes) → (v : Value) →
    encodeValue e data v = appended data (body e v)
  | .unit, data, v => by simp [encodeValue, body]
  | .int8, data, v | .uint8, data, v | .int16, data, v | .uint16, data, v | .int32, data, v
  | .int64, data, v | .timestamp, data, v | .float, data, v | .bool, data, v => by
      cases v <;> rfl
  | .int31, data, v | .uint32, data, v => by
      cases v <;> first | rfl | (simp only [encodeValue, body]; split <;> rfl)
  | .rangedInt, _, _ | .rangedFloat, _, _ => by simp [encodeValue, body]
  | .z, data, v | .mutez, data, v => by
      cases v <;> first | rfl | exact encodeZ_eq data _
  | .string, data, v => by
      cases v <;> first | rfl | exact encodeString_eq data _
  | .boundedString max, data, v => encodeBoundedString_eq_body max data v
  | .enum, data, v => encodeEnum_eq_body data v
  | .list inner, data, v => encodeList_eq_body (encodeValue_eq_body inner) data v
  | .boundedList max inner, data, v =>
      encodeBoundedList_eq_body (encodeValue_eq_body inner) max data v
  | .bytes, data, v => encodeBytes_eq_body data v
  | .hash hashType, data, v => encodeHash_eq_body hashType data v
  | .option inner, data, v => encodeOption_eq_body (encodeValue_eq_body inner) data v
  | .optionalField inner, data, v =>
      encodeOptionalField_eq_body (encodeValue_eq_body inner) data v
  | .dynamic inner, data, v => encodeDynamic_eq_body (encodeValue_eq_body inner) data v
  | .boundedDynamic max inner, data, v =>
      encodeBoundedDynamic_eq_body (encodeValue_eq_body inner) max data v
  | .sized size inner, data, v => encodeSized_eq_body (encodeValue_eq_body inner) size data v
  | .bounded max inner, data, v => encodeBounded_eq_body (encodeValue_eq_body inner) max data v
  | .greedy inner, data, v => by simp only [encodeValue, body, encodeValue_eq_body inner]
  | .tags tagSize tagMap, data, v => encodeTags_eq_body tagSize (encodeTag_eq_body tagMap) data v
  | .custom, data, v => by
      cases v with
      | list items => exact encodePath_eq data items
      | _ => rfl
  | .obj name schema, data, v => by
      cases v with
      | record values =>
          simp only [encodeValue, body, encodeFields_eq_body schema values]
          cases bodyFields schema values 0 <;> simp [Except.map]
      | _ => rfl
  | .tup encodings, data, v => by
      cases v with
      | tuple values =>
          simp only [encodeValue, body, encodeItems_eq_body encodings values]
          cases bodyItems encodings values 0 <;> simp [Except.map]
      | _ => rfl

/-- Fields go on from the size that was written before them. -/
theorem encodeFields_eq_body : (fields : FieldList) → (values : List (String × Value)) →
    (size : Nat) → (data : Bytes) → encodeFields fields values size data =
      (bodyFields fields values size).map fun b => (size + b.length, data ++ b)
  | .nil, values, size, data => by simp [encodeFields, bodyFields, Except.map]
  | .cons name encoding rest, values, size, data => by
      simp only [encodeFields, bodyFields]
      split
      next => rfl
      next value _ =>
        rw [encodeValue_eq_body encoding]
        cases body encoding value with
        | error e => rfl
        | ok b =>
            simp only [appended_ok, checkedAdd]
            split_ifs
            next =>
              simp only [encodeFields_eq_body rest]
              cases bodyFields rest values (size + b.length) <;> simp [Except.map, Nat.add_assoc]
            next => rfl

theorem encodeItems_eq_body : (items : EncodingList) → (values : List Value) →
    (size : Nat) → (data : Bytes) → encodeItems items values size data =
      (bodyItems items values size).map fun b => (size + b.length, data ++ b)
  | .nil, values, size, data => by simp [encodeItems, bodyItems, Except.map]
  | .cons _ _, [], size, data => rfl
  | .cons encoding rest, value :: values, size, data => by
      simp only [encodeItems, bodyItems]
      rw [encodeValue_eq_body encoding]
      cases body encoding value with
      | error e => rfl
      | ok b =>
          simp only [appended_ok, checkedAdd]
          split_ifs
          next =>
            simp only [encodeItems_eq_body rest]
            cases bodyItems rest values (size + b.length) <;> simp [Except.map, Nat.add_assoc]
          next => rfl

/-- The last tag with the id is the one that counts. -/
theorem encodeTag_eq_body : (tags : TagMap) → (id : Nat) → (data : Bytes) → (v : Value) →
    encodeTag tags id data v = (bodyTag tags id v).map (appended data)
  | .nil, _, _, _ => rfl
  | .cons id' _ encoding rest, id, data, v => by
      simp only [encodeTag, bodyTag, encodeTag_eq_body rest]
      cases bodyTag rest id v with
      | some w => rfl
      | none =>
          simp only [Option.map_none]
          split
          next => rw [encodeValue_eq_body encoding]; rfl
          next => rfl

end

/-- `encode_any` takes records and tuples apart as `encode_value` does. -/
theorem encodeAny_eq_encodeValue (data : Bytes) (v : Value) (e : Encoding) :
    encodeAny data v e = encodeValue e data v := by
  cases e with
  | obj name schema => cases v <;> rfl
  | tup encodings => cases v <;> rfl
  | _ => rfl

/-- `write` returns the bytes of the value. -/
theorem write_eq_body (v : Value) (e : Encoding) : write v e = body e v := by
  rw [write, encodeAny_eq_encodeValue, encodeValue_eq_body]
  cases body e v <;> rfl

end NodeFuzzer
