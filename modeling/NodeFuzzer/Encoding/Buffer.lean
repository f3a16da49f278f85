import NodeFuzzer.Library.Append
import NodeFuzzer.Encoding.BinaryWriter

/-!
# The writer and its buffer

The functions of `binary_writer.rs` once more, this time as calls over the buffer,
which keeps what was written before an error or a panic.  Every one of them only
appends, and ends as the writer without a buffer says (`encodeValue_appends`); the
size of a dynamic block is written over a placeholder that the same call has
appended.
-/

namespace NodeFuzzer

namespace Buffer

/-- A call of the writer. -/
abbrev Call (α : Type) : Type := Exec Bytes BinaryWriterError α

variable {α : Type}

/-- Append bytes. -/
def put (b : Bytes) : Call Unit := Exec.modify (· ++ b)

/-- Append bytes and count them. -/
def putCounted (b : Bytes) : Call Nat := do
  put b
  pure b.length

/-- An error without a location. -/
def fail (kind : SerError) : Call α := Exec.fail (.ofKind kind)

/-- `checked_add`, whose overflow is an error. -/
def addSize (a b : Nat) : Call Nat := Exec.orFail (.ofKind .sizeOverflow) (checkedAdd a b)

/-- The number of bytes a call has appended, by the length of the buffer. -/
def measured (x : Call Unit) : Call Nat := do
  let before ← Exec.gets List.length
  x
  let after ← Exec.gets List.length
  if before ≤ after then pure (after - before) else fail .sizeOverflow

/-! ## The parts -/

/-- The loop over the bytes of `Encoding::Bytes` and `Encoding::Hash`. -/
def putU8s : List Value → Call Unit
  | [] => pure ()
  | .uint8 b :: rest => do
      put [b]
      putU8s rest
  | _ :: _ => fail .notBytes

/-- The long form of `encode_z`. -/
def zLong (negative : Bool) (bytes : Bytes) : Call Nat :=
  let bits := (trimLeft (bitsOfBytes bytes)).reverse
  if bits.length < 6 then fail .notEnoughBits
  else
    measured do
      put [setBits (if negative then 0xC0 else 0x80) 0 (bits.take 6)]
      let bits := bits.drop 6
      -- `bits.len() - 1` underflows when nothing is left.
      if bits.length = 0 then Exec.abort
      else put (zChunks ((bits.length - 1) / 7 + 1) bits)

/-- `encode_z`. -/
def encodeZ (value : String) : Call Nat :=
  match value.toList with
  | [] => fail .emptyNumber
  | sign :: _ =>
      if 128 ≤ sign.toNat then fail .notAscii
      else
        let negative := sign == '-'
        let text := (utf8 value).drop (if sign.isAlphanum then 0 else 1)
        let text := if text.length % 2 = 1 then 48 :: text else text
        match hexDecode text with
        | none => fail .hex
        | some bytes =>
            match bytes with
            | [byte] =>
                if byte ≤ 0x3F then putCounted [if negative then byte ||| 0x40 else byte]
                else zLong negative [byte]
            | bytes => zLong negative bytes

/-- The branches `Encoding::String` and `Encoding::BoundedString`. -/
def encodeString (v : String) : Call Nat := do
  put (toBe 4 (utf8 v).length)
  put (utf8 v)
  addSize 4 (utf8 v).length

/-- The loop over the elements of a list. -/
def encodeElements (encode : Value → Call Nat) : List Value → Call Unit
  | [] => pure ()
  | value :: values => do
      let _ ← Exec.mapErr BinaryWriterError.elementOf (encode value)
      encodeElements encode values

/-- `PathCodec::list_to_u8s`. -/
def pathBytes : Value → Except SerError Bytes
  | .list bytes => listToU8s .encodingMismatch bytes
  | _ => .error .encodingMismatch

/-- The error of `PathCodec::list_to_u8s` is handed on. -/
def hashBytes (bytes : Value) : Call Bytes :=
  match pathBytes bytes with
  | .ok hash => pure hash
  | .error kind => fail kind

/-- `PathCodec::encode_left`: the marker is appended before the hash is looked at. -/
def encodeLeft : Value → Call (Option Bytes)
  | .record [(field, bytes)] =>
      if field = "right" then do
        put [0xF0]
        let hash ← hashBytes bytes
        pure (some hash)
      else fail .encodingMismatch
  | _ => fail .encodingMismatch

/-- `PathCodec::encode_right`. -/
def encodeRight : Value → Call (Option Bytes)
  | .record [(field, bytes)] =>
      if field = "left" then do
        put [0x0F]
        let hash ← hashBytes bytes
        put hash
        pure none
      else fail .encodingMismatch
  | _ => fail .encodingMismatch

/-- `PathCodec::encode_path_item`. -/
def encodePathItem : Value → Call (Option Bytes)
  | .tag name inner =>
      if name = "Left" then encodeLeft inner
      else if name = "Right" then encodeRight inner
      else fail .encodingMismatch
  | _ => fail .encodingMismatch

/-- The loop of `PathCodec::encode` over the items.  `tails` is the deque, its
front first. -/
def encodePathItems : List Value → List (Option Bytes) → Call (List (Option Bytes))
  | [], tails => pure tails
  | item :: items, tails => do
      let tail ← encodePathItem item
      encodePathItems items (tail :: tails)

/-- `PathCodec::encode`. -/
def encodePath : Value → Call Nat
  | .list items =>
      measured do
        let tails ← encodePathItems items []
        put [0x00]
        put (tails.filterMap id).flatten
  | _ => fail .encodingMismatch

/-- `write_tag_id`. -/
def writeTagId (tagSize tagId : Nat) : Call Unit :=
  match tagSize with
  | 1 => put (toBe 1 tagId)
  | 2 => put (toBe 2 tagId)
  | _ => fail (.unsupportedTagSize tagSize)

/-- The presence byte of an option, which counts as written. -/
def present (marker : UInt8) (x : Call Nat) : Call Nat := do
  put [marker]
  let size ← x
  addSize 1 size

/-- The size of a block over its placeholder, which starts at `position`. -/
def putSize (max : Option Nat) (position size : Nat) : Call Unit := do
  match max with
  | some max => if size > max then fail (.bound max size) else pure ()
  | none => pure ()
  if size < 2 ^ 32 then Exec.modify (patchSize · position size) else fail .sizeOverflow

/-- The branches `Encoding::Dynamic` and `Encoding::BoundedDynamic`: the size goes
over a placeholder in front of what `x` appends. -/
def block (max : Option Nat) (x : Call Nat) : Call Nat :=
  measured do
    let position ← Exec.gets List.length
    put (toBe 4 0)
    let size ← x
    putSize max position size

/-! ## The writer -/

mutual

/-- `encode_value`. -/
def encodeValue : Encoding → Value → Call Nat
  | .unit, _ => pure 0
  | .int8, .int8 v => putCounted (toBe 1 v.toUInt8.toNat)
  | .uint8, .uint8 v => putCounted (toBe 1 v.toNat)
  | .int16, .int16 v => putCounted (toBe 2 v.toUInt16.toNat)
  | .uint16, .uint16 v => putCounted (toBe 2 v.toNat)
  | .int32, .int32 v => putCounted (toBe 4 v.toUInt32.toNat)
  | .int31, .int32 v =>
      if v &&& 0x7FFFFFFF = v then putCounted (toBe 4 v.toUInt32.toNat) else fail .outsideInt31
  | .uint32, .int32 v =>
      if 0 ≤ v then putCounted (toBe 4 v.toUInt32.toNat) else fail .outsideUint32
  | .rangedInt, _ => fail (.notImplemented "RangedInt")
  | .rangedFloat, _ => fail (.notImplemented "RangedFloat")
  | .int64, .int64 v => putCounted (toBe 8 v.toUInt64.toNat)
  | .timestamp, .int64 v => putCounted (toBe 8 v.toUInt64.toNat)
  | .float, .float bits => putCounted (toBe 8 bits.toNat)
  | .bool, .bool v => putCounted [if v then BYTE_VAL_TRUE else BYTE_VAL_FALSE]
  | .z, .string v => encodeZ v
  | .mutez, .string v => encodeZ v
  | .string, .string v => encodeString v
  | .boundedString max, .string v =>
      if (utf8 v).length > max then fail (.bound max (utf8 v).length) else encodeString v
  | .enum, .enum _ (some ordinal) =>
      if ordinal < 256 then putCounted (toBe 1 ordinal) else fail (.enumOrdinalTooLarge ordinal)
  | .enum, .enum _ none => fail .missingOrdinal
  | .list inner, .list values => measured (encodeElements (encodeValue inner) values)
  | .boundedList max inner, .list values =>
      if values.length > max then fail (.bound max values.length)
      else measured (encodeElements (encodeValue inner) values)
  | .bytes, .list values => measured (putU8s values)
  | .hash hashType, .list values => do
      let size ← measured (putU8s values)
      if size = hashType.size then pure size else fail (.wrongSize hashType.size size)
  | .option _, .option none => putCounted [BYTE_VAL_NONE]
  | .option inner, .option (some v) => present BYTE_VAL_SOME (encodeValue inner v)
  | .optionalField _, .option none => putCounted [BYTE_FIELD_NONE]
  | .optionalField inner, .option (some v) => present BYTE_FIELD_SOME (encodeValue inner v)
  | .dynamic inner, value => block none (encodeValue inner value)
  | .boundedDynamic max inner, value => block (some max) (encodeValue inner value)
  | .sized size inner, value => do
      let written ← encodeValue inner value
      if written = size then pure written else fail (.wrongSize written size)
  | .bounded max inner, value => do
      let written ← encodeValue inner value
      if written ≤ max then pure written else fail (.bound max written)
  | .greedy inner, value => encodeValue inner value
  | .tags tagSize tagMap, .tag variant v =>
      match tagMap.idOfVariant variant with
      | none => fail (.noTagFound variant)
      | some id =>
          match encodeTag tagMap id v with
          | none => fail (.noTagFound variant)
          | some x =>
              measured do
                writeTagId tagSize id
                let _ ← x
  | .tags tagSize tagMap, .enum (some variant) _ =>
      match tagMap.findByVariant variant with
      | none => fail (.noTagFound variant)
      | some (id, _) => measured (writeTagId tagSize id)
  | .tags _ _, .enum none _ => fail .missingVariantName
  | .custom, value => encodePath value
  | .obj _ schema, .record values => encodeFields schema values 0
  | .tup encodings, .tuple values => encodeItems encodings values 0
  | _, _ => fail .encodingMismatch

/-- The loop of `encode_record` over the fields. -/
def encodeFields : FieldList → List (String × Value) → Nat → Call Nat
  | .nil, _, size => pure size
  | .cons name encoding rest, values, size =>
      match findValueInRecordValues name values with
      | none => fail (.noValuesFound name)
      | some value => do
          let n ← Exec.mapErr (BinaryWriterError.field name) (encodeValue encoding value)
          let size ← addSize size n
          encodeFields rest values size

/-- The loop of `encode_tuple` over the items. -/
def encodeItems : EncodingList → List Value → Nat → Call Nat
  | .nil, _, size => pure size
  | .cons _ _, [], _ => fail .encodingMismatch
  | .cons encoding rest, value :: values, size => do
      let n ← encodeValue encoding value
      let size ← addSize size n
      encodeItems rest values size

/-- `encode_value` under the encoding of the tag with an id, found as by
`TagMap.findById`. -/
def encodeTag : TagMap → Nat → Value → Option (Call Nat)
  | .nil, _, _ => none
  | .cons id _ encoding rest, id', value =>
      match encodeTag rest id' value with
      | some x => some x
      | none => if id = id' then some (encodeValue encoding value) else none

end

/-- `encode_record`. -/
def encodeRecord (schema : FieldList) : Value → Call Nat
  | .record values => encodeFields schema values 0
  | _ => fail .encodingMismatch

/-- `encode_tuple`. -/
def encodeTuple (encodings : EncodingList) : Value → Call Nat
  | .tuple values => encodeItems encodings values 0
  | _ => fail .encodingMismatch

/-- `encode_any`. -/
def encodeAny (value : Value) : Encoding → Call Nat
  | .obj _ schema => encodeRecord schema value
  | .tup encodings => encodeTuple encodings value
  | encoding => encodeValue encoding value

/-! ## The parts append -/

/-- How a call ends for which the writer without a buffer gives `w`: `value` is
what it returns for the bytes. -/
def ends (value : Bytes → α) (w : Except BinaryWriterError Bytes) :
    Outcome BinaryWriterError (α × Bytes) :=
  match w with
  | .ok b => .ok (value b, b)
  | .error e => if e.kind = .panicked then .panic else .err e

@[simp] theorem ends_ok (value : Bytes → α) (b : Bytes) : ends value (.ok b) = .ok (value b, b) :=
  rfl

theorem ends_throwKind (value : Bytes → α) {kind : SerError} (h : kind ≠ .panicked) :
    ends value (throwKind kind) = .err (.ofKind kind) := if_neg h

/-- An error ends calls of all types in the same way. -/
theorem ends_error {β : Type} {value : Bytes → α} {value' : Bytes → β} (e : BinaryWriterError) :
    (ends value (.error e) = .panic ∧ ends value' (.error e) = .panic) ∨
      (ends value (.error e) = .err e ∧ ends value' (.error e) = .err e) := by
  by_cases h : e.kind = .panicked
  · exact .inl ⟨if_pos h, if_pos h⟩
  · exact .inr ⟨if_neg h, if_neg h⟩

/-- A context that is added to an error does not change how the call ends. -/
theorem ends_mapErr (value : Bytes → α) {f : BinaryWriterError → BinaryWriterError}
    (hkind : ∀ e, (f e).kind = e.kind) (w : Except BinaryWriterError Bytes) :
    (ends value w).mapErr f = ends value (w.mapError f) := by
  cases w with
  | ok b => rfl
  | error e =>
      simp only [ends, Except.mapError, hkind]
      split <;> rfl

open Exec (Appends)

theorem putCounted_appends (b : Bytes) : Appends (putCounted b) (ends List.length (.ok b)) := by
  intro data
  rfl

theorem fail_appends (value : Bytes → α) {kind : SerError} (h : kind ≠ .panicked) :
    Appends (fail kind : Call α) (ends value (throwKind kind)) := by
  rw [ends_throwKind value h]
  exact Exec.appends_fail _

/-- A call that fails ends the one that goes on from it, whatever both return. -/
theorem error_bind_appendedTo {β : Type} {x : Call α} {f : α → Call β} {value : Bytes → α}
    {value' : Bytes → β} {e : BinaryWriterError} {start data : Bytes} (hstart : start <+: data)
    (h : (ends value (.error e)).AppendedTo data (x data)) :
    (ends value' (.error e)).AppendedTo start ((x >>= f) data) := by
  rcases @ends_error _ _ value value' e with ⟨hx, hy⟩ | ⟨hx, hy⟩
  · rw [hx] at h
    rw [hy, Exec.bind_not_ok.2 h.1]
    exact ⟨rfl, hstart.trans h.2⟩
  · rw [hx] at h
    rw [hy, Exec.bind_not_ok.1 e h.1]
    exact ⟨rfl, hstart.trans h.2⟩

/-- One call after another. -/
theorem seq_appends {β : Type} {x : Call α} {f : α → Call β} {value : Bytes → α}
    {value' : Bytes → β} {w : Except BinaryWriterError Bytes}
    {k : Bytes → Except BinaryWriterError Bytes} (hx : Appends x (ends value w))
    (hf : ∀ b, w = .ok b → Appends (f (value b)) (ends (fun b' => value' (b ++ b')) (k b))) :
    Appends (x >>= f) (ends value' (w >>= fun b => (k b).map (b ++ ·))) := by
  intro data
  have hdata := hx data
  cases w with
  | error e =>
      have hbind : (Except.error e >>= fun b => (k b).map (b ++ ·)) = .error e := rfl
      rw [hbind]
      exact error_bind_appendedTo (List.prefix_refl data) hdata
  | ok b =>
      have hbind : (Except.ok b >>= fun b => (k b).map (b ++ ·)) = (k b).map (b ++ ·) := rfl
      have hrest := hf b rfl (data ++ b)
      rw [hbind, Exec.bind_ok hdata]
      have hstart := List.prefix_append data b
      cases hk : k b with
      | ok b' =>
          rw [hk, ends_ok] at hrest
          have hrun : f (value b) (data ++ b) = (.ok (value' (b ++ b')), data ++ b ++ b') := hrest
          rw [hrun, List.append_assoc]
          rfl
      | error e =>
          rw [hk] at hrest
          have hmap : (Except.error e : Except BinaryWriterError Bytes).map (b ++ ·) = .error e := rfl
          rw [hmap]
          rcases @ends_error _ _ (fun b' => value' (b ++ b')) value' e with ⟨hx, hy⟩ | ⟨hx, hy⟩
          · rw [hx] at hrest
            rw [hy]
            exact ⟨hrest.1, hstart.trans hrest.2⟩
          · rw [hx] at hrest
            rw [hy]
            exact ⟨hrest.1, hstart.trans hrest.2⟩

theorem put_appends (b : Bytes) : Appends (put b) (ends (fun _ => ()) (.ok b)) :=
  Exec.appends_put b

theorem pure_appends {a : α} {value : Bytes → α} (h : value [] = a) :
    Appends (pure a : Call α) (ends value (.ok [])) := by
  rw [ends_ok, h]
  exact Exec.appends_pure a

theorem addSize_appends {a b : Nat} {value : Bytes → Nat} (h : value [] = a + b) :
    Appends (addSize a b)
      (ends value (if a + b < 2 ^ 64 then .ok [] else throwKind .sizeOverflow)) := by
  rw [addSize, checkedAdd]
  split
  · exact pure_appends h
  · exact fail_appends _ nofun

/-- A call that goes on from `x` without appending, once `x` has returned. -/
theorem appends_after {β : Type} {x : Call α} {y : Call β} {value : Bytes → α} {value' : Bytes → β}
    {w : Except BinaryWriterError Bytes} (k : Bytes → α → Call β) (h : Appends x (ends value w))
    (hy : ∀ data, y data = (x >>= k data) data)
    (hk : ∀ data b, k data (value b) (data ++ b) = (.ok (value' b), data ++ b)) :
    Appends y (ends value' w) := by
  intro data
  have hdata := h data
  rw [hy data]
  cases w with
  | ok b =>
      rw [ends_ok, Exec.bind_ok hdata]
      exact hk data b
  | error e => exact error_bind_appendedTo (List.prefix_refl data) hdata

/-- What was appended is counted by the length of the buffer. -/
theorem measured_appends {x : Call Unit} {w : Except BinaryWriterError Bytes}
    (h : Appends x (ends (fun _ => ()) w)) : Appends (measured x) (ends List.length w) := by
  refine appends_after (fun data _ => Exec.gets List.length >>= fun after =>
    if data.length ≤ after then pure (after - data.length) else fail .sizeOverflow) h
    (fun _ => rfl) ?_
  intro data b
  have hlen : (data ++ b).length = data.length + b.length := List.length_append
  show (if data.length ≤ (data ++ b).length then pure ((data ++ b).length - data.length)
    else fail .sizeOverflow : Call Nat) (data ++ b) = _
  rw [hlen, if_pos (by omega), Nat.add_sub_cancel_left]
  rfl

/-- What a block has around the bytes of its value. -/
def blockBody (max : Option Nat) (b : Bytes) : Except BinaryWriterError Bytes :=
  match max with
  | some max => if b.length > max then throwKind (.bound max b.length) else bodyDynamic b
  | none => bodyDynamic b

/-- An error leaves the buffer as it is. -/
theorem fail_appendedTo {data data' : Bytes} (value : Bytes → α) {kind : SerError}
    (h : kind ≠ .panicked) (hstart : data <+: data') :
    (ends value (throwKind kind)).AppendedTo data ((fail kind : Call α) data') := by
  rw [ends_throwKind value h]
  exact ⟨rfl, hstart⟩

theorem putSize_appendedTo (max : Option Nat) (data b : Bytes) :
    (ends (fun _ => ()) (blockBody max b)).AppendedTo data
      (putSize max data.length b.length (data ++ toBe 4 0 ++ b)) := by
  have hstart : data <+: data ++ toBe 4 0 ++ b := by
    rw [List.append_assoc]
    exact List.prefix_append data _
  -- The size alone, once the bound is respected.
  have hsize : (ends (fun _ => ()) (bodyDynamic b)).AppendedTo data
      ((if b.length < 2 ^ 32 then Exec.modify (patchSize · data.length b.length)
        else fail .sizeOverflow : Call Unit) (data ++ toBe 4 0 ++ b)) := by
    rw [bodyDynamic]
    split
    · show (Outcome.ok (), patchSize (data ++ toBe 4 0 ++ b) data.length b.length) = _
      rw [patchSize_eq]
      simp
    · exact fail_appendedTo _ (by simp) hstart
  cases max with
  | none => exact hsize
  | some max =>
      rw [blockBody]
      by_cases hmax : b.length > max
      · rw [if_pos hmax]
        have hrun : putSize (some max) data.length b.length (data ++ toBe 4 0 ++ b) =
            (fail (.bound max b.length) : Call Unit) (data ++ toBe 4 0 ++ b) := by
          simp only [putSize, if_pos hmax]
          rfl
        rw [hrun]
        exact fail_appendedTo _ (by simp) hstart
      · rw [if_neg hmax]
        have hrun : putSize (some max) data.length b.length (data ++ toBe 4 0 ++ b) =
            (if b.length < 2 ^ 32 then Exec.modify (patchSize · data.length b.length)
              else fail .sizeOverflow : Call Unit) (data ++ toBe 4 0 ++ b) := by
          simp only [putSize, if_neg hmax]
        rw [hrun]
        exact hsize

/-- The size of a block is written over the placeholder, which the block has
appended itself. -/
theorem block_appends {x : Call Nat} {w : Except BinaryWriterError Bytes} (max : Option Nat)
    (h : Appends x (ends List.length w)) :
    Appends (block max x) (ends List.length (w >>= blockBody max)) := by
  refine measured_appends ?_
  intro data
  change (ends _ _).AppendedTo data ((x >>= putSize max data.length) (data ++ toBe 4 0))
  have hstart := List.prefix_append data (toBe 4 0)
  have hdata := h (data ++ toBe 4 0)
  cases w with
  | error e =>
      have hbind : (Except.error e >>= blockBody max) = .error e := rfl
      rw [hbind]
      exact error_bind_appendedTo hstart hdata
  | ok b =>
      rw [Exec.bind_ok hdata]
      exact putSize_appendedTo max data b

/-- The bytes of an array of bytes. -/
theorem putU8s_appends (values : List Value) :
    Appends (putU8s values) (ends (fun _ => ()) ((listToU8s .notBytes values).mapError .ofKind)) := by
  induction values with
  | nil => exact pure_appends rfl
  | cons value values ih =>
      cases value with
      | uint8 b =>
          refine (seq_appends (put_appends [b]) fun _ _ => ih).congr (congrArg (ends _) ?_)
          rw [listToU8s]
          cases listToU8s .notBytes values <;> rfl
      | _ => exact fail_appends _ nofun

theorem encodeElements_appends {encode : Value → Call Nat}
    {spec : Value → Except BinaryWriterError Bytes}
    (h : ∀ v, Appends (encode v) (ends List.length (spec v))) (values : List Value) :
    Appends (encodeElements encode values) (ends (fun _ => ()) (bodyElements spec values)) := by
  induction values with
  | nil => exact pure_appends rfl
  | cons v values ih =>
      have helement := (h v).mapErr BinaryWriterError.elementOf
      have hkind : ∀ e : BinaryWriterError, e.elementOf.kind = e.kind := fun _ => rfl
      rw [ends_mapErr _ hkind] at helement
      refine (seq_appends helement fun _ _ => ih).congr (congrArg (ends _) ?_)
      rw [bodyElements]
      cases spec v <;> rfl

theorem encodeString_appends (v : String) :
    Appends (encodeString v) (ends List.length (bodyString v)) := by
  refine (seq_appends (put_appends (toBe 4 (utf8 v).length)) fun b hb =>
    seq_appends (put_appends (utf8 v)) fun b' hb' => addSize_appends ?_).congr (congrArg (ends _) ?_)
  · cases hb
    cases hb'
    simp
  · rw [bodyString]
    split <;> simp [Except.map, bind, Except.bind, throwKind]

/-- The presence byte counts as written. -/
theorem present_appends (marker : UInt8) {x : Call Nat} {w : Except BinaryWriterError Bytes}
    (h : Appends x (ends List.length w)) :
    Appends (present marker x) (ends List.length (w >>= bodyPresent marker)) := by
  refine (seq_appends (put_appends [marker]) fun b hb =>
    seq_appends h fun b' hb' => addSize_appends ?_).congr (congrArg (ends _) ?_)
  · cases hb
    simp [Nat.add_comm]
  · cases w with
    | error e => rfl
    | ok b =>
        by_cases hlt : 1 + b.length < 2 ^ 64
        · simp only [bind, Except.bind, Except.map, bodyPresent, if_pos hlt]
          simp
        · simp only [bind, Except.bind, Except.map, bodyPresent, if_neg hlt, throwKind]

theorem zLong_appends (negative : Bool) (bytes : Bytes) :
    Appends (zLong negative bytes)
      (ends List.length ((zBytes.zLong negative bytes).mapError .ofKind)) := by
  rw [zLong, zBytes.zLong]
  dsimp only
  generalize (trimLeft (bitsOfBytes bytes)).reverse = bits
  by_cases hshort : bits.length < 6
  · rw [if_pos hshort, if_pos hshort]
    exact fail_appends _ nofun
  · rw [if_neg hshort, if_neg hshort]
    refine measured_appends ?_
    have hfirst := put_appends [setBits (if negative then 0xC0 else 0x80) 0 (bits.take 6)]
    by_cases hnil : (bits.drop 6).length = 0
    · simp only [if_pos hnil]
      exact (hfirst.bind fun _ _ _ => Exec.appends_abort).congr rfl
    · simp only [if_neg hnil]
      exact (hfirst.bind fun _ _ _ => Exec.appends_put _).congr rfl

theorem encodeZ_appends (value : String) :
    Appends (encodeZ value) (ends List.length ((zBytes value).mapError .ofKind)) := by
  rw [encodeZ, zBytes]
  cases value.toList with
  | nil => exact fail_appends _ (by simp)
  | cons sign chars =>
    by_cases hascii : 128 ≤ sign.toNat
    · simp only [if_pos hascii]
      exact fail_appends _ (by simp)
    · simp only [if_neg hascii]
      generalize (utf8 value).drop (if sign.isAlphanum then 0 else 1) = text
      cases hexDecode (if text.length % 2 = 1 then 48 :: text else text) with
      | none => exact fail_appends _ (by simp)
      | some bytes =>
          rcases bytes with _ | ⟨byte, _ | ⟨second, rest⟩⟩
          · exact zLong_appends _ _
          · by_cases hle : byte ≤ 0x3F
            · simp only [if_pos hle]
              exact putCounted_appends _
            · simp only [if_neg hle]
              exact zLong_appends _ _
          · exact zLong_appends _ _

theorem writeTagId_appends (tagSize tagId : Nat) :
    Appends (writeTagId tagSize tagId) (ends (fun _ => ()) (bodyTagId tagSize tagId)) := by
  match tagSize with
  | 1 | 2 => exact put_appends _
  | 0 => exact fail_appends _ (by simp)
  | n + 3 =>
      rw [bodyTagId, if_neg (by omega)]
      exact fail_appends _ (by simp)

/-! ## Merkle paths -/

/-- How a call on a path ends for which the codec without a buffer gives `r`. -/
def pathEnds {β : Type} (r : Except SerError (Bytes × β)) : Outcome BinaryWriterError (β × Bytes) :=
  match r with
  | .ok (b, a) => .ok (a, b)
  | .error kind => .err (.ofKind kind)

theorem listToU8s_error {onOther kind : SerError} {values : List Value}
    (h : listToU8s onOther values = .error kind) : kind = onOther := by
  induction values with
  | nil => cases h
  | cons value values ih =>
      cases value with
      | uint8 b =>
          rw [listToU8s] at h
          cases hrest : listToU8s onOther values with
          | ok bytes => simp [hrest, bind, Except.bind, pure, Except.pure] at h
          | error e =>
              rw [hrest] at h
              cases h
              exact ih hrest
      | _ =>
          cases h
          rfl

theorem mismatch_appends {β : Type} :
    Appends (fail .encodingMismatch : Call β) (pathEnds (.error .encodingMismatch)) :=
  Exec.appends_fail _

theorem hashBytes_appends (bytes : Value) :
    Appends (hashBytes bytes) (pathEnds ((pathBytes bytes).map fun hash => ([], hash))) := by
  rw [hashBytes]
  cases h : pathBytes bytes with
  | ok hash => exact Exec.appends_pure hash
  | error kind => exact Exec.appends_fail _

/-- What the codec without a buffer does with the only field of a step. -/
theorem encodePathItem_field (field : String) (bytes : Value) :
    NodeFuzzer.encodePathItem (.tag "Left" (.record [(field, bytes)])) =
        (if field = "right" then (pathBytes bytes).map fun hash => ([0xF0], some hash)
          else .error .encodingMismatch) ∧
      NodeFuzzer.encodePathItem (.tag "Right" (.record [(field, bytes)])) =
        (if field = "left" then (pathBytes bytes).map fun hash => (0x0F :: hash, none)
          else .error .encodingMismatch) := by
  cases bytes with
  | list values =>
      simp only [NodeFuzzer.encodePathItem, pathBytes]
      cases listToU8s .encodingMismatch values <;> exact ⟨rfl, rfl⟩
  | _ => simp [NodeFuzzer.encodePathItem, pathBytes, Except.map]

theorem encodeLeft_appends (inner : Value) :
    Appends (encodeLeft inner) (pathEnds (NodeFuzzer.encodePathItem (.tag "Left" inner))) := by
  cases inner with
  | record fields =>
      match fields with
      | [] => exact mismatch_appends
      | field :: field' :: fields =>
          have hitem : NodeFuzzer.encodePathItem
              (.tag "Left" (.record (field :: field' :: fields))) = .error .encodingMismatch := by
            simp [NodeFuzzer.encodePathItem]
          rw [hitem]
          exact mismatch_appends
      | [(field, bytes)] =>
          rw [(encodePathItem_field field bytes).1, encodeLeft]
          by_cases hfield : field = "right"
          · rw [if_pos hfield, if_pos hfield]
            refine ((Exec.appends_put [0xF0]).bind fun _ _ _ =>
              (hashBytes_appends bytes).bind fun hash _ _ => Exec.appends_pure (some hash)).congr ?_
            cases pathBytes bytes <;> rfl
          · rw [if_neg hfield, if_neg hfield]
            exact mismatch_appends
  | _ => exact mismatch_appends

theorem encodeRight_appends (inner : Value) :
    Appends (encodeRight inner) (pathEnds (NodeFuzzer.encodePathItem (.tag "Right" inner))) := by
  cases inner with
  | record fields =>
      match fields with
      | [] => exact mismatch_appends
      | field :: field' :: fields =>
          have hitem : NodeFuzzer.encodePathItem
              (.tag "Right" (.record (field :: field' :: fields))) = .error .encodingMismatch := by
            simp [NodeFuzzer.encodePathItem]
          rw [hitem]
          exact mismatch_appends
      | [(field, bytes)] =>
          rw [(encodePathItem_field field bytes).2, encodeRight]
          by_cases hfield : field = "left"
          · rw [if_pos hfield, if_pos hfield]
            refine ((Exec.appends_put [0x0F]).bind fun _ _ _ =>
              (hashBytes_appends bytes).bind fun hash _ _ =>
                (Exec.appends_put hash).bind fun _ _ _ => Exec.appends_pure none).congr ?_
            cases pathBytes bytes with
            | ok hash => simp [pathEnds, Outcome.followedBy, Except.map]
            | error kind => rfl
          · rw [if_neg hfield, if_neg hfield]
            exact mismatch_appends
  | _ => exact mismatch_appends

theorem encodePathItem_appends (item : Value) :
    Appends (encodePathItem item) (pathEnds (NodeFuzzer.encodePathItem item)) := by
  cases item with
  | tag name inner =>
      rw [encodePathItem]
      by_cases hleft : name = "Left"
      · rw [if_pos hleft, hleft]
        exact encodeLeft_appends inner
      · rw [if_neg hleft]
        by_cases hright : name = "Right"
        · rw [if_pos hright, hright]
          exact encodeRight_appends inner
        · have hitem : NodeFuzzer.encodePathItem (.tag name inner) = .error .encodingMismatch := by
            rw [NodeFuzzer.encodePathItem.eq_def]
            simp only [if_neg hleft, if_neg hright]
          rw [if_neg hright, hitem]
          exact mismatch_appends
  | _ => exact mismatch_appends

theorem encodePathItems_appends (items : List Value) (tails : List (Option Bytes)) :
    Appends (encodePathItems items tails)
      (pathEnds ((items.mapM NodeFuzzer.encodePathItem).map fun parts =>
        ((parts.map Prod.fst).flatten, (parts.map Prod.snd).reverse ++ tails))) := by
  induction items generalizing tails with
  | nil => exact Exec.appends_pure tails
  | cons item items ih =>
      refine ((encodePathItem_appends item).bind fun tail _ _ => ih (tail :: tails)).congr ?_
      rw [List.mapM_cons]
      cases NodeFuzzer.encodePathItem item with
      | error kind => rfl
      | ok part =>
          cases items.mapM NodeFuzzer.encodePathItem with
          | error kind => rfl
          | ok parts =>
              simp [pathEnds, Outcome.followedBy, bind, Except.bind, Except.map, pure, Except.pure]

theorem encodePathItem_error {item : Value} {kind : SerError}
    (h : NodeFuzzer.encodePathItem item = .error kind) : kind = .encodingMismatch := by
  have hbytes : ∀ {values : List Value} {part : Bytes → Bytes × Option Bytes},
      (do let hash ← listToU8s .encodingMismatch values; return part hash) = .error kind →
        kind = .encodingMismatch := by
    intro values part h
    cases hu8s : listToU8s .encodingMismatch values with
    | ok hash =>
        rw [hu8s] at h
        cases h
    | error e =>
        rw [hu8s] at h
        cases h
        exact listToU8s_error hu8s
  rw [NodeFuzzer.encodePathItem.eq_def] at h
  repeat' split at h
  all_goals first | (cases h; rfl) | exact hbytes h

theorem mapM_encodePathItem_error {items : List Value} {kind : SerError}
    (h : items.mapM NodeFuzzer.encodePathItem = .error kind) : kind = .encodingMismatch := by
  induction items with
  | nil => cases h
  | cons item items ih =>
      rw [List.mapM_cons] at h
      cases hitem : NodeFuzzer.encodePathItem item with
      | error kind' =>
          rw [hitem] at h
          cases h
          exact encodePathItem_error hitem
      | ok part =>
          cases hrest : items.mapM NodeFuzzer.encodePathItem with
          | error kind' =>
              rw [hitem, hrest] at h
              cases h
              exact ih hrest
          | ok parts =>
              rw [hitem, hrest] at h
              cases h

theorem encodePath_appends (items : List Value) :
    Appends (encodePath (.list items))
      (ends List.length (((items.mapM NodeFuzzer.encodePathItem).map bodyPath).mapError .ofKind)) := by
  refine measured_appends (((encodePathItems_appends items []).bind fun tails _ _ =>
    (Exec.appends_put [0x00]).bind fun _ _ _ =>
      Exec.appends_put (tails.filterMap id).flatten).congr ?_)
  cases h : items.mapM NodeFuzzer.encodePathItem with
  | error kind =>
      cases mapM_encodePathItem_error h
      rfl
  | ok parts => simp [pathEnds, Outcome.followedBy, Except.map, Except.mapError, bodyPath, ends]

/-! ## The writer appends -/

/-- The tag of a variant is found by its id. -/
theorem bodyTag_isSome {variant : String} {id : Nat} {v : Value} : ∀ {tags : TagMap},
    tags.idOfVariant variant = some id → (bodyTag tags id v).isSome
  | .nil, h => nomatch h
  | .cons id' variant' encoding rest, h => by
      rw [bodyTag]
      cases hrest : bodyTag rest id v with
      | some w => rfl
      | none =>
          rw [TagMap.idOfVariant] at h
          cases hid : rest.idOfVariant variant with
          | some i =>
              rw [hid] at h
              cases h
              have hsome := bodyTag_isSome (v := v) hid
              rw [hrest] at hsome
              cases hsome
          | none =>
              simp only [hid] at h
              split at h
              · cases h
                simp
              · cases h

/-- A check of the size that was written. -/
theorem check_appends {x : Call Nat} {w : Except BinaryWriterError Bytes} {c : Nat → Prop}
    [DecidablePred c] {kind : Nat → SerError} (hkind : ∀ n, kind n ≠ .panicked)
    (h : Appends x (ends List.length w)) :
    Appends (x >>= fun n => if c n then pure n else fail (kind n))
      (ends List.length (w >>= fun b => if c b.length then .ok b else throwKind (kind b.length))) := by
  have hcheck : ∀ b : Bytes, Appends (if c b.length then pure b.length else fail (kind b.length))
      (ends (fun b' => (b ++ b').length)
        (if c b.length then .ok [] else throwKind (kind b.length))) := by
    intro b
    split
    · exact pure_appends (by simp)
    · exact fail_appends _ (hkind _)
  refine (seq_appends h fun b _ => hcheck b).congr (congrArg (ends _) ?_)
  cases w with
  | error e => rfl
  | ok b =>
      by_cases hc : c b.length
      · simp [bind, Except.bind, Except.map, hc]
      · simp [bind, Except.bind, Except.map, hc, throwKind]

/-- A part of a record or a tuple, after `size` bytes of it, and the rest. -/
theorem part_appends {x : Call Nat} {w : Except BinaryWriterError Bytes} {size : Nat}
    {f : Nat → Call Nat} {k : Bytes → Except BinaryWriterError Bytes}
    (hx : Appends x (ends List.length w))
    (hf : ∀ b, Appends (f (size + b.length)) (ends (fun b' => size + b.length + b'.length) (k b))) :
    Appends (x >>= fun n => addSize size n >>= f)
      (ends (fun b => size + b.length) (w >>= fun b =>
        if size + b.length < 2 ^ 64 then (k b).map (b ++ ·) else throwKind .sizeOverflow)) := by
  have hrest : ∀ b : Bytes, Appends (addSize size b.length >>= f)
      (ends (fun b' => size + (b ++ b').length)
        (if size + b.length < 2 ^ 64 then k b else throwKind .sizeOverflow)) := by
    intro b
    have hvalue : (fun b' : Bytes => size + (b ++ b').length) =
        fun b' => size + b.length + b'.length := by
      funext b'
      rw [List.length_append, Nat.add_assoc]
    rw [hvalue]
    by_cases hlt : size + b.length < 2 ^ 64
    · have hadd : addSize size b.length = pure (size + b.length) := by
        rw [addSize, checkedAdd, if_pos hlt]
        rfl
      rw [hadd, if_pos hlt]
      exact hf b
    · have hadd : addSize size b.length = fail .sizeOverflow := by
        rw [addSize, checkedAdd, if_neg hlt]
        rfl
      rw [hadd, if_neg hlt]
      exact fail_appends _ nofun
  refine (seq_appends hx fun b _ => hrest b).congr (congrArg (ends _) ?_)
  cases w with
  | error e => rfl
  | ok b =>
      by_cases hlt : size + b.length < 2 ^ 64
      · simp only [bind, Except.bind, if_pos hlt]
      · simp only [bind, Except.bind, if_neg hlt]
        rfl

/-! ### One lemma for each kind of encoding -/

section Cases

-- Each case is by the equations of the writer and of the body.
attribute [local simp] encodeValue body

theorem encodeUint_appends {e : Encoding} (h : e = .int31 ∨ e = .uint32) (v : Value) :
    Appends (encodeValue e v) (ends List.length (body e v)) := by
  rcases h with rfl | rfl <;> cases v with
  | int32 v =>
      rw [encodeValue, body]
      split
      · exact putCounted_appends _
      · exact fail_appends _ nofun
  | _ => exact fail_appends _ nofun

theorem encodeBoundedString_appends (max : Nat) (v : Value) :
    Appends (encodeValue (.boundedString max) v) (ends List.length (body (.boundedString max) v)) := by
  cases v with
  | string v =>
      rw [encodeValue, body]
      split
      · exact fail_appends _ nofun
      · exact encodeString_appends v
  | _ => exact fail_appends _ nofun

theorem encodeEnum_appends (v : Value) :
    Appends (encodeValue .enum v) (ends List.length (body .enum v)) := by
  cases v with
  | enum name ordinal =>
      cases ordinal with
      | none => exact fail_appends _ nofun
      | some ordinal =>
          rw [encodeValue, body]
          split
          · exact putCounted_appends _
          · exact fail_appends _ nofun
  | _ => exact fail_appends _ nofun

theorem encodeBytes_appends (v : Value) :
    Appends (encodeValue .bytes v) (ends List.length (body .bytes v)) := by
  cases v with
  | list values => exact measured_appends (putU8s_appends values)
  | _ => exact fail_appends _ nofun

theorem encodeHash_appends (hashType : HashType) (v : Value) :
    Appends (encodeValue (.hash hashType) v) (ends List.length (body (.hash hashType) v)) := by
  cases v with
  | list values =>
      exact check_appends (c := (· = hashType.size)) (fun _ => nofun)
        (measured_appends (putU8s_appends values))
  | _ => exact fail_appends _ nofun

section Inner

-- The encoding inside appends its body.
variable {inner : Encoding}
  (ih : ∀ v : Value, Appends (encodeValue inner v) (ends List.length (body inner v)))

include ih

theorem encodeList_appends (v : Value) :
    Appends (encodeValue (.list inner) v) (ends List.length (body (.list inner) v)) := by
  cases v with
  | list values => exact measured_appends (encodeElements_appends ih values)
  | _ => exact fail_appends _ nofun

theorem encodeBoundedList_appends (max : Nat) (v : Value) :
    Appends (encodeValue (.boundedList max inner) v)
      (ends List.length (body (.boundedList max inner) v)) := by
  cases v with
  | list values =>
      rw [encodeValue, body]
      split
      · exact fail_appends _ nofun
      · exact measured_appends (encodeElements_appends ih values)
  | _ => exact fail_appends _ nofun

theorem encodeOption_appends (v : Value) :
    Appends (encodeValue (.option inner) v) (ends List.length (body (.option inner) v)) := by
  cases v with
  | option v =>
      cases v with
      | none => exact putCounted_appends _
      | some v => exact present_appends _ (ih v)
  | _ => exact fail_appends _ nofun

theorem encodeOptionalField_appends (v : Value) :
    Appends (encodeValue (.optionalField inner) v)
      (ends List.length (body (.optionalField inner) v)) := by
  cases v with
  | option v =>
      cases v with
      | none => exact putCounted_appends _
      | some v => exact present_appends _ (ih v)
  | _ => exact fail_appends _ nofun

end Inner

/-- The id of a tag and the value behind it. -/
theorem encodeTagged_appends {tagSize id : Nat} {x : Call Nat}
    {w : Except BinaryWriterError Bytes} (h : Appends x (ends List.length w)) :
    Appends (measured (writeTagId tagSize id >>= fun _ => x >>= fun _ => pure ()))
      (ends List.length (bodyTagId tagSize id >>= fun t => w.map (t ++ ·))) := by
  have hdone : Appends (pure () : Call Unit) (ends (fun _ => ()) (.ok [])) := pure_appends rfl
  have htag : Appends (x >>= fun _ => pure ())
      (ends (fun _ => ()) (w >>= fun b => (Except.ok []).map (b ++ ·))) :=
    seq_appends h fun _ _ => hdone
  refine measured_appends ((seq_appends (writeTagId_appends tagSize id)
    fun _ _ => htag).congr (congrArg (ends _) ?_))
  cases bodyTagId tagSize id with
  | error e => rfl
  | ok t => cases w <;> simp [bind, Except.bind, Except.map]

theorem encodeTags_appends (tagSize : Nat) {tagMap : TagMap}
    (ih : ∀ (id : Nat) (v : Value) (w : Except BinaryWriterError Bytes),
      bodyTag tagMap id v = some w →
        ∃ x, encodeTag tagMap id v = some x ∧ Appends x (ends List.length w)) (v : Value) :
    Appends (encodeValue (.tags tagSize tagMap) v)
      (ends List.length (body (.tags tagSize tagMap) v)) := by
  cases v with
  | tag variant v =>
      rw [encodeValue, body]
      cases hid : tagMap.idOfVariant variant with
      | none => exact fail_appends _ nofun
      | some id =>
          obtain ⟨w, hw⟩ := Option.isSome_iff_exists.mp (bodyTag_isSome (v := v) hid)
          obtain ⟨x, hx, happends⟩ := ih id v w hw
          simp only [hx, hw]
          exact encodeTagged_appends happends
  | enum variant ordinal =>
      cases variant with
      | none => exact fail_appends _ nofun
      | some variant =>
          rw [encodeValue, body]
          cases tagMap.findByVariant variant with
          | none => exact fail_appends _ nofun
          | some tag => exact measured_appends (writeTagId_appends _ _)
  | _ => exact fail_appends _ nofun

/-- Counting from zero is measuring. -/
theorem ends_from_zero (w : Except BinaryWriterError Bytes) :
    ends (fun b : Bytes => 0 + b.length) w = ends List.length w := by
  have hcount : (fun b : Bytes => 0 + b.length) = List.length := funext fun _ => Nat.zero_add _
  rw [hcount]

end Cases

mutual

/-- The writer appends what the writer without a buffer gives for the value. -/
theorem encodeValue_appends : (e : Encoding) → (v : Value) →
    Appends (encodeValue e v) (ends List.length (body e v))
  | .unit, _ => pure_appends rfl
  | .int8, v | .uint8, v | .int16, v | .uint16, v | .int32, v | .int64, v | .timestamp, v
  | .float, v | .bool, v => by
      cases v <;> first | exact fail_appends _ nofun | exact putCounted_appends _
  | .int31, v => encodeUint_appends (.inl rfl) v
  | .uint32, v => encodeUint_appends (.inr rfl) v
  | .rangedInt, _ | .rangedFloat, _ => fail_appends _ nofun
  | .z, v | .mutez, v => by
      cases v <;> first | exact fail_appends _ nofun | exact encodeZ_appends _
  | .string, v => by
      cases v <;> first | exact fail_appends _ nofun | exact encodeString_appends _
  | .boundedString max, v => encodeBoundedString_appends max v
  | .enum, v => encodeEnum_appends v
  | .list inner, v => encodeList_appends (encodeValue_appends inner) v
  | .boundedList max inner, v => encodeBoundedList_appends (encodeValue_appends inner) max v
  | .bytes, v => encodeBytes_appends v
  | .hash hashType, v => encodeHash_appends hashType v
  | .option inner, v => encodeOption_appends (encodeValue_appends inner) v
  | .optionalField inner, v => encodeOptionalField_appends (encodeValue_appends inner) v
  | .dynamic inner, v => block_appends none (encodeValue_appends inner v)
  | .boundedDynamic max inner, v => block_appends (some max) (encodeValue_appends inner v)
  | .sized size inner, v =>
      check_appends (c := (· = size)) (fun _ => nofun) (encodeValue_appends inner v)
  | .bounded max inner, v =>
      check_appends (c := (· ≤ max)) (fun _ => nofun) (encodeValue_appends inner v)
  | .greedy inner, v => encodeValue_appends inner v
  | .tags tagSize tagMap, v =>
      encodeTags_appends tagSize (fun id v => (encodeTag_appends tagMap id v).2) v
  | .custom, v => by
      cases v with
      | list items => exact encodePath_appends items
      | _ => exact fail_appends _ nofun
  | .obj name schema, v => by
      cases v with
      | record values => exact ends_from_zero _ ▸ encodeFields_appends schema values 0
      | _ => exact fail_appends _ nofun
  | .tup encodings, v => by
      cases v with
      | tuple values => exact ends_from_zero _ ▸ encodeItems_appends encodings values 0
      | _ => exact fail_appends _ nofun

theorem encodeFields_appends : (fields : FieldList) → (values : List (String × Value)) →
    (size : Nat) → Appends (encodeFields fields values size)
      (ends (fun b => size + b.length) (bodyFields fields values size))
  | .nil, _, _ => pure_appends rfl
  | .cons name encoding rest, values, size => by
      rw [encodeFields, bodyFields]
      cases findValueInRecordValues name values with
      | none => exact fail_appends _ nofun
      | some value =>
          have hvalue := (encodeValue_appends encoding value).mapErr (BinaryWriterError.field name)
          have hkind : ∀ e, (BinaryWriterError.field name e).kind = e.kind := fun _ => rfl
          rw [ends_mapErr _ hkind] at hvalue
          dsimp only
          refine (part_appends hvalue fun b =>
            encodeFields_appends rest values (size + b.length)).congr (congrArg (ends _) ?_)
          cases body encoding value <;> rfl

theorem encodeItems_appends : (items : EncodingList) → (values : List Value) → (size : Nat) →
    Appends (encodeItems items values size)
      (ends (fun b => size + b.length) (bodyItems items values size))
  | .nil, _, _ => pure_appends rfl
  | .cons _ _, [], _ => fail_appends _ nofun
  | .cons encoding rest, value :: values, size => by
      rw [encodeItems, bodyItems]
      refine (part_appends (encodeValue_appends encoding value) fun b =>
        encodeItems_appends rest values (size + b.length)).congr (congrArg (ends _) ?_)
      cases body encoding value <;> rfl

theorem encodeTag_appends : (tags : TagMap) → (id : Nat) → (v : Value) →
    (bodyTag tags id v = none → encodeTag tags id v = none) ∧
      ∀ w, bodyTag tags id v = some w →
        ∃ x, encodeTag tags id v = some x ∧ Appends x (ends List.length w)
  | .nil, _, _ => ⟨fun _ => rfl, nofun⟩
  | .cons id' _ encoding rest, id, v => by
      obtain ⟨hnone, hsome⟩ := encodeTag_appends rest id v
      rw [bodyTag, encodeTag]
      cases hrest : bodyTag rest id v with
      | some w =>
          obtain ⟨x, hx, happends⟩ := hsome w hrest
          rw [hx]
          refine ⟨nofun, ?_⟩
          intro w' hw'
          cases hw'
          exact ⟨x, rfl, happends⟩
      | none =>
          rw [hnone hrest]
          dsimp only
          by_cases hid : id' = id
          · simp only [if_pos hid]
            refine ⟨nofun, ?_⟩
            intro w hw
            cases hw
            exact ⟨_, rfl, encodeValue_appends encoding v⟩
          · rw [if_neg hid, if_neg hid]
            exact ⟨fun _ => rfl, nofun⟩

end

theorem encodeAny_eq_encodeValue (v : Value) (e : Encoding) : encodeAny v e = encodeValue e v := by
  cases e with
  | obj name schema => cases v <;> rfl
  | tup encodings => cases v <;> rfl
  | _ => rfl

end Buffer

end NodeFuzzer
