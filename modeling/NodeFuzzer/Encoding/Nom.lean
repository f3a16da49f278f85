import NodeFuzzer.Library.Nom
import NodeFuzzer.Encoding.Types

/-!
# Readers of encoded values

The parsers of `tezos_encoding::nom`, from which the derived readers are put
together, and the reader of Merkle paths.  Each is followed by what it does on
an input that starts with what the writer appends.
-/

namespace NodeFuzzer.Nom

/-! ## Errors -/

/-- `BoundedEncodingKind`. -/
inductive BoundedEncodingKind where
  | string | list | dynamic | bounded
deriving DecidableEq, Repr

/-- `DecodeErrorKind`.  What the UTF-8 decoder says about the offending bytes is
left out. -/
inductive DecodeErrorKind where
  | nom (kind : ErrorKind)
  | utf8 (kind : ErrorKind)
  | boundary (kind : BoundedEncodingKind)
  | bits
  | field (name : String)
  | variant (name : String)
  | unknownTag (tag : String)
  | invalidTag (tag : String)
deriving DecidableEq, Repr

/-- `DecodeError`: the innermost error last. -/
inductive DecodeError where
  | mk (input : Bytes) (kind : DecodeErrorKind) (other : Option DecodeError)

/-- The input an error points at. -/
def DecodeError.input : DecodeError → Bytes
  | .mk input _ _ => input

/-- The kind of an error. -/
def DecodeError.kind : DecodeError → DecodeErrorKind
  | .mk _ kind _ => kind

/-- `add_field`. -/
def DecodeError.addField (name : String) (e : DecodeError) : DecodeError :=
  .mk e.input (.field name) (some e)

/-- `add_variant`. -/
def DecodeError.addVariant (name : String) (e : DecodeError) : DecodeError :=
  .mk e.input (.variant name) (some e)

/-- `limit`. -/
def DecodeError.limit (input : Bytes) (kind : BoundedEncodingKind) : DecodeError :=
  .mk input (.boundary kind) none

instance : ParseError DecodeError where
  fromErrorKind input kind := .mk input (.nom kind) none
  append input kind other := .mk input (.nom kind) (some other)

/-- `NomResult`, for the readers of this repository. -/
abbrev Reader (α : Type) : Type := Parser DecodeError α

variable {α : Type}

/-! ## Readers -/

/-- Reads a boolean value. -/
def boolean : Reader Bool :=
  alt (map (tag [BYTE_VAL_TRUE]) fun _ => true) (map (tag [BYTE_VAL_FALSE]) fun _ => false)

/-- Reads all available bytes. -/
def bytes : Reader Bytes := rest

/-- Reads a size encoded as a 4-byte big-endian number. -/
def size : Reader Nat := beNumber 4

/-- Reads a size and checks that it does not exceed `max`. -/
def boundedSize (kind : BoundedEncodingKind) (max : Nat) : Reader Nat := fun input =>
  (size input).andThen fun rest n =>
    if n ≤ max then .done rest n else .error (.limit input kind)

/-- `from_external_error` for an invalid UTF-8 sequence. -/
def utf8Error (input : Bytes) (kind : ErrorKind) : DecodeError := .mk input (.utf8 kind) none

/-- Reads a string with its length. -/
def string : Reader String :=
  mapRes utf8Error (complete (lengthData size)) fromUtf8

/-- Reads a string with its length, which must not exceed `max`. -/
def boundedString (max : Nat) : Reader String :=
  mapRes utf8Error (complete (lengthData (boundedSize .string max))) fromUtf8

/-- Applies a reader to a slice of the given size. -/
def sized (size : Nat) (f : Reader α) : Reader α := mapParser (take size) f

/-- Reads an optional field. -/
def optionalField (parser : Reader α) : Reader (Option α) :=
  alt (preceded (tag [0x00]) (success none)) (preceded (tag [0xff]) (map parser some))

/-- Applies a reader as often as it succeeds. -/
def list (f : Reader α) : Reader (List α) := many0 f

/-- Applies a reader at most `max` times; nothing may be left. -/
def boundedList (max : Nat) (f : Reader α) : Reader (List α) := fun input =>
  (foldManyMax f max [] input).andThen fun rest l =>
    if rest.length > 0 then .error (.limit rest .list) else .done rest l

/-- Reads a size and applies a reader to a slice of that size. -/
def dynamic (f : Reader α) : Reader α := lengthValue size (allConsuming f)

/-- Reads a size that must not exceed `max` and applies a reader to a slice of
that size. -/
def boundedDynamic (max : Nat) (f : Reader α) : Reader α :=
  lengthValue (boundedSize .dynamic max) (allConsuming f)

/-- The end of the input, seen through a bound, is a violation of the bound. -/
def boundaryError : DecodeError → DecodeError
  | .mk input (.nom .eof) other => .mk input (.boundary .bounded) other
  | e => e

/-- Applies a reader to at most `max` bytes of the input. -/
def bounded (max : Nat) (f : Reader α) : Reader α := fun input =>
  let max := min max input.length
  match f (input.take max) with
  | .done rest a => .done (input.drop (max - rest.length)) a
  | .error e => .error (boundaryError e)
  | .failure e => .failure e
  | .incomplete => .incomplete

/-- Adds the name of a field to an error. -/
def field (name : String) (parser : Reader α) : Reader α := fun input =>
  (parser input).mapError (.addField name)

/-- Adds the name of a variant to an error. -/
def variant (name : String) (parser : Reader α) : Reader α := fun input =>
  (parser input).mapError (.addVariant name)

/-! ## Reading what was written -/

@[simp] theorem boolean_append (v : Bool) (s : Bytes) :
    boolean ((if v then BYTE_VAL_TRUE else BYTE_VAL_FALSE) :: s) = .done s v := by
  cases v <;> simp [boolean, alt, map, tag, IResult.andThen, BYTE_VAL_TRUE, BYTE_VAL_FALSE]

/-- A size of four bytes, in front of anything. -/
theorem size_append {n : Nat} (h : n < 2 ^ 32) (s : Bytes) : size (toBe 4 n ++ s) = .done s n := by
  rw [size, beNumber_append, Nat.mod_eq_of_lt (by omega)]

theorem boundedSize_append {n max : Nat} (kind : BoundedEncodingKind) (h : n < 2 ^ 32)
    (hmax : n ≤ max) (s : Bytes) : boundedSize kind max (toBe 4 n ++ s) = .done s n := by
  rw [boundedSize, size_append h, andThen_done, if_pos hmax]

/-- The reader of a string, whichever way it reads the length. -/
theorem mapRes_string_append {len : Reader Nat} {v : String} {input s : Bytes}
    (h : len input = .done (utf8 v ++ s) (utf8 v).length) :
    mapRes utf8Error (complete (lengthData len)) fromUtf8 input = .done s v := by
  simp [mapRes, complete, lengthData_append h]

/-- What was written as a string is read as this string. -/
theorem string_append {v : String} (h : (utf8 v).length < 2 ^ 32) (s : Bytes) :
    string (toBe 4 (utf8 v).length ++ utf8 v ++ s) = .done s v := by
  rw [List.append_assoc]
  exact mapRes_string_append (size_append h _)

theorem boundedString_append {v : String} {max : Nat} (h : (utf8 v).length < 2 ^ 32)
    (hmax : (utf8 v).length ≤ max) (s : Bytes) :
    boundedString max (toBe 4 (utf8 v).length ++ utf8 v ++ s) = .done s v := by
  rw [List.append_assoc]
  exact mapRes_string_append (boundedSize_append .string h hmax _)

/-- A block is read to its end. -/
theorem sized_append {f : Reader α} {b s : Bytes} {a : α} (h : f b = .done [] a) :
    sized b.length f (b ++ s) = .done s a := by
  rw [sized, mapParser, take_append rfl, andThen_done, h, andThen_done]

@[simp] theorem optionalField_none (f : Reader α) (s : Bytes) :
    optionalField f (BYTE_FIELD_NONE :: s) = .done s none := by
  simp [optionalField, alt, preceded, tag, success, BYTE_FIELD_NONE]

/-- The byte tells that there is a value. -/
theorem optionalField_some {f : Reader α} {b s : Bytes} {a : α} (h : f b = .done s a) :
    optionalField f (BYTE_FIELD_SOME :: b) = .done s (some a) := by
  simp [optionalField, alt, preceded, tag, map, h, IResult.andThen, BYTE_FIELD_SOME]

/-- A block behind its size is read to its end. -/
theorem dynamic_append {f : Reader α} {b s : Bytes} {a : α} (hb : b.length < 2 ^ 32)
    (h : f b = .done [] a) : dynamic f (toBe 4 b.length ++ b ++ s) = .done s a := by
  rw [List.append_assoc]
  exact lengthValue_append (size_append hb _) (allConsuming_done h)

theorem boundedDynamic_append {f : Reader α} {b s : Bytes} {a : α} {max : Nat}
    (hb : b.length < 2 ^ 32) (hmax : b.length ≤ max) (h : f b = .done [] a) :
    boundedDynamic max f (toBe 4 b.length ++ b ++ s) = .done s a := by
  rw [List.append_assoc]
  exact lengthValue_append (boundedSize_append .dynamic hb hmax _) (allConsuming_done h)

/-- The inner reader sees as much of the rest as the bound leaves, and has to leave it. -/
theorem bounded_append {f : Reader α} {b s : Bytes} {a : α} {max : Nat} (hmax : b.length ≤ max)
    (h : f (b ++ s.take (max - b.length)) = .done (s.take (max - b.length)) a) :
    bounded max f (b ++ s) = .done s a := by
  have hmin : min max (b ++ s).length = b.length + min (max - b.length) s.length := by
    rw [List.length_append]
    omega
  have htake : (b ++ s).take (b.length + min (max - b.length) s.length) =
      b ++ s.take (max - b.length) := by
    rw [List.take_append, List.take_of_length_le (by omega), Nat.add_sub_cancel_left,
      ← List.take_take, List.take_length]
  have hlen : (s.take (max - b.length)).length = min (max - b.length) s.length :=
    List.length_take
  have hdrop : (b ++ s).drop (b.length + min (max - b.length) s.length -
      min (max - b.length) s.length) = s := by
    simp
  simp only [bounded, hmin, htake, h, hlen, hdrop]

@[simp] theorem field_done {f : Reader α} {input s : Bytes} {a : α} {name : String}
    (h : f input = .done s a) : field name f input = .done s a := by
  rw [field, h]
  rfl

@[simp] theorem variant_done {f : Reader α} {input s : Bytes} {a : α} {name : String}
    (h : f input = .done s a) : variant name f input = .done s a := by
  rw [variant, h]
  rfl

end NodeFuzzer.Nom
