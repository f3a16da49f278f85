import NodeFuzzer.Crypto.Hash
import NodeFuzzer.Encoding.Hex

/-!
# Public keys and their hashes

`SignaturePublicKey` and `SignaturePublicKeyHash` are keys and hashes of keys of three curves.
Both are written as text, whose first characters say which curve it is, and both are made of
bytes behind a tag.  They differ in the types of their values, in the characters and in the
offsets, so that most of them is written once here.

Every value is read back from its text (`fromB58Hash_toStringRepresentation`).  The reader of
texts panics where a character is cut, and accepts some texts of other bytes
(`OnCurve.faithful_iff`); the reader of tagged keys starts one byte too late
(`fromTaggedBytes_faults`).
-/

namespace NodeFuzzer

/-! ## Curves -/

/-- The curves of signatures. -/
inductive Curve where
  | ed25519
  | secp256k1
  | p256
deriving DecidableEq

namespace Curve

/-- The name of a curve. -/
def name : Curve → String
  | .ed25519 => "ed25519"
  | .secp256k1 => "secp256k1"
  | .p256 => "p256"

/-- The tag of a curve. -/
def tag : Curve → UInt8
  | .ed25519 => 0
  | .secp256k1 => 1
  | .p256 => 2

/-- The type of the hashes of its keys. -/
def keyHash : Curve → HashType
  | .ed25519 => .contractTz1Hash
  | .secp256k1 => .contractTz2Hash
  | .p256 => .contractTz3Hash

/-- The type of its keys. -/
def publicKey : Curve → HashType
  | .ed25519 => .publicKeyEd25519
  | .secp256k1 => .publicKeySecp256k1
  | .p256 => .publicKeyP256

/-- The first characters of the text of a hash. -/
def keyHashMarker : Curve → String
  | .ed25519 => "tz1"
  | .secp256k1 => "tz2"
  | .p256 => "tz3"

/-- The first characters of the text of a key. -/
def publicKeyMarker : Curve → String
  | .ed25519 => "edpk"
  | .secp256k1 => "sppk"
  | .p256 => "p2pk"

/-- The curve that something stands for, in the order of the arms of a `match`. -/
def find {α : Type} [DecidableEq α] (of : Curve → α) (a : α) : Option Curve :=
  if a = of .ed25519 then some .ed25519
  else if a = of .secp256k1 then some .secp256k1
  else if a = of .p256 then some .p256
  else none

theorem of_find {α : Type} [DecidableEq α] {of : Curve → α} {a : α} {curve : Curve}
    (h : find of a = some curve) : a = of curve := by
  unfold find at h
  split at h
  next heq => exact Option.some.inj h ▸ heq
  next =>
    split at h
    next heq => exact Option.some.inj h ▸ heq
    next =>
      split at h
      next heq => exact Option.some.inj h ▸ heq
      next => cases h

theorem find_of {α : Type} [DecidableEq α] {of : Curve → α} (injective : Function.Injective of)
    (curve : Curve) : find of (of curve) = some curve := by
  cases curve <;> simp [find, injective.eq_iff]

theorem injective_of_nodup {α : Type} {of : Curve → α}
    (distinct : ([ed25519, secp256k1, p256].map of).Nodup) : Function.Injective of := by
  have hmem : ∀ curve, curve ∈ [ed25519, secp256k1, p256] := by
    intro curve
    cases curve <;> simp
  intro a b h
  exact List.inj_on_of_nodup_map distinct (hmem a) (hmem b) h

theorem name_injective : Function.Injective name := injective_of_nodup (by decide)

theorem tag_injective : Function.Injective tag := injective_of_nodup (by decide)

end Curve

/-! ## Values on a curve -/

/-- What the text of an `InvalidHash` error is made of. -/
inductive InvalidHash where
  | text (hash : String)
  | base58 (e : FromBase58CheckError)
  | bytes (e : FromBytesError)
  | hex
deriving DecidableEq

/-- `ConversionError`. -/
inductive ConversionError where
  | invalidPublicKey
  | invalidHash (hash : InvalidHash)
  | invalidCurveTag (curveTag : String)
deriving DecidableEq

/-- A curve and a value of its type: `SignaturePublicKeyHash` and `SignaturePublicKey`. -/
structure OnCurve (types : Curve → HashType) where
  curve : Curve
  value : TypedHash (types curve)

/-- `&s[0..len]`; `none` is the panic of a place inside of a character. -/
def sliceTo (s : String) (len : Nat) : Option String := fromUtf8 ((utf8 s).take len)

namespace OnCurve

variable {types : Curve → HashType}

section

variable [Base58] [Sha256]

/-- `to_string_representation`. -/
def toStringRepresentation (x : OnCurve types) : Outcome Empty String := x.value.toBase58Check

/-- `from_base58_check` of the type of a curve, and `?`. -/
def ofBase58Check (curve : Curve) (s : String) : Outcome ConversionError (OnCurve types) :=
  match TypedHash.fromBase58Check (types curve) s with
  | .ok value => .ok ⟨curve, value⟩
  | .error e => .err (.invalidHash (.base58 e))

/-- `from_b58_hash`, with the marker of each curve and their length. -/
def fromB58Hash (marker : Curve → String) (len : Nat) (s : String) :
    Outcome ConversionError (OnCurve types) :=
  if (utf8 s).length > len then
    match sliceTo s len with
    | some curveTag =>
        match Curve.find marker curveTag with
        | some curve => ofBase58Check curve s
        | none => .err (.invalidCurveTag curveTag)
    | none => .panic
  else .err (.invalidHash (.text s))

end

/-- `from_hex_hash_and_curve`, with the lengths of the text. -/
def fromHexHashAndCurve (lengths : List Nat) (hash curve : String) :
    Except ConversionError (OnCurve types) :=
  if (utf8 hash).length ∈ lengths then
    match hexDecode (utf8 hash) with
    | some hash =>
        match Curve.find Curve.name curve with
        | some curve =>
            match TypedHash.tryFromBytes (types curve) hash with
            | some value => .ok ⟨curve, value⟩
            | none => .error (.invalidHash (.bytes .invalidSize))
        | none => .error (.invalidCurveTag curve)
    | none => .error (.invalidHash .hex)
  else .error (.invalidHash (.text hash))

end OnCurve

/-- `SignaturePublicKeyHash`. -/
abbrev SignaturePublicKeyHash : Type := OnCurve Curve.keyHash

/-- `SignaturePublicKey`. -/
abbrev SignaturePublicKey : Type := OnCurve Curve.publicKey

namespace SignaturePublicKeyHash

/-- `from_b58_hash`. -/
def fromB58Hash [Base58] [Sha256] (s : String) : Outcome ConversionError SignaturePublicKeyHash :=
  OnCurve.fromB58Hash Curve.keyHashMarker 3 s

/-- `from_hex_hash_and_curve`. -/
def fromHexHashAndCurve (hash curve : String) : Except ConversionError SignaturePublicKeyHash :=
  OnCurve.fromHexHashAndCurve [40] hash curve

end SignaturePublicKeyHash

namespace SignaturePublicKey

/-- `from_b58_hash`. -/
def fromB58Hash [Base58] [Sha256] (s : String) : Outcome ConversionError SignaturePublicKey :=
  OnCurve.fromB58Hash Curve.publicKeyMarker 4 s

/-- `from_hex_hash_and_curve`. -/
def fromHexHashAndCurve (hash curve : String) : Except ConversionError SignaturePublicKey :=
  OnCurve.fromHexHashAndCurve [66, 64] hash curve

end SignaturePublicKey

/-! ## Text that is read back -/

/-- The texts of the values of all curves start with different markers of one length. -/
structure Markers (types : Curve → HashType) (marker : Curve → String) (len : Nat) : Prop where
  injective : Function.Injective marker
  length : ∀ curve, (utf8 (marker curve)).length = len
  /-- The bytes of a type lie between two multiples of a power of 58, the first of which has
  the marker for digits. -/
  interval : ∀ curve, ∃ m j, 0 < m ∧ 0 < j ∧
    m * 58 ^ j ≤ ofBe (types curve).base58checkPrefix * 256 ^ ((types curve).size + 4) ∧
    (ofBe (types curve).base58checkPrefix + 1) * 256 ^ ((types curve).size + 4) ≤ (m + 1) * 58 ^ j ∧
    (Radix.digits 58 m).map (fun n => UInt8.ofNat (Base58.digit n).toNat) = utf8 (marker curve)

theorem markers_keyHash : Markers Curve.keyHash Curve.keyHashMarker 3 := by
  constructor
  · exact Curve.injective_of_nodup (by decide)
  · intro curve
    cases curve <;> rfl
  · intro curve
    cases curve with
    | ed25519 => exact ⟨174870, 33, by decide +kernel⟩
    | secp256k1 => exact ⟨174871, 33, by decide +kernel⟩
    | p256 => exact ⟨174872, 33, by decide +kernel⟩

theorem markers_publicKey : Markers Curve.publicKey Curve.publicKeyMarker 4 := by
  constructor
  · exact Curve.injective_of_nodup (by decide)
  · intro curve
    cases curve <;> rfl
  · intro curve
    cases curve with
    | ed25519 => exact ⟨7343017, 50, by decide +kernel⟩
    | secp256k1 => exact ⟨9916477, 51, by decide +kernel⟩
    | p256 => exact ⟨9176397, 51, by decide +kernel⟩

namespace OnCurve

variable [Base58] [Sha256] {types : Curve → HashType} {marker : Curve → String} {len : Nat}

theorem toStringRepresentation_eq (std : Base58.Standard) (x : OnCurve types) :
    x.toStringRepresentation =
      .ok (Base58.encode (withChecksum ((types x.curve).base58checkPrefix ++ x.value.val))) :=
  TypedHash.toBase58Check_eq std x.value

theorem ofBase58Check_ne_panic (curve : Curve) (s : String) :
    (ofBase58Check curve s : Outcome ConversionError (OnCurve types)) ≠ .panic := by
  unfold ofBase58Check
  split <;> simp

theorem ofBase58Check_eq_ok_iff {curve : Curve} {s : String} {x : OnCurve types} :
    ofBase58Check curve s = .ok x ↔
      x.curve = curve ∧ (types x.curve).b58checkToHash s = .ok x.value.val := by
  rw [← TypedHash.fromBase58Check_eq_ok_iff]
  unfold ofBase58Check
  constructor
  · intro h
    split at h
    next value hread =>
      cases h
      exact ⟨rfl, hread⟩
    next => cases h
  · intro h
    obtain ⟨rfl, hread⟩ := h
    simp only [hread]

/-- What is accepted: a text that starts with the marker of a curve, and is one of its type. -/
theorem fromB58Hash_eq_ok_iff (injective : Function.Injective marker) {s : String}
    {x : OnCurve types} : fromB58Hash marker len s = .ok x ↔
      (utf8 s).length > len ∧ sliceTo s len = some (marker x.curve) ∧
        (types x.curve).b58checkToHash s = .ok x.value.val := by
  unfold fromB58Hash
  constructor
  · intro h
    split at h
    next hlong =>
      split at h
      next curveTag hslice =>
        split at h
        next curve hfind =>
          obtain ⟨rfl, hread⟩ := ofBase58Check_eq_ok_iff.mp h
          exact ⟨hlong, hslice.trans (congrArg some (Curve.of_find hfind)), hread⟩
        next => cases h
      next => cases h
    next => cases h
  · intro h
    obtain ⟨hlong, hslice, hread⟩ := h
    simp only [if_pos hlong, hslice, Curve.find_of injective]
    exact ofBase58Check_eq_ok_iff.mpr ⟨rfl, hread⟩

theorem fromB58Hash_ne_panic_iff (s : String) :
    (fromB58Hash marker len s : Outcome ConversionError (OnCurve types)) ≠ .panic ↔
      ((utf8 s).length > len → (sliceTo s len).isSome = true) := by
  unfold fromB58Hash
  split
  next hlong =>
    cases sliceTo s len with
    | some curveTag =>
        simp only [Option.isSome_some, implies_true, iff_true]
        split
        next curve _ => exact ofBase58Check_ne_panic curve s
        next => simp
    | none => simp [hlong]
  next hshort => simp [hshort]

omit [Base58] in
/-- The text of a value starts with the marker of its curve. -/
theorem sliceTo_toStringRepresentation (markers : Markers types marker len) (x : OnCurve types) :
    len < (utf8 (Base58.encode (withChecksum
        ((types x.curve).base58checkPrefix ++ x.value.val)))).length ∧
      sliceTo (Base58.encode (withChecksum
        ((types x.curve).base58checkPrefix ++ x.value.val))) len = some (marker x.curve) := by
  obtain ⟨m, j, hm, hj, low, high, hmarker⟩ := markers.interval x.curve
  obtain ⟨rest, htext, hrest⟩ := HashType.encode_front x.value.property hm low high
  have hlen := markers.length x.curve
  rw [hmarker] at htext
  constructor
  · rw [htext, List.length_append]
    omega
  · rw [sliceTo, htext, ← hlen, List.take_left, fromUtf8_utf8]

/-- Every value is read back from its text. -/
theorem fromB58Hash_toStringRepresentation (std : Base58.Standard)
    (markers : Markers types marker len) (x : OnCurve types) : ∃ s,
      x.toStringRepresentation = .ok s ∧ sliceTo s len = some (marker x.curve) ∧
        fromB58Hash marker len s = .ok x := by
  obtain ⟨hlong, hslice⟩ := sliceTo_toStringRepresentation markers x
  obtain ⟨s, hwritten, hread⟩ := HashType.b58checkToHash_hashToB58check std x.value.property
  obtain ⟨_, rfl⟩ := (HashType.hashToB58check_eq_ok_iff std).mp hwritten
  exact ⟨_, toStringRepresentation_eq std x, hslice,
    (fromB58Hash_eq_ok_iff markers.injective).mpr ⟨hlong, hslice, hread⟩⟩

/-! ## Texts that are accepted -/

/-- The reader returns, and a text that is accepted is the one of the value. -/
def Faithful (types : Curve → HashType) (marker : Curve → String) (len : Nat) (s : String) : Prop :=
  (fromB58Hash marker len s : Outcome ConversionError (OnCurve types)) ≠ .panic ∧
    ∀ x : OnCurve types, fromB58Hash marker len s = .ok x → x.toStringRepresentation = .ok s

/-- No character is cut, and behind the marker of a curve are bytes of its type, if they are as
many. -/
structure Typed (types : Curve → HashType) (marker : Curve → String) (len : Nat) (s : String) :
    Prop where
  boundary : (sliceTo s len).isSome = true
  typed : ∀ curve, sliceTo s len = some (marker curve) → ∀ p, fromBase58check s = .ok p →
    p.length = (types curve).base58checkPrefix.length + (types curve).size →
      (types curve).base58checkPrefix <+: p

/-- The text of a value is the one its hash has. -/
theorem toStringRepresentation_eq_ok_iff (std : Base58.Standard) {x : OnCurve types} {s : String} :
    x.toStringRepresentation = .ok s ↔ (types x.curve).hashToB58check x.value.val = .ok s := by
  rw [toStringRepresentation_eq std, HashType.hashToB58check_eq_ok_iff std]
  constructor
  · intro h
    cases h
    exact ⟨x.value.property, rfl⟩
  · intro h
    rw [h.2]

theorem faithful_iff (std : Base58.Standard) (markers : Markers types marker len) (s : String) :
    Faithful types marker len s ↔ ((utf8 s).length > len → Typed types marker len s) := by
  rw [Faithful, fromB58Hash_ne_panic_iff]
  constructor
  · intro h hlong
    obtain ⟨hboundary, hexact⟩ := h
    refine ⟨hboundary hlong, ?_⟩
    intro curve hslice
    refine (((types curve).b58check_text_iff std s).mp ?_)
    intro hash hread
    have hsize := (HashType.b58checkToHash_eq_ok_iff.mp hread).1
    have haccepted := (fromB58Hash_eq_ok_iff markers.injective (x := ⟨curve, hash, hsize⟩)).mpr
      ⟨hlong, hslice, hread⟩
    exact (toStringRepresentation_eq_ok_iff std).mp (hexact _ haccepted)
  · intro h
    refine ⟨fun hlong => (h hlong).boundary, ?_⟩
    intro x haccepted
    obtain ⟨hlong, hslice, hread⟩ := (fromB58Hash_eq_ok_iff markers.injective).mp haccepted
    have htyped := (h hlong).typed x.curve hslice
    exact (toStringRepresentation_eq_ok_iff std).mpr
      (((types x.curve).b58check_text_iff std s).mpr htyped _ hread)

end OnCurve

section

variable [Base58] [Sha256]

/-- Every hash of a key, and every key, is read back from its text, which starts with the
marker of its curve. -/
theorem keys_fromB58Hash_toStringRepresentation (std : Base58.Standard) :
    (∀ x : SignaturePublicKeyHash, ∃ s, x.toStringRepresentation = .ok s ∧
      sliceTo s 3 = some x.curve.keyHashMarker ∧
        SignaturePublicKeyHash.fromB58Hash s = .ok x) ∧
    ∀ x : SignaturePublicKey, ∃ s, x.toStringRepresentation = .ok s ∧
      sliceTo s 4 = some x.curve.publicKeyMarker ∧ SignaturePublicKey.fromB58Hash s = .ok x :=
  ⟨OnCurve.fromB58Hash_toStringRepresentation std markers_keyHash,
    OnCurve.fromB58Hash_toStringRepresentation std markers_publicKey⟩

/-- The readers of both kinds of text return, and accept only the texts of what they return,
exactly when they do not cut a character and find bytes of the type behind the marker. -/
theorem keys_faithful_iff (std : Base58.Standard) (s : String) :
    (OnCurve.Faithful Curve.keyHash Curve.keyHashMarker 3 s ∧
      OnCurve.Faithful Curve.publicKey Curve.publicKeyMarker 4 s) ↔
    ((utf8 s).length > 3 → OnCurve.Typed Curve.keyHash Curve.keyHashMarker 3 s) ∧
      ((utf8 s).length > 4 → OnCurve.Typed Curve.publicKey Curve.publicKeyMarker 4 s) := by
  rw [OnCurve.faithful_iff std markers_keyHash, OnCurve.faithful_iff std markers_publicKey]

end

section Sample

local instance signatureCoder : Base58 := standardBase58

local instance signatureHasher : Sha256 := tableSha256
  [(HashType.contractTz2Hash.base58checkPrefix ++ HashType.sampleKeyHash,
      HashType.sampleKeyHashDigest),
    (HashType.sampleKeyHashDigest,
      [0x4c, 0xd1, 0xbb, 0x86, 0xbf, 0x7f, 0x48, 0x29, 0x98, 0xfe, 0x2c, 0x04, 0x66, 0x4f, 0x51, 0x4a,
       0x6b, 0xcd, 0x0b, 0x5a, 0x45, 0x3e, 0xfa, 0xdf, 0xfc, 0x8e, 0xec, 0x8d, 0x95, 0x2a, 0x82, 0x97])]

/-- The hash of a key of the second curve. -/
def sampleSignatureHash : SignaturePublicKeyHash := ⟨.secp256k1, HashType.sampleKeyHash, rfl⟩

theorem keys_fromB58Hash_toStringRepresentation_sample : ∃ s,
    sampleSignatureHash.toStringRepresentation = .ok s ∧ sliceTo s 3 = some "tz2" ∧
      SignaturePublicKeyHash.fromB58Hash s = .ok sampleSignatureHash :=
  (keys_fromB58Hash_toStringRepresentation standardBase58_standard).1 sampleSignatureHash

/-- The text of the hash is accepted, and no other reader takes it for a key. -/
theorem keys_faithful_tz2 :
    SignaturePublicKeyHash.fromB58Hash "tz2BFE2MEHhphgcR7demCGQP2k1zG1iMj1oj" =
        .ok sampleSignatureHash ∧
      OnCurve.Faithful Curve.keyHash Curve.keyHashMarker 3 "tz2BFE2MEHhphgcR7demCGQP2k1zG1iMj1oj" ∧
      OnCurve.Faithful Curve.publicKey Curve.publicKeyMarker 4
        "tz2BFE2MEHhphgcR7demCGQP2k1zG1iMj1oj" := by
  have hslice : sliceTo "tz2BFE2MEHhphgcR7demCGQP2k1zG1iMj1oj" 3 = some "tz2" := by decide +kernel
  have hlonger : sliceTo "tz2BFE2MEHhphgcR7demCGQP2k1zG1iMj1oj" 4 = some "tz2B" := by decide +kernel
  have hread : fromBase58check "tz2BFE2MEHhphgcR7demCGQP2k1zG1iMj1oj" =
      .ok (HashType.contractTz2Hash.base58checkPrefix ++ HashType.sampleKeyHash) := by
    decide +kernel
  have haccepted : HashType.contractTz2Hash.b58checkToHash "tz2BFE2MEHhphgcR7demCGQP2k1zG1iMj1oj" =
      .ok HashType.sampleKeyHash := by
    decide +kernel
  refine ⟨(OnCurve.fromB58Hash_eq_ok_iff markers_keyHash.injective).mpr
    ⟨by decide +kernel, hslice, haccepted⟩, (keys_faithful_iff standardBase58_standard _).mpr
    ⟨fun _ => ⟨by rw [hslice]; rfl, ?_⟩, fun _ => ⟨by rw [hlonger]; rfl, ?_⟩⟩⟩
  · intro curve hcurve p hp _
    rw [hslice] at hcurve
    have second : curve = .secp256k1 := markers_keyHash.injective (Option.some.inj hcurve).symm
    subst second
    rw [hread] at hp
    cases hp
    exact List.prefix_append _ _
  · -- No key of a curve starts like this.
    intro curve hcurve
    rw [hlonger] at hcurve
    cases curve <;> exact absurd hcurve (by decide)

/-- Two letters and a character of two bytes, which the reader of hashes cuts. -/
theorem keys_faithful_cut : ¬ ∀ s, OnCurve.Faithful Curve.keyHash Curve.keyHashMarker 3 s ∧
    OnCurve.Faithful Curve.publicKey Curve.publicKeyMarker 4 s := by
  intro h
  have htyped := ((keys_faithful_iff standardBase58_standard "tz\u00e9").mp (h _)).1 (by decide)
  exact absurd htyped.boundary (by decide)

end Sample

/-! ## Tagged keys -/

/-- `digest_160`. -/
class Blake2b160 where
  digest160 : Bytes → Bytes
  length_digest160 : ∀ b, (digest160 b).length = 20

/-- The arms of `from_tagged_bytes`, with the lengths of the text. -/
def OnCurve.ofTag {types : Curve → HashType} (lengths : List Nat) (tag : UInt8) (bytes : Bytes) :
    Outcome ConversionError (OnCurve types) :=
  match Curve.find Curve.tag tag with
  | some curve =>
      match fromHexHashAndCurve lengths (hexEncode bytes) curve.name with
      | .ok x => .ok x
      | .error e => .err e
  | none => .err .invalidPublicKey

/-- `SignaturePublicKeyHash::from_tagged_bytes`. -/
def SignaturePublicKeyHash.fromTaggedBytes [Blake2b160] (pk : Bytes) :
    Outcome ConversionError SignaturePublicKeyHash :=
  if pk.length = 33 ∨ pk.length = 34 then
    match pk with
    | tag :: key => OnCurve.ofTag [40] tag (Blake2b160.digest160 key)
    | _ => .panic
  else .err .invalidPublicKey

/-- `SignaturePublicKey::from_tagged_bytes`. -/
def SignaturePublicKey.fromTaggedBytes (pk : Bytes) : Outcome ConversionError SignaturePublicKey :=
  if pk.length = 33 ∨ pk.length = 34 then
    match pk with
    | _ :: tag :: key => OnCurve.ofTag [66, 64] tag key
    | _ => .panic
  else .err .invalidPublicKey

/-- The name of a curve and the text of bytes give a value when the text is long enough and the
bytes are as many as the curve has. -/
theorem OnCurve.fromHexHashAndCurve_eq_ok_iff {types : Curve → HashType} {lengths : List Nat}
    {bytes : Bytes} {curve : Curve} {x : OnCurve types} :
    fromHexHashAndCurve lengths (hexEncode bytes) curve.name = .ok x ↔
      2 * bytes.length ∈ lengths ∧ x.curve = curve ∧ x.value.val = bytes := by
  unfold fromHexHashAndCurve
  simp only [utf8_hexEncode_length, hexDecode_hexEncode, Curve.find_of Curve.name_injective,
    TypedHash.tryFromBytes]
  constructor
  · intro h
    split at h
    next hlength =>
      split at h
      next value hvalue =>
        split at hvalue
        next hsize =>
          cases hvalue
          cases h
          exact ⟨hlength, rfl, rfl⟩
        next => cases hvalue
      next => cases h
    next => cases h
  · intro h
    obtain ⟨hlength, rfl, rfl⟩ := h
    rw [if_pos hlength, dif_pos x.value.property]
    rfl

theorem OnCurve.ofTag_eq_ok_iff {types : Curve → HashType} {lengths : List Nat} {tag : UInt8}
    {bytes : Bytes} {x : OnCurve types} : ofTag lengths tag bytes = .ok x ↔
      2 * bytes.length ∈ lengths ∧ x.curve.tag = tag ∧ x.value.val = bytes := by
  unfold ofTag
  constructor
  · intro h
    split at h
    next curve hfind =>
      split at h
      next y hy =>
        cases h
        obtain ⟨hlength, rfl, hvalue⟩ := fromHexHashAndCurve_eq_ok_iff.mp hy
        exact ⟨hlength, (Curve.of_find hfind).symm, hvalue⟩
      next => cases h
    next => cases h
  · intro h
    obtain ⟨hlength, rfl, hvalue⟩ := h
    simp only [Curve.find_of Curve.tag_injective,
      fromHexHashAndCurve_eq_ok_iff.mpr ⟨hlength, rfl, hvalue⟩]

/-- The reader of keys accepts a key of the first curve behind its tag and one more byte, and
nothing else. -/
theorem SignaturePublicKey.fromTaggedBytes_eq_ok_iff {pk : Bytes} {x : SignaturePublicKey} :
    SignaturePublicKey.fromTaggedBytes pk = .ok x ↔
      x.curve = .ed25519 ∧ ∃ first, pk = first :: x.curve.tag :: x.value.val := by
  unfold SignaturePublicKey.fromTaggedBytes
  constructor
  · intro h
    split at h
    next hlen =>
      split at h
      next first tag key =>
        obtain ⟨hlength, rfl, hvalue⟩ := OnCurve.ofTag_eq_ok_iff.mp h
        refine ⟨?_, first, by rw [hvalue]⟩
        have hsize := x.value.property
        rw [hvalue] at hsize
        simp only [List.length_cons, List.mem_cons, List.not_mem_nil, or_false] at hlen hlength
        -- At most 32 bytes are left, which only the keys of the first curve have.
        cases hcurve : x.curve with
        | ed25519 => rfl
        | secp256k1 | p256 =>
            rw [hcurve] at hsize
            simp only [Curve.publicKey, HashType.size] at hsize
            omega
      next => cases h
    next => cases h
  · intro h
    obtain ⟨hcurve, first, rfl⟩ := h
    have hsize : x.value.val.length = 32 := by
      rw [x.value.property, hcurve]
      rfl
    have hlen : (first :: x.curve.tag :: x.value.val).length = 34 := by
      rw [List.length_cons, List.length_cons, hsize]
    rw [if_pos (.inr hlen)]
    exact OnCurve.ofTag_eq_ok_iff.mpr ⟨by rw [hsize]; decide, rfl, rfl⟩

theorem SignaturePublicKeyHash.fromTaggedBytes_eq_ok_iff [Blake2b160] {pk : Bytes}
    {x : SignaturePublicKeyHash} : SignaturePublicKeyHash.fromTaggedBytes pk = .ok x ↔
      (pk.length = 33 ∨ pk.length = 34) ∧ ∃ key, pk = x.curve.tag :: key ∧
        x.value.val = Blake2b160.digest160 key := by
  unfold SignaturePublicKeyHash.fromTaggedBytes
  constructor
  · intro h
    split at h
    next hlen =>
      split at h
      next tag key =>
        obtain ⟨_, rfl, hvalue⟩ := OnCurve.ofTag_eq_ok_iff.mp h
        exact ⟨hlen, key, rfl, hvalue⟩
      next => cases h
    next => cases h
  · intro h
    obtain ⟨hlen, key, rfl, hvalue⟩ := h
    rw [if_pos hlen]
    refine OnCurve.ofTag_eq_ok_iff.mpr ⟨?_, rfl, hvalue⟩
    rw [Blake2b160.length_digest160]
    decide

/-- The hash of a key of a curve. -/
def SignaturePublicKeyHash.ofKey [Blake2b160] (curve : Curve) (key : Bytes) :
    SignaturePublicKeyHash :=
  ⟨curve, Blake2b160.digest160 key, by
    rw [Blake2b160.length_digest160]
    cases curve <;> rfl⟩

/-- No key is read back from its tag and its bytes; and on bytes that both readers accept, they
choose the same curve exactly when the bytes are not a key of another curve that starts with
the tag of the first. -/
theorem fromTaggedBytes_faults [Blake2b160] (pk : Bytes) :
    (∀ x : SignaturePublicKey, pk = x.curve.tag :: x.value.val →
      SignaturePublicKey.fromTaggedBytes pk ≠ .ok x) ∧
    ((∀ x y, SignaturePublicKey.fromTaggedBytes pk = .ok x →
        SignaturePublicKeyHash.fromTaggedBytes pk = .ok y → y.curve = x.curve) ↔
      ¬ (pk.length = 34 ∧ (pk[0]? = some Curve.secp256k1.tag ∨ pk[0]? = some Curve.p256.tag) ∧
        pk[1]? = some Curve.ed25519.tag)) := by
  constructor
  · intro x hpk haccepted
    obtain ⟨_, first, hpk'⟩ := SignaturePublicKey.fromTaggedBytes_eq_ok_iff.mp haccepted
    have hlen := congrArg List.length (hpk.symm.trans hpk')
    simp at hlen
  · constructor
    · intro same h
      obtain ⟨hlen, hfirst, hsecond⟩ := h
      obtain ⟨first, pk, rfl⟩ := List.exists_cons_of_length_pos (show 0 < pk.length by omega)
      simp only [List.length_cons] at hlen
      obtain ⟨second, key, rfl⟩ := List.exists_cons_of_length_pos (show 0 < pk.length by omega)
      simp only [List.length_cons] at hlen
      have hkey : key.length = Curve.ed25519.publicKey.size := Nat.succ.inj (Nat.succ.inj hlen)
      cases hsecond
      have hpublic : SignaturePublicKey.fromTaggedBytes (first :: Curve.ed25519.tag :: key) =
          .ok ⟨.ed25519, key, hkey⟩ :=
        SignaturePublicKey.fromTaggedBytes_eq_ok_iff.mpr ⟨rfl, first, rfl⟩
      have hash : ∀ curve : Curve, first = curve.tag → SignaturePublicKeyHash.fromTaggedBytes
          (first :: Curve.ed25519.tag :: key) = .ok (.ofKey curve (Curve.ed25519.tag :: key)) := by
        intro curve htag
        refine SignaturePublicKeyHash.fromTaggedBytes_eq_ok_iff.mpr ⟨.inr ?_, _, ?_, rfl⟩
        · simpa using hlen
        · rw [htag]
          rfl
      rcases hfirst with hfirst | hfirst
      · have heq : Curve.secp256k1 = Curve.ed25519 :=
          same _ _ hpublic (hash .secp256k1 (Option.some.inj hfirst))
        cases heq
      · have heq : Curve.p256 = Curve.ed25519 :=
          same _ _ hpublic (hash .p256 (Option.some.inj hfirst))
        cases heq
    · intro h x y hx hy
      obtain ⟨hcurve, first, hpk⟩ := SignaturePublicKey.fromTaggedBytes_eq_ok_iff.mp hx
      obtain ⟨_, key, hpk', _⟩ := SignaturePublicKeyHash.fromTaggedBytes_eq_ok_iff.mp hy
      have hsize : x.value.val.length = 32 := by
        rw [x.value.property, hcurve]
        rfl
      have hlen : pk.length = 34 := by
        rw [hpk, List.length_cons, List.length_cons, hsize]
      have hfirst : pk[0]? = some y.curve.tag := by
        rw [hpk']
        rfl
      have hsecond : pk[1]? = some Curve.ed25519.tag := by
        rw [hpk]
        exact congrArg (fun curve => some (Curve.tag curve)) hcurve
      rw [hcurve]
      cases hy : y.curve with
      | ed25519 => rfl
      | secp256k1 =>
          rw [hy] at hfirst
          exact absurd ⟨hlen, .inl hfirst, hsecond⟩ h
      | p256 =>
          rw [hy] at hfirst
          exact absurd ⟨hlen, .inr hfirst, hsecond⟩ h

/-- A key of the first curve. -/
def sampleKey : SignaturePublicKey :=
  ⟨.ed25519, [3, 65, 14, 206, 174, 244, 127, 36, 48, 150, 156, 243, 27, 213, 139, 41, 30, 231, 173,
    127, 97, 192, 177, 142, 31, 107, 197, 219, 246, 111, 155, 121], rfl⟩

/-- The reader takes the first byte of a key for its tag. -/
theorem fromTaggedBytes_key : ¬ ∀ x : SignaturePublicKey,
    SignaturePublicKey.fromTaggedBytes (x.curve.tag :: x.value.val) = .ok x := by
  intro h
  obtain ⟨_, first, hpk⟩ := SignaturePublicKey.fromTaggedBytes_eq_ok_iff.mp (h sampleKey)
  have hlen := congrArg List.length hpk
  simp at hlen

end NodeFuzzer
