import NodeFuzzer.Crypto.Base58
import NodeFuzzer.Library.Exec

/-!
# Typed hashes as text

The text of a typed hash is that of the bytes of its type and its own, with their checksum.
`hash_to_b58check` writes it and `b58check_to_hash` reads it back.  The reader looks at the
number of the bytes only, so that it also accepts the texts of other types whose bytes are as
many (`HashType.b58check_faithful_iff`).
-/

namespace NodeFuzzer

/-- `FromBytesError`. -/
inductive FromBytesError where
  | invalidSize
deriving DecidableEq

namespace HashType

/-- `base58check_prefix`. -/
def base58checkPrefix : HashType → Bytes
  | .chainId => [87, 82, 0]
  | .blockHash => [1, 52]
  | .blockMetadataHash => [234, 249]
  | .contextHash => [79, 199]
  | .protocolHash => [2, 170]
  | .operationHash => [5, 116]
  | .operationListListHash => [29, 159, 109]
  | .operationMetadataHash => [5, 183]
  | .operationMetadataListListHash => [29, 159, 182]
  | .cryptoboxPublicKeyHash => [153, 103]
  | .contractKt1Hash => [2, 90, 121]
  | .contractTz1Hash => [6, 161, 159]
  | .contractTz2Hash => [6, 161, 161]
  | .contractTz3Hash => [6, 161, 164]
  | .publicKeyEd25519 => [13, 15, 37, 217]
  | .publicKeySecp256k1 => [3, 254, 226, 86]
  | .publicKeyP256 => [3, 178, 139, 127]

theorem size_le (t : HashType) : t.base58checkPrefix.length + t.size ≤ 37 := by
  cases t <;> decide

/-- The text of a typed hash is short enough to be read back. -/
theorem typed_length_le {t : HashType} {h : Bytes} (hsize : h.length = t.size) :
    (t.base58checkPrefix ++ h).length ≤ 89 := by
  have := t.size_le
  rw [List.length_append, hsize]
  omega

section

variable [Base58] [Sha256]

/-- `hash_to_b58check`.  An error of the coder is `unreachable`. -/
def hashToB58check (t : HashType) (data : Bytes) : Outcome FromBytesError String :=
  if t.size ≠ data.length then .err .invalidSize
  else
    match toBase58check (t.base58checkPrefix ++ data) with
    | .ok s => .ok s
    | .error _ => .panic

/-- `b58check_to_hash`. -/
def b58checkToHash (t : HashType) (data : String) : Except FromBase58CheckError Bytes := do
  let hash ← fromBase58check data
  let expectedLen := t.size + t.base58checkPrefix.length
  if expectedLen ≠ hash.length then throw (.mismatchedLength expectedLen hash.length)
  else pure (hash.drop t.base58checkPrefix.length)

/-- A hash has a text exactly when it has the size of its type. -/
theorem hashToB58check_eq_ok_iff (std : Base58.Standard) {t : HashType} {h : Bytes} {s : String} :
    t.hashToB58check h = .ok s ↔
      h.length = t.size ∧ s = Base58.encode (withChecksum (t.base58checkPrefix ++ h)) := by
  rw [hashToB58check]
  split
  next hne =>
    constructor
    · intro h
      cases h
    · intro h
      exact absurd h.1.symm hne
  next heq =>
    have hsize : h.length = t.size := (Classical.not_not.mp heq).symm
    obtain ⟨text, htext, _, heq⟩ := base58check_short std (typed_length_le hsize)
    rw [htext, ← heq]
    constructor
    · intro h
      cases h
      exact ⟨hsize, rfl⟩
    · intro h
      rw [h.2]

/-- A text is accepted when it is that of as many bytes as the type has. -/
theorem b58checkToHash_eq_ok_iff {t : HashType} {h : Bytes} {s : String} :
    t.b58checkToHash s = .ok h ↔ h.length = t.size ∧
      ∃ front, front.length = t.base58checkPrefix.length ∧ fromBase58check s = .ok (front ++ h) := by
  constructor
  · intro run
    rw [b58checkToHash] at run
    cases hcheck : fromBase58check s with
    | error e =>
        rw [hcheck] at run
        cases run
    | ok p =>
        rw [hcheck] at run
        have run' : (if t.size + t.base58checkPrefix.length ≠ p.length then
            throw (FromBase58CheckError.mismatchedLength (t.size + t.base58checkPrefix.length) p.length)
          else pure (p.drop t.base58checkPrefix.length)) = Except.ok h := run
        split at run'
        next => cases run'
        next hlen =>
          have hlen' := Classical.not_not.mp hlen
          cases run'
          refine ⟨by rw [List.length_drop]; omega, p.take t.base58checkPrefix.length, ?_, ?_⟩
          · rw [List.length_take]
            omega
          · rw [List.take_append_drop]
  · intro h
    obtain ⟨hsize, front, hfront, hcheck⟩ := h
    have hlen : t.size + t.base58checkPrefix.length = (front ++ h).length := by
      rw [List.length_append, hsize, hfront, Nat.add_comm]
    rw [b58checkToHash, hcheck]
    show (if t.size + t.base58checkPrefix.length ≠ (front ++ h).length then _ else _) = _
    rw [if_neg (Classical.not_not.mpr hlen), ← hfront, List.drop_left]
    rfl

/-- The text of a hash is read back. -/
theorem b58checkToHash_hashToB58check (std : Base58.Standard) {t : HashType} {h : Bytes}
    (hsize : h.length = t.size) :
    ∃ s, t.hashToB58check h = .ok s ∧ t.b58checkToHash s = .ok h := by
  obtain ⟨s, _, hread, hs⟩ := base58check_short std (typed_length_le hsize)
  exact ⟨s, (hashToB58check_eq_ok_iff std).mpr ⟨hsize, hs⟩,
    b58checkToHash_eq_ok_iff.mpr ⟨hsize, _, rfl, hread⟩⟩

/-- An accepted text is the one of its hash exactly when its bytes start with those of the type. -/
theorem hashToB58check_iff_typed (std : Base58.Standard) {t : HashType} {s : String}
    {front h : Bytes} (hsize : h.length = t.size) (hfront : front.length = t.base58checkPrefix.length)
    (hcheck : fromBase58check s = .ok (front ++ h)) :
    t.hashToB58check h = .ok s ↔ t.base58checkPrefix <+: front ++ h := by
  have hs := ((fromBase58check_eq_ok_iff std).mp hcheck).2
  constructor
  · intro hwritten
    have hsame := hs.symm.trans ((hashToB58check_eq_ok_iff std).mp hwritten).2
    rw [withChecksum_injective (Base58.encode_injective hsame)]
    exact List.prefix_append _ _
  · intro hprefix
    have hfirst : t.base58checkPrefix <+: front :=
      List.prefix_of_prefix_length_le hprefix (List.prefix_append front h) hfront.ge
    have heq : t.base58checkPrefix = front := hfirst.eq_of_length hfront.symm
    exact (hashToB58check_eq_ok_iff std).mpr ⟨hsize, by rw [heq, ← hs]⟩

/-- A text is the one of the hash it is read as exactly when the bytes that are accepted of it,
if they are as many as the type has, start with those of the type. -/
theorem b58check_text_iff (std : Base58.Standard) (t : HashType) (s : String) :
    (∀ h, t.b58checkToHash s = .ok h → t.hashToB58check h = .ok s) ↔
      ∀ p, fromBase58check s = .ok p → p.length = t.base58checkPrefix.length + t.size →
        t.base58checkPrefix <+: p := by
  constructor
  · intro faithful p hcheck hlen
    have hfront : (p.take t.base58checkPrefix.length).length = t.base58checkPrefix.length := by
      rw [List.length_take]
      omega
    have hsize : (p.drop t.base58checkPrefix.length).length = t.size := by
      rw [List.length_drop]
      omega
    have hsplit := List.take_append_drop t.base58checkPrefix.length p
    rw [← hsplit] at hcheck
    have hread := b58checkToHash_eq_ok_iff.mpr ⟨hsize, _, hfront, hcheck⟩
    have hstart := (hashToB58check_iff_typed std hsize hfront hcheck).mp (faithful _ hread)
    rwa [hsplit] at hstart
  · intro typed h hread
    obtain ⟨hsize, front, hfront, hcheck⟩ := b58checkToHash_eq_ok_iff.mp hread
    have hlen : (front ++ h).length = t.base58checkPrefix.length + t.size := by
      rw [List.length_append, hfront, hsize]
    exact (hashToB58check_iff_typed std hsize hfront hcheck).mpr (typed _ hcheck hlen)

/-- For every type, every hash of its size has a text that is read back, and a text is the one
of the hash it is read as exactly when the bytes that are accepted of it, if they are as many
as the type has, start with those of the type. -/
theorem b58check_faithful_iff (std : Base58.Standard) (t : HashType) :
    (∀ h : Bytes, h.length = t.size →
      ∃ s, t.hashToB58check h = .ok s ∧ t.b58checkToHash s = .ok h) ∧
    ∀ s, (∀ h, t.b58checkToHash s = .ok h → t.hashToB58check h = .ok s) ↔
      ∀ p, fromBase58check s = .ok p → p.length = t.base58checkPrefix.length + t.size →
        t.base58checkPrefix <+: p :=
  ⟨fun _ hsize => b58checkToHash_hashToB58check std hsize, b58check_text_iff std t⟩

omit [Base58] in
/-- The first characters of the texts of a type, from the numbers its bytes lie between. -/
theorem encode_front {t : HashType} {h : Bytes} (hsize : h.length = t.size) {m j : Nat}
    (hm : 0 < m) (low : m * 58 ^ j ≤ ofBe t.base58checkPrefix * 256 ^ (t.size + 4))
    (high : (ofBe t.base58checkPrefix + 1) * 256 ^ (t.size + 4) ≤ (m + 1) * 58 ^ j) :
    ∃ rest, utf8 (Base58.encode (withChecksum (t.base58checkPrefix ++ h))) =
      (Radix.digits 58 m).map (fun n => UInt8.ofNat (Base58.digit n).toNat) ++ rest ∧
        rest.length = j := by
  have hvalue : ofBe (withChecksum (t.base58checkPrefix ++ h)) = ofBe t.base58checkPrefix *
      256 ^ (t.size + 4) + ofBe (h ++ (doubleSha256 (t.base58checkPrefix ++ h)).take 4) := by
    rw [withChecksum, List.append_assoc, ofBe_append, List.length_append, List.length_take,
      doubleSha256, Sha256.hash_length, Nat.min_eq_left (by decide), hsize]
  have hrest := ofBe_lt (h ++ (doubleSha256 (t.base58checkPrefix ++ h)).take 4)
  rw [List.length_append, List.length_take, doubleSha256, Sha256.hash_length,
    Nat.min_eq_left (by decide), hsize] at hrest
  rw [Nat.add_mul, Nat.one_mul] at high
  refine Base58.encode_of_interval hm ?_ ?_ ?_
  · cases t <;> rfl
  · rw [hvalue]
    exact low.trans (Nat.le_add_right _ _)
  · rw [hvalue, doubleSha256]
    omega

end

section Sample

/-- A hash of a key of the second curve. -/
def sampleKeyHash : Bytes :=
  [0x20, 0x26, 0x2e, 0x61, 0x95, 0xb9, 0x11, 0x81, 0xf1, 0x71, 0x3c, 0x42, 0x37, 0xc8, 0x19, 0x50,
   0x96, 0xb8, 0xad, 0xc9]

/-- The digest of its bytes and those of its type. -/
def sampleKeyHashDigest : Bytes :=
  [0x95, 0x90, 0x95, 0x9d, 0xed, 0x65, 0x1c, 0x39, 0x76, 0xeb, 0x2e, 0x87, 0x37, 0xa6, 0x7c, 0xfe,
   0x12, 0x40, 0x55, 0x21, 0x7d, 0xfb, 0x55, 0x49, 0x71, 0xf0, 0xd9, 0xc9, 0xea, 0xb7, 0x59, 0x82]

local instance keyHashCoder : Base58 := standardBase58

local instance keyHashHasher : Sha256 := tableSha256
  [(contractTz2Hash.base58checkPrefix ++ sampleKeyHash, sampleKeyHashDigest),
    (sampleKeyHashDigest,
      [0x4c, 0xd1, 0xbb, 0x86, 0xbf, 0x7f, 0x48, 0x29, 0x98, 0xfe, 0x2c, 0x04, 0x66, 0x4f, 0x51, 0x4a,
       0x6b, 0xcd, 0x0b, 0x5a, 0x45, 0x3e, 0xfa, 0xdf, 0xfc, 0x8e, 0xec, 0x8d, 0x95, 0x2a, 0x82, 0x97])]

theorem b58check_faithful_sample : ∃ s, contractTz2Hash.hashToB58check sampleKeyHash = .ok s ∧
    contractTz2Hash.b58checkToHash s = .ok sampleKeyHash :=
  (b58check_faithful_iff standardBase58_standard contractTz2Hash).1 sampleKeyHash rfl

/-- The text of a hash of a key of the second curve is accepted as one of the first curve. -/
theorem b58check_other_type : ¬ ∀ (t : HashType) (s : String) (h : Bytes),
    t.b58checkToHash s = .ok h → t.hashToB58check h = .ok s := by
  intro faithful
  obtain ⟨s, _, hcheck, _⟩ := base58check_short standardBase58_standard
    (show (contractTz2Hash.base58checkPrefix ++ sampleKeyHash).length ≤ 89 by decide)
  have hread : contractTz1Hash.b58checkToHash s = .ok sampleKeyHash :=
    b58checkToHash_eq_ok_iff.mpr ⟨rfl, contractTz2Hash.base58checkPrefix, rfl, hcheck⟩
  have hiff : contractTz1Hash.hashToB58check sampleKeyHash = .ok s ↔
      contractTz1Hash.base58checkPrefix <+: contractTz2Hash.base58checkPrefix ++ sampleKeyHash :=
    hashToB58check_iff_typed standardBase58_standard rfl rfl hcheck
  exact absurd (hiff.mp (faithful contractTz1Hash s sampleKeyHash hread)) (by decide)

end Sample

end HashType

namespace TypedHash

variable [Base58] [Sha256] {t : HashType}

/-- `to_base58_check`.  Its error is `unreachable`. -/
def toBase58Check (h : TypedHash t) : Outcome Empty String :=
  match t.hashToB58check h.val with
  | .ok s => .ok s
  | _ => .panic

/-- `from_base58_check`. -/
def fromBase58Check (t : HashType) (data : String) : Except FromBase58CheckError (TypedHash t) :=
  match h : t.b58checkToHash data with
  | .ok hash => .ok ⟨hash, (HashType.b58checkToHash_eq_ok_iff.mp h).1⟩
  | .error e => .error e

theorem toBase58Check_eq (std : Base58.Standard) (h : TypedHash t) :
    h.toBase58Check = .ok (Base58.encode (withChecksum (t.base58checkPrefix ++ h.val))) := by
  rw [toBase58Check, (HashType.hashToB58check_eq_ok_iff std).mpr ⟨h.property, rfl⟩]

theorem fromBase58Check_eq_ok_iff {data : String} {h : TypedHash t} :
    fromBase58Check t data = .ok h ↔ t.b58checkToHash data = .ok h.val := by
  rw [fromBase58Check]
  split
  next hash hread =>
    constructor
    · intro heq
      rw [hread, ← Except.ok.inj heq]
    · intro heq
      exact congrArg Except.ok (Subtype.ext (Except.ok.inj (hread.symm.trans heq)))
  next e hread =>
    constructor
    · intro heq
      cases heq
    · intro heq
      rw [hread] at heq
      cases heq

end TypedHash

end NodeFuzzer
