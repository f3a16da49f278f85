import NodeFuzzer.Encoding.Types
import NodeFuzzer.Library.Radix

/-!
# Base58 with a checksum

`to_base58check` writes bytes and four bytes of their checksum in base 58, and
`from_base58check` reads them back.  The writer bounds the bytes and the reader the text, both
by 128, so that not all that is written is read back (`fromBase58check_toBase58check_iff`).

The coder of base 58 and SHA-256 are parameters.  What the code relies on is
`Base58.Standard`: the text is the bytes in the radix 58, with a `1` for each zero in front.
-/

namespace NodeFuzzer

/-! ## Base 58 -/

/-- The coder: `to_base58`, and `from_base58` without its errors. -/
class Base58 where
  toBase58 : Bytes → String
  fromBase58 : String → Option Bytes

namespace Base58

/-- The digits. -/
def alphabet : List Char :=
  ['1', '2', '3', '4', '5', '6', '7', '8', '9', 'A', 'B', 'C', 'D', 'E', 'F', 'G', 'H', 'J', 'K',
    'L', 'M', 'N', 'P', 'Q', 'R', 'S', 'T', 'U', 'V', 'W', 'X', 'Y', 'Z', 'a', 'b', 'c', 'd', 'e',
    'f', 'g', 'h', 'i', 'j', 'k', 'm', 'n', 'o', 'p', 'q', 'r', 's', 't', 'u', 'v', 'w', 'x', 'y',
    'z']

/-- The digit of a number below 58. -/
def digit (n : Nat) : Char := alphabet.getD n '1'

/-- The number of a digit. -/
def number (c : Char) : Option Nat :=
  if alphabet.idxOf c < 58 then some (alphabet.idxOf c) else none

/-- The text of bytes. -/
def encode (b : Bytes) : String :=
  String.ofList ((Radix.change 256 58 (b.map UInt8.toNat)).map digit)

/-- The numbers of digits. -/
def numbers : List Char → Option (List Nat)
  | [] => some []
  | c :: cs => do
      let n ← number c
      let ns ← numbers cs
      return n :: ns

/-- The bytes of a text. -/
def decode (s : String) : Option Bytes :=
  (numbers s.toList).map fun ns => (Radix.change 58 256 ns).map UInt8.ofNat

/-- The coder is the one of base 58.  The reader has room for the bytes of 128 digits. -/
structure Standard [Base58] : Prop where
  encodes : ∀ b, toBase58 b = encode b
  decodes : ∀ s, (utf8 s).length ≤ 128 → fromBase58 s = decode s

/-! ## Digits -/

theorem number_digit {n : Nat} (h : n < 58) : number (digit n) = some n := by
  have hall : ∀ n < 58, number (digit n) = some n := by decide
  exact hall n h

theorem digit_of_number {c : Char} {n : Nat} (h : number c = some n) : n < 58 ∧ digit n = c := by
  rw [number] at h
  split at h
  next hlt =>
    cases h
    refine ⟨hlt, ?_⟩
    have hlt' : alphabet.idxOf c < alphabet.length := hlt
    rw [digit, List.getD_eq_getElem?_getD, List.getElem?_eq_getElem hlt', Option.getD_some,
      List.getElem_idxOf]
  next => cases h

theorem digit_ascii {n : Nat} (h : n < 58) : (digit n).toNat < 128 := by
  have hall : ∀ n < 58, (digit n).toNat < 128 := by decide
  exact hall n h

theorem numbers_map_digit {ns : List Nat} (h : ∀ n ∈ ns, n < 58) :
    numbers (ns.map digit) = some ns := by
  induction ns with
  | nil => rfl
  | cons n ns ih =>
      have hn := number_digit (h n List.mem_cons_self)
      have hns := ih fun m hm => h m (List.mem_cons_of_mem _ hm)
      simp [numbers, hn, hns]

theorem map_digit_of_numbers {cs : List Char} {ns : List Nat} (h : numbers cs = some ns) :
    (∀ n ∈ ns, n < 58) ∧ ns.map digit = cs := by
  induction cs generalizing ns with
  | nil =>
      cases h
      simp
  | cons c cs ih =>
      rw [numbers, Option.bind_eq_bind, Option.bind_eq_some_iff] at h
      obtain ⟨n, hn, h⟩ := h
      rw [Option.bind_eq_bind, Option.bind_eq_some_iff] at h
      obtain ⟨rest, hrest, h⟩ := h
      cases h
      obtain ⟨hlt, hdigit⟩ := digit_of_number hn
      obtain ⟨hall, hmap⟩ := ih hrest
      exact ⟨List.forall_mem_cons.mpr ⟨hlt, hall⟩, by rw [List.map_cons, hdigit, hmap]⟩

/-! ## Bytes and text -/

theorem toNat_lt_of_mem {b : Bytes} : ∀ n ∈ b.map UInt8.toNat, n < 256 := by
  intro n hn
  obtain ⟨x, _, rfl⟩ := List.mem_map.mp hn
  exact x.toNat_lt

theorem map_ofNat_toNat (b : Bytes) : (b.map UInt8.toNat).map UInt8.ofNat = b := by
  simp [Function.comp_def]

theorem map_toNat_ofNat {ns : List Nat} (h : ∀ n ∈ ns, n < 256) :
    (ns.map UInt8.ofNat).map UInt8.toNat = ns := by
  rw [List.map_map]
  refine (List.map_congr_left ?_).trans (List.map_id ns)
  intro n hn
  exact UInt8.toNat_ofNat_of_lt' (h n hn)

theorem lt_of_mem_encode {b : Bytes} : ∀ n ∈ Radix.change 256 58 (b.map UInt8.toNat), n < 58 :=
  fun _ hn => Radix.lt_of_mem_change (by decide) hn

@[simp] theorem decode_encode (b : Bytes) : decode (encode b) = some b := by
  rw [decode, encode, String.toList_ofList, numbers_map_digit lt_of_mem_encode, Option.map_some,
    Radix.change_change (by decide) toNat_lt_of_mem, map_ofNat_toNat]

/-- A text is read as the bytes that it is the text of. -/
theorem decode_eq_some_iff {s : String} {b : Bytes} : decode s = some b ↔ s = encode b := by
  constructor
  · intro h
    rw [decode, Option.map_eq_some_iff] at h
    obtain ⟨ns, hns, rfl⟩ := h
    obtain ⟨hlt, hmap⟩ := map_digit_of_numbers hns
    have hbytes := map_toNat_ofNat fun n (hn : n ∈ Radix.change 58 256 ns) =>
      Radix.lt_of_mem_change (by decide) hn
    rw [encode, hbytes, Radix.change_change (by decide) hlt, hmap, String.ofList_toList]
  · intro h
    rw [h, decode_encode]

theorem encode_injective : Function.Injective encode := by
  intro a b h
  have hsome := congrArg decode h
  rw [decode_encode, decode_encode] at hsome
  exact Option.some.inj hsome

theorem utf8_encode (b : Bytes) : utf8 (encode b) =
    ((Radix.change 256 58 (b.map UInt8.toNat)).map digit).map fun c => UInt8.ofNat c.toNat := by
  refine utf8_ofList ?_
  intro c hc
  obtain ⟨n, hn, rfl⟩ := List.mem_map.mp hc
  exact digit_ascii (lt_of_mem_encode n hn)

theorem value_toNat (b : Bytes) : Radix.value 256 (b.map UInt8.toNat) = ofBe b := by
  induction b with
  | nil => rfl
  | cons x b ih =>
      rw [Radix.value] at ih
      rw [Radix.value, List.map_cons, Nat.ofDigits_reverse_cons, ih, ofBe_cons, List.length_map]
      ring

/-- The zero bytes in front. -/
def leadingZeros (b : Bytes) : Nat := Radix.leadingZeros (b.map UInt8.toNat)

theorem encode_length_le_iff (b : Bytes) (k : Nat) :
    (utf8 (encode b)).length ≤ k ↔ leadingZeros b ≤ k ∧ ofBe b < 58 ^ (k - leadingZeros b) := by
  rw [utf8_encode, List.length_map, List.length_map, Radix.change_length_le_iff (by decide),
    value_toNat]
  rfl

/-- Bytes that are few enough have a text that is short enough. -/
theorem encode_length_le {b : Bytes} {m k : Nat} (hlen : b.length ≤ m) (hpow : 256 ^ m ≤ 58 ^ k) :
    (utf8 (encode b)).length ≤ k := by
  rw [utf8_encode, List.length_map, List.length_map]
  refine Radix.change_length_le (by decide) (by decide) toNat_lt_of_mem ?_ hpow
  rwa [List.length_map]

/-- The text of bytes that spell a number between two multiples of a power of 58 starts with
the digits of the multiplier. -/
theorem encode_of_interval {b : Bytes} {m j : Nat} (hm : 0 < m) (hzeros : leadingZeros b = 0)
    (low : m * 58 ^ j ≤ ofBe b) (high : ofBe b < (m + 1) * 58 ^ j) :
    ∃ rest, utf8 (encode b) =
      (Radix.digits 58 m).map (fun n => UInt8.ofNat (digit n).toNat) ++ rest ∧ rest.length = j := by
  rw [← value_toNat] at low high
  obtain ⟨rest, hrest, hlen⟩ := Radix.change_of_interval (by decide) hm hzeros low high
  refine ⟨rest.map fun n => UInt8.ofNat (digit n).toNat, ?_, by rw [List.length_map, hlen]⟩
  rw [utf8_encode, hrest, List.map_append, List.map_append, List.map_map, List.map_map]
  rfl

end Base58

/-! ## Checksums -/

/-- `sha256::hash`. -/
class Sha256 where
  hash : Bytes → Bytes
  hash_length : ∀ b, (hash b).length = 32

/-- `ToBase58CheckError`. -/
inductive ToBase58CheckError where
  | dataTooLong
deriving DecidableEq

/-- `FromBase58CheckError`. -/
inductive FromBase58CheckError where
  | invalidBase58
  | invalidChecksum
  | missingChecksum
  | dataTooLong
  | mismatchedLength (expected actual : Nat)
deriving DecidableEq

/-- `CHECKSUM_BYTE_SIZE`. -/
def CHECKSUM_BYTE_SIZE : Nat := 4

section

variable [Sha256]

/-- `double_sha256`. -/
def doubleSha256 (data : Bytes) : Bytes := Sha256.hash (Sha256.hash data)

/-- Bytes and their checksum. -/
def withChecksum (b : Bytes) : Bytes := b ++ (doubleSha256 b).take 4

theorem withChecksum_length (b : Bytes) : (withChecksum b).length = b.length + 4 := by
  rw [withChecksum, List.length_append, List.length_take, doubleSha256, Sha256.hash_length,
    Nat.min_eq_left (by decide)]

theorem withChecksum_injective : Function.Injective withChecksum := by
  intro a b h
  have hlen := congrArg List.length h
  rw [withChecksum_length, withChecksum_length] at hlen
  exact List.append_inj_left h (Nat.add_right_cancel hlen)

variable [Base58]

/-- `to_base58check`. -/
def toBase58check (b : Bytes) : Except ToBase58CheckError String :=
  if b.length > 128 then .error .dataTooLong else .ok (Base58.toBase58 (withChecksum b))

/-- `from_base58check`. -/
def fromBase58check (s : String) : Except FromBase58CheckError Bytes :=
  if (utf8 s).length > 128 then .error .dataTooLong
  else
    match Base58.fromBase58 s with
    | some payload =>
        if payload.length ≥ CHECKSUM_BYTE_SIZE then
          let data := payload.take (payload.length - CHECKSUM_BYTE_SIZE)
          let checksumProvided := payload.drop (payload.length - CHECKSUM_BYTE_SIZE)
          if (doubleSha256 data).take 4 = checksumProvided then .ok data
          else .error .invalidChecksum
        else .error .missingChecksum
    | none => .error .invalidBase58

theorem toBase58check_eq_ok_iff (std : Base58.Standard) {b : Bytes} {s : String} :
    toBase58check b = .ok s ↔ b.length ≤ 128 ∧ s = Base58.encode (withChecksum b) := by
  rw [toBase58check, std.encodes]
  split
  next hlong =>
    constructor
    · intro h
      cases h
    · intro h
      omega
  next hshort =>
    constructor
    · intro h
      exact ⟨Nat.not_lt.mp hshort, (Except.ok.inj h).symm⟩
    · intro h
      rw [h.2]

/-- The texts that are accepted are those of bytes and their checksum. -/
theorem fromBase58check_eq_ok_iff (std : Base58.Standard) {s : String} {b : Bytes} :
    fromBase58check s = .ok b ↔ (utf8 s).length ≤ 128 ∧ s = Base58.encode (withChecksum b) := by
  rw [fromBase58check]
  split
  next hlong =>
    constructor
    · intro h
      cases h
    · intro h
      omega
  next hshort =>
    rw [std.decodes s (Nat.not_lt.mp hshort)]
    constructor
    · intro h
      refine ⟨Nat.not_lt.mp hshort, ?_⟩
      split at h
      next payload hpayload =>
        split at h
        next =>
          dsimp only at h
          split at h
          next hsum =>
            cases h
            rw [← Base58.decode_eq_some_iff, withChecksum, hsum, List.take_append_drop, hpayload]
          next => cases h
        next => cases h
      next => cases h
    · intro h
      have hlen := withChecksum_length b
      have hdata : (withChecksum b).length - CHECKSUM_BYTE_SIZE = b.length := by
        rw [hlen, CHECKSUM_BYTE_SIZE, Nat.add_sub_cancel]
      have henough : (withChecksum b).length ≥ CHECKSUM_BYTE_SIZE := by
        rw [hlen]
        exact Nat.le_add_left _ _
      have htake : (withChecksum b).take b.length = b := List.take_left
      have hdrop : (withChecksum b).drop b.length = (doubleSha256 b).take 4 := List.drop_left
      simp only [Base58.decode_eq_some_iff.mpr h.2, if_pos henough, hdata, htake, hdrop, if_true]

/-- What is written is read back exactly when the text is short enough, in the terms of the
bytes: with `z` zeros in front of the bytes and their checksum, the number they spell is below
`58 ^ (128 - z)`. -/
theorem fromBase58check_toBase58check_iff (std : Base58.Standard) (b : Bytes) :
    (∀ s, toBase58check b = .ok s → fromBase58check s = .ok b) ↔
      128 < b.length ∨ (Base58.leadingZeros (withChecksum b) ≤ 128 ∧
        ofBe (withChecksum b) < 58 ^ (128 - Base58.leadingZeros (withChecksum b))) := by
  rw [← Base58.encode_length_le_iff]
  constructor
  · intro h
    by_cases hlong : 128 < b.length
    · exact .inl hlong
    · have hwritten := (toBase58check_eq_ok_iff std).mpr ⟨Nat.not_lt.mp hlong, rfl⟩
      exact .inr ((fromBase58check_eq_ok_iff std).mp (h _ hwritten)).1
  · intro h s hs
    obtain ⟨hle, rfl⟩ := (toBase58check_eq_ok_iff std).mp hs
    obtain hlong | hshort := h
    · omega
    · exact (fromBase58check_eq_ok_iff std).mpr ⟨hshort, rfl⟩

/-- Up to 89 bytes are always read back. -/
theorem base58check_short (std : Base58.Standard) {b : Bytes} (h : b.length ≤ 89) :
    ∃ s, toBase58check b = .ok s ∧ fromBase58check s = .ok b ∧
      s = Base58.encode (withChecksum b) := by
  have hlen : (withChecksum b).length ≤ 93 := by
    rw [withChecksum_length]
    omega
  have hshort := Base58.encode_length_le hlen (show 256 ^ 93 ≤ 58 ^ 128 by norm_num)
  exact ⟨_, (toBase58check_eq_ok_iff std).mpr ⟨by omega, rfl⟩,
    (fromBase58check_eq_ok_iff std).mpr ⟨hshort, rfl⟩, rfl⟩

end

/-! ## Two byte strings -/

/-- The coder of base 58 itself. -/
@[reducible] def standardBase58 : Base58 := ⟨Base58.encode, Base58.decode⟩

theorem standardBase58_standard : @Base58.Standard standardBase58 :=
  @Base58.Standard.mk standardBase58 (fun _ => rfl) fun _ _ => rfl

/-- The digests of a table, and zeros for all other bytes. -/
def tableDigest : List (Bytes × Bytes) → Bytes → Bytes
  | [], _ => List.replicate 32 0
  | (data, digest) :: table, b => if b = data ∧ digest.length = 32 then digest else tableDigest table b

theorem tableDigest_length (table : List (Bytes × Bytes)) (b : Bytes) :
    (tableDigest table b).length = 32 := by
  induction table with
  | nil => exact List.length_replicate
  | cons entry table ih =>
      rw [tableDigest]
      split
      next h => exact h.2
      next => exact ih

/-- A hasher that gives the digests of a table. -/
@[reducible] def tableSha256 (table : List (Bytes × Bytes)) : Sha256 :=
  ⟨tableDigest table, tableDigest_length table⟩

section Sample

/-- A chain id. -/
def sampleChainId : Bytes := [0x8e, 0xce, 0xda, 0x2f]

/-- Its digest. -/
def sampleChainIdDigest : Bytes :=
  [0x6c, 0x73, 0x28, 0xce, 0x21, 0x5f, 0x8c, 0xc8, 0x01, 0xfd, 0x19, 0xcd, 0x7e, 0xff, 0xbf, 0x11,
   0x6b, 0x7f, 0xc6, 0x35, 0x2f, 0xe1, 0xd5, 0x06, 0x74, 0xda, 0x68, 0xce, 0x10, 0x7d, 0xc4, 0x75]

/-- The digest of as many bytes as can be written. -/
def longestDigest : Bytes :=
  [0xe9, 0x17, 0x5d, 0xb6, 0x5a, 0x97, 0x89, 0x09, 0x6c, 0xa9, 0xcb, 0x55, 0x24, 0xd3, 0xab, 0xc2,
   0x10, 0x7d, 0xf0, 0x3e, 0x3c, 0x9b, 0xa3, 0xaf, 0x1a, 0xca, 0x62, 0x8f, 0x9c, 0x5d, 0x3b, 0xd2]

local instance base58Coder : Base58 := standardBase58

local instance base58Hasher : Sha256 := tableSha256
  [(sampleChainId, sampleChainIdDigest),
    (sampleChainIdDigest,
      [0x65, 0xf5, 0x14, 0xeb, 0x39, 0x25, 0x34, 0x86, 0x6c, 0xdc, 0xaf, 0xb2, 0xcd, 0x21, 0xb7, 0x6e,
       0x84, 0x40, 0x43, 0xff, 0x70, 0x4e, 0xb7, 0x55, 0xdb, 0x40, 0x01, 0x71, 0xb6, 0x3b, 0x25, 0xf2]),
    (List.replicate 128 0xff, longestDigest),
    (longestDigest,
      [0xcb, 0xa4, 0xb7, 0x89, 0x88, 0x7a, 0xd2, 0x6d, 0x16, 0x2a, 0x91, 0xdb, 0x94, 0xfe, 0xcc, 0xcd,
       0x2f, 0x2d, 0x0c, 0x91, 0xf2, 0x9e, 0x37, 0xa5, 0x95, 0xc6, 0xfa, 0xd9, 0xf6, 0x97, 0x45, 0xa1])]

theorem fromBase58check_toBase58check_sample :
    toBase58check sampleChainId = .ok "QtRAcc9FSRg" ∧
      fromBase58check "QtRAcc9FSRg" = .ok sampleChainId := by
  have hwritten : toBase58check sampleChainId = .ok "QtRAcc9FSRg" := by decide +kernel
  exact ⟨hwritten, (fromBase58check_toBase58check_iff standardBase58_standard sampleChainId).mpr
    (.inr (by decide +kernel)) _ hwritten⟩

/-- The text of 128 bytes with all bits set is too long for the reader. -/
theorem fromBase58check_toBase58check_longest :
    ¬ ∀ (b : Bytes) (s : String), toBase58check b = .ok s → fromBase58check s = .ok b := by
  intro h
  have hbounds := (fromBase58check_toBase58check_iff standardBase58_standard
    (List.replicate 128 0xff)).mp (h _)
  revert hbounds
  decide +kernel

end Sample

end NodeFuzzer
