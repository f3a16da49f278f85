import NodeFuzzer.Library.Bits
import NodeFuzzer.Encoding.Nom
import NodeFuzzer.Encoding.BinaryWriter

/-!
# Numbers of any size

The readers of `Encoding::Z` and `Encoding::Mutez`, and what they make of the
bytes `encode_z` writes for both.  The writer pops the bits of the absolute value
from the least significant one on: six into the first byte, beside the sign, and
seven into each byte behind it.  `zarith` collects them in the same rhythm;
`mutez` takes seven bits from the first byte as well.
-/

namespace NodeFuzzer

/-! ## The text of a number -/

/-- `to_str_radix(16)`: what a number is serialized to. -/
def toStrRadix16 (n : Int) : String :=
  String.ofList ((if n < 0 then ['-'] else []) ++ Nat.toDigits 16 n.natAbs)

/-! ## The bits of a byte -/

/-- `Bits::get`.  Its places are constants of the source below eight, so that the
error for a place out of range is left out, as it is from `setBit`. -/
def getBit (n : UInt8) (place : Nat) : Bool := (n >>> UInt8.ofNat place) &&& 1 == 1

/-- `Bits::take`: the bit, and the byte without it. -/
def takeBit (n : UInt8) (place : Nat) : Bool × UInt8 :=
  let mask := 1 <<< UInt8.ofNat place
  (mask &&& n != 0, n &&& ~~~mask)

/-- `BitVec::to_bytes`: the most significant bit of a byte first, and zeroes behind
the last bit. -/
def bytesOfBits : List Bool → Bytes
  | [] => []
  | b₇ :: b₆ :: b₅ :: b₄ :: b₃ :: b₂ :: b₁ :: b₀ :: bits =>
      UInt8.ofNat (ofBits [b₇, b₆, b₅, b₄, b₃, b₂, b₁, b₀]) :: bytesOfBits bits
  | bits => [UInt8.ofNat (ofBits (bits ++ List.replicate (8 - bits.length) false))]

namespace Nom

/-! ## The readers -/

/-- `u8`. -/
def u8 : Reader UInt8 := map (beNumber 1) UInt8.ofNat

/-- The loop over the bytes of a number: seven bits each, up to the first byte
without the continuation bit.  It is entered with `has_next` set. -/
def chunkLoop : Bytes → List Bool → IResult DecodeError (List Bool)
  | [], _ => .error (ParseError.fromErrorKind [] .eof)
  | byte :: input, bits =>
      let bits := bits ++ [0, 1, 2, 3, 4, 5, 6].map (getBit byte)
      if getBit byte 7 then chunkLoop input bits else .done input bits

/-- The number whose bits were collected from the least significant one on. -/
def numberOfBits (bits : List Bool) : Nat :=
  let pad := bits.length % 8
  let bits := if pad ≠ 0 then bits ++ List.replicate (8 - pad) false else bits
  ofBe (bytesOfBits bits.reverse)

/-- `zarith`. -/
def zarith : Reader Int := fun input =>
  (u8 input).andThen fun input first =>
    let (hasNext, first) := takeBit first 7
    let (negative, first) := takeBit first 6
    if !hasNext then
      .done input (if negative then -first.toInt8 else first.toInt8).toInt
    else
      (chunkLoop input ([0, 1, 2, 3, 4, 5].map (getBit first))).andThen fun input bits =>
        .done input (if negative then -(numberOfBits bits : Int) else numberOfBits bits)

/-- `mutez`. -/
def mutez : Reader Int := fun input =>
  (chunkLoop input []).andThen fun input bits => .done input (numberOfBits bits)

end Nom

/-! ## Bits that were set -/

theorem getBit_eq_testBit (n : UInt8) {i : Nat} (hi : i < 8) : getBit n i = n.toNat.testBit i := by
  have hsize : i < UInt8.size := by
    change i < 256
    omega
  apply Bool.eq_iff_iff.mpr
  simp only [getBit, beq_iff_eq, ← UInt8.toNat_inj, UInt8.toNat_and, UInt8.toNat_shiftRight,
    UInt8.toNat_ofNat_of_lt' hsize, Nat.mod_eq_of_lt hi, UInt8.toNat_one, Nat.and_one_is_mod,
    Nat.shiftRight_eq_div_pow, Nat.testBit_eq_decide_div_mod_eq, decide_eq_true_eq]

theorem testBit_setBit (n : UInt8) (v : Bool) {place i : Nat} (hplace : place < 8) (hi : i < 8) :
    (setBit n place v).toNat.testBit i = if i = place then v else n.toNat.testBit i := by
  have hmask : ∀ p i : Fin 8, (~~~((1 : UInt8) <<< UInt8.ofNat p)).toNat.testBit i =
      decide (i ≠ p) := by decide
  have hvalue : ∀ (v : Bool) (p i : Fin 8),
      (((if v then 1 else 0) : UInt8) <<< UInt8.ofNat p).toNat.testBit i =
        (decide (i = p) && v) := by decide
  have hm := hmask ⟨place, hplace⟩ ⟨i, hi⟩
  have hv := hvalue v ⟨place, hplace⟩ ⟨i, hi⟩
  dsimp only at hm hv
  rw [setBit, UInt8.toNat_or, Nat.testBit_or, UInt8.toNat_and, Nat.testBit_and, hm, hv]
  by_cases h : i = place
  · simp [h]
  · simp [h]

/-- The bits that are set stand from `place` on, and the others are unchanged. -/
theorem getBit_setBits (n : UInt8) {place i : Nat} {bits : List Bool}
    (hplace : place + bits.length ≤ 8) (hi : i < 8) :
    getBit (setBits n place bits) i =
      if i < place then getBit n i else bits[i - place]?.getD (getBit n i) := by
  induction bits generalizing n place with
  | nil => simp [setBits]
  | cons b bits ih =>
      rw [List.length_cons] at hplace
      rw [setBits, ih (setBit n place b) (by omega), getBit_eq_testBit _ hi,
        testBit_setBit _ _ (by omega) hi, ← getBit_eq_testBit _ hi]
      rcases Nat.lt_trichotomy i place with hlt | rfl | hlt
      · simp [hlt, show i < place + 1 by omega, show i ≠ place by omega]
      · simp
      · have hsub : i - place = i - (place + 1) + 1 := by omega
        simp [hsub, show ¬ i < place + 1 by omega, show ¬ i < place by omega,
          show i ≠ place by omega]

/-- The seven bits of a chunk: those that were set, and zeroes behind them. -/
theorem map_getBit_setBits (bits : List Bool) (h : bits.length ≤ 7) :
    [0, 1, 2, 3, 4, 5, 6].map (getBit (setBits 0 0 bits)) =
      bits ++ List.replicate (7 - bits.length) false := by
  have hget : ∀ i < 7, getBit (setBits 0 0 bits) i = bits[i]?.getD false := by
    intro i hi
    have hzero : getBit 0 i = false := by
      rw [getBit_eq_testBit 0 (by omega)]
      exact Nat.zero_testBit i
    rw [getBit_setBits 0 (by omega) (by omega), hzero]
    simp
  have hmap : [0, 1, 2, 3, 4, 5, 6].map (getBit (setBits 0 0 bits)) =
      [0, 1, 2, 3, 4, 5, 6].map fun i => bits[i]?.getD false :=
    List.map_congr_left fun i hi => hget i (by
      simp only [List.mem_cons, List.not_mem_nil, or_false] at hi
      omega)
  rw [hmap]
  match bits, h with
  | [], _ | [_], _ | [_, _], _ | [_, _, _], _ | [_, _, _, _], _ | [_, _, _, _, _], _
  | [_, _, _, _, _, _], _ | [_, _, _, _, _, _, _], _ => rfl

/-- Setting the continuation bit leaves the bits of the chunk. -/
theorem map_getBit_continued (n : UInt8) :
    [0, 1, 2, 3, 4, 5, 6].map (getBit (setBit n 7 true)) = [0, 1, 2, 3, 4, 5, 6].map (getBit n) := by
  refine List.map_congr_left fun i hi => ?_
  simp only [List.mem_cons, List.not_mem_nil, or_false] at hi
  have hlt : i < 7 := by omega
  rw [getBit_eq_testBit _ (by omega), getBit_eq_testBit _ (by omega),
    testBit_setBit _ _ (by omega) (by omega), if_neg (by omega)]

theorem getBit_continued (n : UInt8) : getBit (setBit n 7 true) 7 = true := by
  rw [getBit_eq_testBit _ (by omega), testBit_setBit _ _ (by omega) (by omega), if_pos rfl]

theorem getBit_last {bits : List Bool} (h : bits.length ≤ 7) : getBit (setBits 0 0 bits) 7 = false := by
  have hnone : bits[7]? = none := List.getElem?_eq_none h
  rw [getBit_setBits 0 (by omega) (by omega), Nat.sub_zero, hnone]
  decide

/-! ## The chunks -/

namespace Nom

/-- The loop of the readers takes the chunks of the writer, and finds their bits,
with zeroes up to the end of the last chunk. -/
theorem chunkLoop_zChunks (s : Bytes) {count : Nat} {bits : List Bool}
    (hcount : 0 < count) (hlow : 7 * (count - 1) < bits.length) (hhigh : bits.length ≤ 7 * count)
    (acc : List Bool) :
    ∃ k, chunkLoop (zChunks count bits ++ s) acc =
      .done s (acc ++ bits ++ List.replicate k false) := by
  induction count generalizing bits acc with
  | zero => omega
  | succ count ih =>
      by_cases hlast : count = 0
      · subst hlast
        have hlen : bits.length ≤ 7 := by omega
        refine ⟨7 - bits.length, ?_⟩
        rw [zChunks, if_pos rfl, zChunks, List.take_of_length_le hlen, List.cons_append, chunkLoop]
        simp [getBit_last hlen, map_getBit_setBits bits hlen]
      · have htake : (bits.take 7).length = 7 := by
          rw [List.length_take]
          omega
        have hdrop : (bits.drop 7).length = bits.length - 7 := List.length_drop
        obtain ⟨k, hk⟩ := @ih (bits.drop 7) (by omega) (by omega) (by omega) (acc ++ bits.take 7)
        refine ⟨k, ?_⟩
        rw [zChunks, if_neg hlast, List.cons_append, chunkLoop]
        simp only [getBit_continued, map_getBit_continued, map_getBit_setBits _ htake.le, htake,
          if_true, Nat.sub_self, List.replicate_zero, List.append_nil, hk]
        rw [List.append_assoc acc, List.take_append_drop]

/-! ## The number behind the bits -/

theorem toNat_byte (bits : List Bool) (h : bits.length = 8) :
    (UInt8.ofNat (ofBits bits)).toNat = ofBits bits := by
  have hlt := ofBits_lt bits
  rw [h] at hlt
  exact UInt8.toNat_ofNat_of_lt' hlt

theorem ofBe_bytesOfBits (k : Nat) {bits : List Bool} (h : bits.length = 8 * k) :
    (bytesOfBits bits).length = k ∧ ofBe (bytesOfBits bits) = ofBits bits := by
  induction k generalizing bits with
  | zero =>
      have hnil : bits = [] := List.eq_nil_of_length_eq_zero h
      subst hnil
      exact ⟨rfl, rfl⟩
  | succ k ih =>
      match bits, h with
      | b₇ :: b₆ :: b₅ :: b₄ :: b₃ :: b₂ :: b₁ :: b₀ :: bits, h =>
          have hbits : bits.length = 8 * k := by
            simp only [List.length_cons] at h
            omega
          obtain ⟨hlen, hval⟩ := ih hbits
          have hbyte := toNat_byte [b₇, b₆, b₅, b₄, b₃, b₂, b₁, b₀] rfl
          have happend := ofBits_append [b₇, b₆, b₅, b₄, b₃, b₂, b₁, b₀] bits
          rw [hbits, Nat.pow_mul] at happend
          refine ⟨by simp [bytesOfBits, hlen], ?_⟩
          rw [bytesOfBits, ofBe_cons, hbyte, hval, hlen]
          exact happend.symm

/-- Padding adds zeroes in front of the number, and loses nothing. -/
theorem numberOfBits_eq (bits : List Bool) : numberOfBits bits = ofBits bits.reverse := by
  have hvalue : ∀ pad : Nat, 8 ∣ bits.length + pad →
      ofBe (bytesOfBits (bits ++ List.replicate pad false).reverse) = ofBits bits.reverse := by
    intro pad hdvd
    obtain ⟨k, hk⟩ := hdvd
    have hlen : (bits ++ List.replicate pad false).reverse.length = 8 * k := by
      rw [List.length_reverse, List.length_append, List.length_replicate, hk]
    rw [(ofBe_bytesOfBits k hlen).2, List.reverse_append, List.reverse_replicate,
      ofBits_replicate_append]
  rw [numberOfBits]
  by_cases hpad : bits.length % 8 = 0
  · have h := hvalue 0 (by omega)
    simpa [hpad] using h
  · simpa [hpad] using hvalue (8 - bits.length % 8) (by omega)

end Nom

/-! ## The text that is written -/

theorem ofBits_bitsOfBytes (b : Bytes) :
    (bitsOfBytes b).length = 8 * b.length ∧ ofBits (bitsOfBytes b) = ofBe b := by
  induction b with
  | nil => exact ⟨rfl, rfl⟩
  | cons x b ih =>
      obtain ⟨hlen, hval⟩ := ih
      have hcons : bitsOfBytes (x :: b) = bitsOfByte x ++ bitsOfBytes b := rfl
      have hbyte : (bitsOfByte x).length = 8 := rfl
      refine ⟨?_, ?_⟩
      · rw [hcons, List.length_append, hlen, hbyte, List.length_cons]
        omega
      · rw [hcons, ofBits_append, ofBits_bitsOfByte, hlen, hval, Nat.pow_mul, ofBe_cons]

/-- The bytes of a text of hexadecimal digits, an even number of them. -/
theorem hexDecode_digits {digits : List Nat} (hlt : ∀ d ∈ digits, d < 16) {k : Nat}
    (hlen : digits.length = 2 * k) :
    ∃ bytes, hexDecode (digits.map fun d => UInt8.ofNat (Nat.digitChar d).toNat) = some bytes ∧
      bytes.length = k ∧ ofBe bytes = Nat.ofDigits 16 digits.reverse := by
  induction k generalizing digits with
  | zero =>
      have hnil : digits = [] := List.eq_nil_of_length_eq_zero hlen
      subst hnil
      exact ⟨[], rfl, rfl, rfl⟩
  | succ k ih =>
      match digits, hlen with
      | hi :: lo :: digits, hlen =>
          have hdigit : ∀ d < 16, hexDigit (UInt8.ofNat (Nat.digitChar d).toNat) = some d := by decide
          have hrest : digits.length = 2 * k := by
            simp only [List.length_cons] at hlen
            omega
          obtain ⟨bytes, hbytes, hk, hval⟩ := ih (fun d hd => hlt d (by simp [hd])) hrest
          have hhi : hi < 16 := hlt hi (by simp)
          have hlo : lo < 16 := hlt lo (by simp)
          refine ⟨UInt8.ofNat (hi * 16 + lo) :: bytes, ?_, by simp [hk], ?_⟩
          · simp [hexDecode, hdigit hi hhi, hdigit lo hlo, hbytes]
          · have hbyte : (UInt8.ofNat (hi * 16 + lo)).toNat = hi * 16 + lo :=
              UInt8.toNat_ofNat_of_lt' (show hi * 16 + lo < 256 by omega)
            have hdigits : Nat.ofDigits 16 (hi :: lo :: digits).reverse =
                Nat.ofDigits 16 digits.reverse + 16 ^ (2 * k) * (lo + 16 * hi) := by
              rw [List.reverse_cons, List.reverse_cons, List.append_assoc, Nat.ofDigits_append,
                List.length_reverse, hrest]
              rfl
            rw [ofBe_cons, hbyte, hk, hval, hdigits, Nat.pow_mul]
            ring

/-- The digits of a number in base 16. -/
theorem toDigits_eq (n : Nat) : ∃ digits : List Nat,
    Nat.toDigits 16 n = digits.map Nat.digitChar ∧ (∀ d ∈ digits, d < 16) ∧
      Nat.ofDigits 16 digits.reverse = n := by
  induction n using Nat.strongRecOn with
  | ind n ih =>
      by_cases hlt : n < 16
      · refine ⟨[n], Nat.toDigits_of_lt_base hlt, by simpa using hlt, ?_⟩
        simp
      · obtain ⟨digits, hchars, hdigits, hval⟩ := ih (n / 16) (by omega)
        refine ⟨digits ++ [n % 16], ?_, ?_, ?_⟩
        · rw [Nat.toDigits_of_base_le (by omega) (by omega), hchars, List.map_append,
            List.map_singleton]
        · intro d hd
          rcases List.mem_append.mp hd with hd | hd
          · exact hdigits d hd
          · rw [List.mem_singleton.mp hd]
            omega
        · rw [List.reverse_append, List.reverse_singleton, List.singleton_append, Nat.ofDigits_cons,
            hval]
          exact Nat.mod_add_div n 16

theorem digitChar_ascii {d : Nat} (h : d < 16) :
    (Nat.digitChar d).toNat < 128 ∧ (Nat.digitChar d).isAlphanum = true ∧
      (Nat.digitChar d == '-') = false := by
  have hall : ∀ d < 16, (Nat.digitChar d).toNat < 128 ∧ (Nat.digitChar d).isAlphanum = true ∧
      (Nat.digitChar d == '-') = false := by decide
  exact hall d h

/-- The digits of a number in base 16, as bytes. -/
def hexText (n : Nat) : Bytes := (Nat.toDigits 16 n).map fun c => UInt8.ofNat c.toNat

/-- A digit in front makes the number of digits even, and the bytes are those of
the number. -/
theorem hexDecode_hexText (n : Nat) :
    ∃ bytes, hexDecode (if (hexText n).length % 2 = 1 then 48 :: hexText n else hexText n) =
        some bytes ∧
      2 * bytes.length = (hexText n).length + (hexText n).length % 2 ∧ ofBe bytes = n := by
  obtain ⟨digits, hchars, hlt, hval⟩ := toDigits_eq n
  have htext : hexText n = digits.map fun d => UInt8.ofNat (Nat.digitChar d).toNat := by
    rw [hexText, hchars, List.map_map]
    rfl
  have hlen : (hexText n).length = digits.length := by
    rw [htext, List.length_map]
  by_cases hodd : (hexText n).length % 2 = 1
  · have hlt' : ∀ d ∈ 0 :: digits, d < 16 := by
      simpa using hlt
    have hcount : (0 :: digits).length = 2 * ((digits.length + 1) / 2) := by
      rw [List.length_cons]
      omega
    obtain ⟨bytes, hbytes, hk, hbe⟩ := hexDecode_digits hlt' hcount
    refine ⟨bytes, ?_, by omega, ?_⟩
    · rw [if_pos hodd, htext]
      exact hbytes
    · rw [hbe, List.reverse_cons, Nat.ofDigits_append_zero, hval]
  · have hcount : digits.length = 2 * (digits.length / 2) := by omega
    obtain ⟨bytes, hbytes, hk, hbe⟩ := hexDecode_digits hlt hcount
    refine ⟨bytes, ?_, by omega, by rw [hbe, hval]⟩
    rw [if_neg hodd, htext]
    exact hbytes

/-- What `encode_z` does with the bytes of the digits. -/
def zOfBytes (negative : Bool) (bytes : Bytes) : Except SerError Bytes :=
  match bytes with
  | [byte] =>
      if byte ≤ 0x3F then .ok [if negative then byte ||| 0x40 else byte]
      else zBytes.zLong negative [byte]
  | bytes => zBytes.zLong negative bytes

theorem zBytes_of_text {value : String} {sign : Char} {chars : List Char} {text bytes : Bytes}
    (hlist : value.toList = sign :: chars) (hascii : sign.toNat < 128)
    (htext : (utf8 value).drop (if sign.isAlphanum then 0 else 1) = text)
    (hbytes : hexDecode (if text.length % 2 = 1 then 48 :: text else text) = some bytes) :
    zBytes value = zOfBytes (sign == '-') bytes := by
  subst htext
  rw [zBytes, hlist]
  dsimp only
  rw [if_neg (by omega), hbytes]
  rfl

/-- The bytes of the digits of a number, from which `encode_z` goes on. -/
theorem zBytes_toStrRadix16 (n : Int) : ∃ bytes, ofBe bytes = n.natAbs ∧
    (n.natAbs < 64 → bytes.length = 1) ∧
    zBytes (toStrRadix16 n) = zOfBytes (decide (n < 0)) bytes := by
  obtain ⟨digits, hchars, hlt, hval⟩ := toDigits_eq n.natAbs
  obtain ⟨bytes, hbytes, hlen, hbe⟩ := hexDecode_hexText n.natAbs
  have hascii : ∀ c ∈ Nat.toDigits 16 n.natAbs, c.toNat < 128 ∧ c.isAlphanum = true ∧
      (c == '-') = false := by
    intro c hc
    rw [hchars] at hc
    obtain ⟨d, hd, rfl⟩ := List.mem_map.mp hc
    exact digitChar_ascii (hlt d hd)
  refine ⟨bytes, hbe, ?_, ?_⟩
  · intro hsmall
    have hle : (Nat.toDigits 16 n.natAbs).length ≤ 2 :=
      (Nat.length_toDigits_le_iff (by omega) (by omega)).mpr (by omega)
    have hpos : 0 < (Nat.toDigits 16 n.natAbs).length := Nat.length_toDigits_pos
    rw [hexText, List.length_map] at hlen
    omega
  · by_cases hneg : n < 0
    · have htext : utf8 (toStrRadix16 n) = 45 :: hexText n.natAbs := by
        rw [toStrRadix16, if_pos hneg, utf8_ofList]
        · rfl
        · intro c hc
          rcases List.mem_cons.mp hc with rfl | hc
          · decide
          · exact (hascii c hc).1
      have hlist : (toStrRadix16 n).toList = '-' :: Nat.toDigits 16 n.natAbs := by
        simp [toStrRadix16, hneg]
      have hsign : decide (n < 0) = ('-' == '-') := by simpa using hneg
      rw [hsign]
      exact zBytes_of_text hlist (by decide) (by rw [htext]; rfl) hbytes
    · have htext : utf8 (toStrRadix16 n) = hexText n.natAbs := by
        rw [toStrRadix16, if_neg hneg, utf8_ofList]
        · rfl
        · exact fun c hc => (hascii c hc).1
      have hlist : (toStrRadix16 n).toList = Nat.toDigits 16 n.natAbs := by
        simp [toStrRadix16, hneg]
      obtain ⟨sign, chars, hcons⟩ := List.exists_cons_of_ne_nil (@Nat.toDigits_ne_nil n.natAbs 16)
      obtain ⟨hlow, halpha, hminus⟩ := hascii sign (by rw [hcons]; exact List.mem_cons_self)
      have hsign : decide (n < 0) = (sign == '-') := by simpa [hminus] using hneg
      rw [hsign]
      exact zBytes_of_text (hlist.trans hcons) hlow (by rw [htext, halpha]; rfl) hbytes

theorem zOfBytes_long {negative : Bool} {bytes : Bytes} (h : 64 ≤ ofBe bytes) :
    zOfBytes negative bytes = zBytes.zLong negative bytes := by
  match bytes with
  | [] => rfl
  | [byte] =>
      have hbyte : ofBe [byte] = byte.toNat := by simp [ofBe]
      have hgt : ¬ byte ≤ 0x3F := by
        intro hle
        have hnat : byte.toNat ≤ 63 := UInt8.le_iff_toNat_le.mp hle
        omega
      rw [zOfBytes, if_neg hgt]
  | _ :: _ :: _ => rfl

/-- The forms `encode_z` has for a number: one byte when six bits suffice, and
otherwise the bits from the least significant one on, six in the first byte. -/
theorem zBytes_cases (n : Int) :
    (n.natAbs < 64 ∧ zBytes (toStrRadix16 n) =
      .ok [if n < 0 then UInt8.ofNat n.natAbs ||| 0x40 else UInt8.ofNat n.natAbs]) ∨
    (64 ≤ n.natAbs ∧ ∃ low high : List Bool, low.length = 6 ∧ 0 < high.length ∧
      ofBits (low ++ high).reverse = n.natAbs ∧
      zBytes (toStrRadix16 n) =
        .ok (setBits (if n < 0 then 0xC0 else 0x80) 0 low ::
          zChunks ((high.length - 1) / 7 + 1) high)) := by
  obtain ⟨bytes, hbe, hone, hz⟩ := zBytes_toStrRadix16 n
  rw [hz]
  by_cases hsmall : n.natAbs < 64
  · obtain ⟨byte, rfl⟩ := List.length_eq_one_iff.mp (hone hsmall)
    have hbyte : byte.toNat = n.natAbs := by simpa [ofBe] using hbe
    have hle : byte ≤ 0x3F := UInt8.le_iff_toNat_le.mpr (by rw [hbyte]; exact Nat.le_of_lt_succ hsmall)
    have hofNat : UInt8.ofNat n.natAbs = byte := by rw [← hbyte, UInt8.ofNat_toNat]
    refine .inl ⟨hsmall, ?_⟩
    rw [zOfBytes, if_pos hle, hofNat]
    simp
  · refine .inr ⟨by omega, ?_⟩
    have hlong : zOfBytes (decide (n < 0)) bytes = zBytes.zLong (decide (n < 0)) bytes :=
      zOfBytes_long (by rw [hbe]; omega)
    have hbits : ofBits (trimLeft (bitsOfBytes bytes)) = n.natAbs := by
      rw [trimLeft, ofBits_dropWhile, (ofBits_bitsOfBytes bytes).2, hbe]
    -- Fewer than seven bits do not make a number from 64 on.
    have hlen : 7 ≤ (trimLeft (bitsOfBytes bytes)).length := by
      by_contra hshort
      have hlt := ofBits_lt (trimLeft (bitsOfBytes bytes))
      have hpow : 2 ^ (trimLeft (bitsOfBytes bytes)).length ≤ 2 ^ 6 :=
        Nat.pow_le_pow_right (by omega) (by omega)
      omega
    refine ⟨(trimLeft (bitsOfBytes bytes)).reverse.take 6,
      (trimLeft (bitsOfBytes bytes)).reverse.drop 6, ?_, ?_, ?_, ?_⟩
    · rw [List.length_take, List.length_reverse]
      omega
    · rw [List.length_drop, List.length_reverse]
      omega
    · rw [List.take_append_drop, List.reverse_reverse, hbits]
    · rw [hlong, zBytes.zLong]
      simp only [List.length_reverse, List.length_drop]
      rw [if_neg (by omega), if_neg (by omega)]
      simp

/-! ## Reading what was written -/

/-- A number of six bits and its sign, in one byte. -/
theorem takeBit_short {m : Nat} (hm : m < 64) (negative : Bool) :
    let byte := if negative then UInt8.ofNat m ||| 0x40 else UInt8.ofNat m
    takeBit byte 7 = (false, byte) ∧ takeBit byte 6 = (negative, UInt8.ofNat m) ∧
      (UInt8.ofNat m).toInt8.toInt = m ∧ (-(UInt8.ofNat m).toInt8).toInt = -m := by
  have hall : ∀ m < 64, ∀ negative : Bool,
      let byte := if negative then UInt8.ofNat m ||| 0x40 else UInt8.ofNat m
      takeBit byte 7 = (false, byte) ∧ takeBit byte 6 = (negative, UInt8.ofNat m) ∧
        (UInt8.ofNat m).toInt8.toInt = m ∧ (-(UInt8.ofNat m).toInt8).toInt = -m := by decide +kernel
  exact hall m hm negative

/-- The first byte of a longer number: six bits, the sign, and the continuation bit. -/
theorem first_bits (negative : Bool) {low : List Bool} (h : low.length = 6) :
    let first := setBits (if negative then 0xC0 else 0x80) 0 low
    (∃ first₇ first₆, takeBit first 7 = (true, first₇) ∧ takeBit first₇ 6 = (negative, first₆) ∧
      [0, 1, 2, 3, 4, 5].map (getBit first₆) = low) ∧
    [0, 1, 2, 3, 4, 5, 6].map (getBit first) = low ++ [negative] ∧ getBit first 7 = true := by
  have hall : ∀ negative b₀ b₁ b₂ b₃ b₄ b₅ : Bool,
      let first := setBits (if negative then 0xC0 else 0x80) 0 [b₀, b₁, b₂, b₃, b₄, b₅]
      ((takeBit first 7).1 = true ∧ (takeBit (takeBit first 7).2 6).1 = negative ∧
        [0, 1, 2, 3, 4, 5].map (getBit (takeBit (takeBit first 7).2 6).2) =
          [b₀, b₁, b₂, b₃, b₄, b₅]) ∧
      [0, 1, 2, 3, 4, 5, 6].map (getBit first) = [b₀, b₁, b₂, b₃, b₄, b₅] ++ [negative] ∧
        getBit first 7 = true := by decide +kernel
  match low, h with
  | [b₀, b₁, b₂, b₃, b₄, b₅], _ =>
      obtain ⟨⟨hnext, hsign, hlow⟩, hmap, hseven⟩ := hall negative b₀ b₁ b₂ b₃ b₄ b₅
      exact ⟨⟨_, _, Prod.ext hnext rfl, Prod.ext hsign rfl, hlow⟩, hmap, hseven⟩

namespace Nom

@[simp] theorem u8_cons (x : UInt8) (s : Bytes) : u8 (x :: s) = .done s x := by
  have hx : ofBe [x] = x.toNat := by simp [ofBe]
  simp [u8, map, beNumber, hx]

/-- The chunks of the writer, all of them. -/
theorem chunkLoop_high {high : List Bool} (hpos : 0 < high.length) (acc : List Bool) (s : Bytes) :
    ∃ k, chunkLoop (zChunks ((high.length - 1) / 7 + 1) high ++ s) acc =
      .done s (acc ++ high ++ List.replicate k false) :=
  chunkLoop_zChunks s (by omega) (by omega) (by omega) acc

/-- `zarith` reads back what `encode_z` writes. -/
theorem zarith_zBytes (n : Int) (s : Bytes) :
    ∃ b, zBytes (toStrRadix16 n) = .ok b ∧ zarith (b ++ s) = .done s n := by
  obtain ⟨hsmall, hb⟩ | ⟨_, low, high, hlow, hhigh, hbits, hb⟩ := zBytes_cases n
  · refine ⟨_, hb, ?_⟩
    obtain ⟨hseven, hsix, hpos, hneg⟩ := takeBit_short hsmall (decide (n < 0))
    simp only [decide_eq_true_eq] at hseven hsix
    rw [List.singleton_append, zarith, u8_cons, andThen_done]
    simp only [hseven, hsix, Bool.not_false, if_true]
    by_cases hn : n < 0
    · have hvalue : (-(UInt8.ofNat n.natAbs).toInt8).toInt = n := by omega
      simp only [hn, decide_true, if_true, hvalue]
    · have hvalue : (UInt8.ofNat n.natAbs).toInt8.toInt = n := by omega
      simp only [hn, decide_false, Bool.false_eq_true, if_false, hvalue]
  · refine ⟨_, hb, ?_⟩
    obtain ⟨⟨first₇, first₆, hseven, hsix, hmap⟩, _, _⟩ := first_bits (decide (n < 0)) hlow
    obtain ⟨k, hloop⟩ := chunkLoop_high hhigh low s
    simp only [decide_eq_true_eq] at hseven
    rw [List.cons_append, zarith, u8_cons, andThen_done]
    simp only [hseven, hsix, hmap, hloop, andThen_done, Bool.not_true]
    have hnumber : numberOfBits (low ++ high ++ List.replicate k false) = n.natAbs := by
      rw [numberOfBits_eq, List.reverse_append, List.reverse_replicate, ofBits_replicate_append,
        hbits]
    rw [hnumber]
    by_cases hn : n < 0
    · have hvalue : -(n.natAbs : Int) = n := by omega
      simp only [hn, decide_true, if_true, Bool.false_eq_true, if_false, hvalue]
    · have hvalue : (n.natAbs : Int) = n := by omega
      simp only [hn, decide_false, Bool.false_eq_true, if_false, hvalue]

/-- `mutez` takes the sign bit of the first byte for a bit of the number: the bits
from the seventh on are read one place too high. -/
theorem mutez_zBytes (m : Nat) (s : Bytes) :
    ∃ b, zBytes (toStrRadix16 m) = .ok b ∧
      mutez (b ++ s) = .done s ((m % 64 + 128 * (m / 64) : Nat) : Int) := by
  have hsign : ¬ (m : Int) < 0 := by omega
  obtain ⟨hsmall, hb⟩ | ⟨_, low, high, hlow, hhigh, hbits, hb⟩ := zBytes_cases m
  · rw [Int.natAbs_natCast] at hsmall
    rw [if_neg hsign, Int.natAbs_natCast] at hb
    have hall : ∀ m < 64, getBit (UInt8.ofNat m) 7 = false ∧
        ofBits ([0, 1, 2, 3, 4, 5, 6].map (getBit (UInt8.ofNat m))).reverse = m := by
      decide +kernel
    obtain ⟨hseven, hvalue⟩ := hall m hsmall
    have hmod : m % 64 + 128 * (m / 64) = m := by omega
    refine ⟨_, hb, ?_⟩
    rw [List.singleton_append, mutez, chunkLoop]
    simp only [hseven, List.nil_append, Bool.false_eq_true, if_false, andThen_done,
      numberOfBits_eq, hvalue, hmod]
  · rw [Int.natAbs_natCast] at hbits
    rw [if_neg hsign] at hb
    obtain ⟨_, hmap, hseven⟩ := first_bits false hlow
    obtain ⟨k, hloop⟩ := chunkLoop_high hhigh (low ++ [false]) s
    simp only [Bool.false_eq_true, if_false] at hmap hseven
    refine ⟨_, hb, ?_⟩
    rw [List.cons_append, mutez, chunkLoop]
    simp only [hmap, hseven, if_true, List.nil_append, hloop, andThen_done, numberOfBits_eq]
    have hlt := ofBits_lt low.reverse
    rw [List.length_reverse, hlow] at hlt
    have hnumber : m = ofBits high.reverse * 2 ^ 6 + ofBits low.reverse := by
      rw [← hbits, List.reverse_append, ofBits_append, List.length_reverse, hlow]
    have hread : ofBits (low ++ [false] ++ high ++ List.replicate k false).reverse =
        ofBits high.reverse * 128 + ofBits low.reverse := by
      rw [List.reverse_append, List.reverse_replicate, ofBits_replicate_append, List.reverse_append,
        List.reverse_append, ofBits_append, List.reverse_singleton, List.singleton_append,
        ofBits_cons, List.length_cons, List.length_reverse, hlow]
      simp
    have hmod : m % 64 + 128 * (m / 64) = ofBits high.reverse * 128 + ofBits low.reverse := by
      omega
    rw [hread, hmod]

end Nom

open Nom

/-- `Encoding::Z` round trips: `zarith` returns the number that was written, and
leaves what stands behind it. -/
theorem zarith_encodeValue (n : Int) (data s : Bytes) :
    ∃ b, encodeValue .z data (.string (toStrRadix16 n)) = .ok (b.length, data ++ b) ∧
      zarith (b ++ s) = .done s n := by
  obtain ⟨b, hb, hread⟩ := zarith_zBytes n s
  exact ⟨b, by rw [encodeValue, encodeZ, hb], hread⟩

/-- `Encoding::Mutez` round trips for the numbers of one byte only. -/
theorem mutez_encodeValue_iff (m : Nat) (data s : Bytes) :
    (∃ b, encodeValue .mutez data (.string (toStrRadix16 m)) = .ok (b.length, data ++ b) ∧
      mutez (b ++ s) = .done s m) ↔ m < 64 := by
  obtain ⟨b, hb, hread⟩ := mutez_zBytes m s
  have hwrite : encodeValue .mutez data (.string (toStrRadix16 m)) = .ok (b.length, data ++ b) := by
    rw [encodeValue, encodeZ, hb]
  constructor
  · intro h
    obtain ⟨b', hb', hread'⟩ := h
    rw [hwrite] at hb'
    obtain ⟨_, happend⟩ := Prod.mk.inj (Except.ok.inj hb')
    rw [← List.append_cancel_left happend, hread] at hread'
    injection hread' with _ hvalue
    omega
  · intro hsmall
    have hmod : m % 64 + 128 * (m / 64) = m := by omega
    rw [hmod] at hread
    exact ⟨b, hwrite, hread⟩

/-- Sixty-four is written as two bytes, from which one hundred and twenty-eight is read. -/
theorem mutez_sixtyFour :
    ¬ ∀ (m : Nat) (data s : Bytes), ∃ b,
      encodeValue .mutez data (.string (toStrRadix16 m)) = .ok (b.length, data ++ b) ∧
        mutez (b ++ s) = .done s m := by
  intro h
  obtain ⟨b, hb, hread⟩ := h 64 [] []
  have hwrite : encodeValue .mutez [] (.string (toStrRadix16 (64 : Nat))) =
      .ok (2, [0x80, 0x01]) := by rfl
  rw [hwrite] at hb
  obtain ⟨_, hb⟩ := Prod.mk.inj (Except.ok.inj hb)
  rw [List.nil_append] at hb
  rw [← hb] at hread
  have hvalue : mutez ([0x80, 0x01] ++ []) = .done [] 128 := by rfl
  rw [hvalue] at hread
  injection hread with _ hvalue
  cases hvalue

end NodeFuzzer
