import Mathlib.Data.Nat.Digits.Lemmas
import NodeFuzzer.Library.Bytes

/-!
# Sealed boxes and their nonces

`Nonce` counts the boxes that were sealed; it is a big number that has to fit into
`NONCE_SIZE` bytes when it is used.  `PrecomputedKey` seals and opens with it.  The box of
the cryptographic library is a parameter, and what the code relies on is
`CryptoBox.Correct`.
-/

namespace NodeFuzzer

/-- `NONCE_SIZE`. -/
def NONCE_SIZE : Nat := 24

/-- `CryptoError`, as far as sealing and opening return it. -/
inductive CryptoError where
  | invalidNonceSize (expected actual : Nat)
  | failedToDecrypt
deriving DecidableEq

/-- `BigUint::to_bytes_be`. -/
def toBytesBe (n : Nat) : Bytes :=
  if n = 0 then [0] else ((Nat.digits 256 n).map UInt8.ofNat).reverse

/-- `Nonce`. -/
structure Nonce where
  value : Nat
deriving DecidableEq

namespace Nonce

/-- `increment`. -/
def increment (nonce : Nonce) : Nonce := ⟨nonce.value + 1⟩

/-- `get_bytes`. -/
def getBytes (nonce : Nonce) : Except CryptoError Bytes :=
  let bytes := toBytesBe nonce.value
  if bytes.length ≤ NONCE_SIZE then .ok (List.replicate (NONCE_SIZE - bytes.length) 0 ++ bytes)
  else .error (.invalidNonceSize NONCE_SIZE bytes.length)

/-- The nonce `k` boxes later. -/
def after (nonce : Nonce) (k : Nat) : Nonce := ⟨nonce.value + k⟩

@[simp] theorem after_zero (nonce : Nonce) : nonce.after 0 = nonce := rfl

theorem increment_after (nonce : Nonce) (k : Nat) :
    nonce.increment.after k = nonce.after (k + 1) := by
  simp only [after, increment, Nat.add_right_comm, Nat.add_assoc]

theorem toBytesBe_length_le_iff (n : Nat) : (toBytesBe n).length ≤ NONCE_SIZE ↔ n < 2 ^ 192 := by
  unfold toBytesBe
  split
  next h =>
    subst h
    decide
  next h =>
    have hiff := Nat.digits_length_le_iff (b := 256) (k := NONCE_SIZE) (by decide) n
    rw [List.length_reverse, List.length_map, hiff, NONCE_SIZE]
    norm_num

theorem getBytes_ok {nonce : Nonce} (h : nonce.value < 2 ^ 192) : ∃ b, nonce.getBytes = .ok b := by
  simp [getBytes, (toBytesBe_length_le_iff nonce.value).mpr h]

end Nonce

/-- The box of the cryptographic library. -/
class CryptoBox (Key : Type) where
  /-- `seal_precomputed`. -/
  sealPrecomputed : Bytes → Bytes → Key → Bytes
  /-- `open_precomputed`. -/
  openPrecomputed : Bytes → Bytes → Key → Option Bytes

/-- The size of the authentication tag of a box. -/
def MACBYTES : Nat := 16

/-- What the library promises of a box: it is larger by the tag, and it opens under the
nonce and key it was sealed with. -/
structure CryptoBox.Correct (Key : Type) [CryptoBox Key] : Prop where
  length : ∀ (msg nonce : Bytes) (key : Key),
    (sealPrecomputed msg nonce key).length = msg.length + MACBYTES
  opens : ∀ (msg nonce : Bytes) (key : Key),
    openPrecomputed (sealPrecomputed msg nonce key) nonce key = some msg

variable {Key : Type} [CryptoBox Key]

/-- `PrecomputedKey::encrypt`. -/
def encrypt (key : Key) (msg : Bytes) (nonce : Nonce) : Except CryptoError Bytes := do
  let boxNonce ← nonce.getBytes
  pure (CryptoBox.sealPrecomputed msg boxNonce key)

/-- `PrecomputedKey::decrypt`. -/
def decrypt (key : Key) (enc : Bytes) (nonce : Nonce) : Except CryptoError Bytes := do
  let boxNonce ← nonce.getBytes
  match CryptoBox.openPrecomputed enc boxNonce key with
  | some msg => pure msg
  | none => throw .failedToDecrypt

theorem encrypt_ok (correct : CryptoBox.Correct Key) (key : Key) (msg : Bytes) {nonce : Nonce}
    (h : nonce.value < 2 ^ 192) : ∃ enc, encrypt key msg nonce = .ok enc ∧
      enc.length = msg.length + MACBYTES ∧ decrypt key enc nonce = .ok msg := by
  obtain ⟨boxNonce, hbytes⟩ := Nonce.getBytes_ok h
  refine ⟨CryptoBox.sealPrecomputed msg boxNonce key, ?_, correct.length msg boxNonce key, ?_⟩
  · simp [encrypt, hbytes, Bind.bind, Except.bind, Pure.pure, Except.pure]
  · simp [decrypt, hbytes, Bind.bind, Except.bind, Pure.pure, Except.pure, correct.opens]

/-- What was sealed opens. -/
theorem decrypt_encrypt (correct : CryptoBox.Correct Key) {key : Key} {msg enc : Bytes}
    {nonce : Nonce} (h : encrypt key msg nonce = .ok enc) :
    enc.length = msg.length + MACBYTES ∧ decrypt key enc nonce = .ok msg := by
  cases hbytes : nonce.getBytes with
  | error e => simp [encrypt, hbytes, Bind.bind, Except.bind] at h
  | ok boxNonce =>
      simp only [encrypt, hbytes, Bind.bind, Except.bind, Pure.pure, Except.pure,
        Except.ok.injEq] at h
      subst h
      refine ⟨correct.length msg boxNonce key, ?_⟩
      simp [decrypt, hbytes, Bind.bind, Except.bind, Pure.pure, Except.pure, correct.opens]

/-- The key of a box with a tag of zeros, for small inputs. -/
inductive PlainKey where
  | plain

instance : CryptoBox PlainKey where
  sealPrecomputed msg _ _ := List.replicate MACBYTES 0 ++ msg
  openPrecomputed enc _ _ := if enc.length < MACBYTES then none else some (enc.drop MACBYTES)

theorem plain_correct : CryptoBox.Correct PlainKey := by
  constructor
  · intro msg nonce key
    simp [CryptoBox.sealPrecomputed, Nat.add_comm]
  · intro msg nonce key
    simp [CryptoBox.sealPrecomputed, CryptoBox.openPrecomputed]

end NodeFuzzer
