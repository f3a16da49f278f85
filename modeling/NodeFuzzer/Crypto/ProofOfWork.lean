import NodeFuzzer.Crypto.CryptoBox

/-!
# Proof of work

`ProofOfWork::generate` hashes a public key and a nonce until the hash is small enough.
A nonce that fails is counted on, in three words of 64 bits that stand in the buffer behind
the key.

*Search.*  The nonces that are tried are those that follow the first one modulo `2 ^ 192`
(`failedRounds_new`).  So none is tried twice before all were tried, and the search ends exactly
when there is a nonce that passes (`generate_returns_iff`).
-/

namespace NodeFuzzer

/-- `POW_SIZE`. -/
def POW_SIZE : Nat := NONCE_SIZE

/-- `CRYPTO_KEY_SIZE`. -/
def CRYPTO_KEY_SIZE : Nat := 32

/-- `PublicKey`. -/
structure PublicKey where
  val : Bytes
  size : val.length = CRYPTO_KEY_SIZE

/-- `ProofOfWork`. -/
@[ext] structure ProofOfWork where
  val : Bytes
  size : val.length = POW_SIZE

/-- `PowError`. -/
inductive PowError where
  | checkFailed
  | blake2b
deriving DecidableEq

namespace ProofOfWork

/-! ## Words in a buffer -/

/-- `u64::from_be_bytes` of the eight bytes from a place on. -/
def wordAt (data : Bytes) (start : Nat) : UInt64 := UInt64.ofNat (ofBe ((data.drop start).take 8))

/-- `clone_from_slice` of `to_be_bytes` into the eight bytes from a place on. -/
def setWordAt (data : Bytes) (start : Nat) (word : UInt64) : Bytes :=
  data.take start ++ (toBe 8 word.toNat ++ data.drop (start + 8))

/-- `u64::MAX`. -/
def u64Max : UInt64 := UInt64.ofNat (2 ^ 64 - 1)

/-- The word between two parts of a buffer. -/
theorem word_between {data pre word post : Bytes} {start : Nat}
    (split : data = pre ++ (word ++ post)) (hpre : pre.length = start) (hword : word.length = 8) :
    wordAt data start = UInt64.ofNat (ofBe word) ∧
      ∀ w, setWordAt data start w = pre ++ (toBe 8 w.toNat ++ post) := by
  rw [split, ← hpre]
  constructor
  · rw [wordAt, List.drop_left, List.take_left' hword]
  · intro w
    rw [setWordAt, List.take_left, ← List.drop_drop, List.drop_left, List.drop_left' hword]

/-- What a failed round does to the buffer. -/
def increment (data : Bytes) : Bytes :=
  let c := wordAt data 0x30
  if c = u64Max then
    let b := wordAt data 0x28
    if b = u64Max then
      let a := wordAt data 0x20
      let a := if a = u64Max then 0 else a + 1
      let data := setWordAt data 0x20 a
      let data := setWordAt data 0x28 0
      setWordAt data 0x30 0
    else
      let data := setWordAt data 0x28 (b + 1)
      setWordAt data 0x30 0
  else setWordAt data 0x30 (c + 1)

/-! ## Counting on -/

/-- The number that three words spell. -/
theorem ofBe_words (x : Bytes) {y z : Bytes} (hy : y.length = 8) (hz : z.length = 8) :
    ofBe (x ++ (y ++ z)) = ofBe x * 2 ^ 128 + (ofBe y * 2 ^ 64 + ofBe z) := by
  rw [ofBe_append, ofBe_append, List.length_append, hy, hz]
  norm_num

section Words

variable {key x y z : Bytes}

theorem word_lt (hz : z.length = 8) : ofBe z < 2 ^ 64 := by
  have hlt := ofBe_lt z
  rw [hz] at hlt
  exact hlt

/-- The word after a word that is not the last one. -/
theorem toNat_succ (hz : z.length = 8) (next : UInt64.ofNat (ofBe z) ≠ u64Max) :
    (UInt64.ofNat (ofBe z) + 1).toNat = ofBe z + 1 ∧ ofBe z + 1 < 256 ^ 8 := by
  have hlt := word_lt hz
  have hne : ofBe z ≠ 2 ^ 64 - 1 := by
    intro h
    rw [h] at next
    exact next rfl
  have hnext : ofBe z + 1 < 2 ^ 64 := by omega
  refine ⟨?_, hnext⟩
  rw [UInt64.toNat_add, UInt64.toNat_ofNat_of_lt' hlt, UInt64.toNat_one]
  exact Nat.mod_eq_of_lt hnext

theorem eq_max (hz : z.length = 8) (last : UInt64.ofNat (ofBe z) = u64Max) :
    ofBe z = 2 ^ 64 - 1 := by
  have h := congrArg UInt64.toNat last
  rw [UInt64.toNat_ofNat_of_lt' (word_lt hz)] at h
  exact h

theorem firstWord (hkey : key.length = 32) (hx : x.length = 8) (y z : Bytes) :
    wordAt (key ++ (x ++ (y ++ z))) 0x20 = UInt64.ofNat (ofBe x) ∧
      ∀ w, setWordAt (key ++ (x ++ (y ++ z))) 0x20 w = key ++ (toBe 8 w.toNat ++ (y ++ z)) :=
  word_between rfl hkey hx

theorem secondWord (hkey : key.length = 32) (hx : x.length = 8) (hy : y.length = 8) (z : Bytes) :
    wordAt (key ++ (x ++ (y ++ z))) 0x28 = UInt64.ofNat (ofBe y) ∧
      ∀ w, setWordAt (key ++ (x ++ (y ++ z))) 0x28 w = key ++ (x ++ (toBe 8 w.toNat ++ z)) := by
  have hpre : (key ++ x).length = 0x28 := by simp [hkey, hx]
  have split : key ++ (x ++ (y ++ z)) = (key ++ x) ++ (y ++ z) := by simp
  simpa using word_between split hpre hy

theorem thirdWord (hkey : key.length = 32) (hx : x.length = 8) (hy : y.length = 8)
    (hz : z.length = 8) : wordAt (key ++ (x ++ (y ++ z))) 0x30 = UInt64.ofNat (ofBe z) ∧
      ∀ w, setWordAt (key ++ (x ++ (y ++ z))) 0x30 w = key ++ (x ++ (y ++ toBe 8 w.toNat)) := by
  have hpre : (key ++ (x ++ y)).length = 0x30 := by simp [hkey, hx, hy]
  have split : key ++ (x ++ (y ++ z)) = (key ++ (x ++ y)) ++ (z ++ []) := by simp
  simpa using word_between split hpre hz

/-- The carry goes on to the word before as long as a word is the last one. -/
theorem increment_words (hkey : key.length = 32) (hx : x.length = 8) (hy : y.length = 8)
    (hz : z.length = 8) : ∃ next : Bytes, next.length = 24 ∧
      increment (key ++ (x ++ (y ++ z))) = key ++ next ∧
      ofBe next = (ofBe (x ++ (y ++ z)) + 1) % 2 ^ 192 := by
  have zero : ofBe (toBe 8 0) = 0 := rfl
  have ltX := word_lt hx
  have ltY := word_lt hy
  have ltZ := word_lt hz
  rw [increment, (thirdWord hkey hx hy hz).1]
  by_cases lastZ : UInt64.ofNat (ofBe z) = u64Max
  · have maxZ := eq_max hz lastZ
    rw [if_pos lastZ, (secondWord hkey hx hy z).1]
    by_cases lastY : UInt64.ofNat (ofBe y) = u64Max
    · have maxY := eq_max hy lastY
      rw [if_pos lastY, (firstWord hkey hx y z).1]
      have wrote : ∀ a : UInt64, setWordAt (setWordAt (setWordAt (key ++ (x ++ (y ++ z))) 0x20 a)
          0x28 0) 0x30 0 = key ++ (toBe 8 a.toNat ++ (toBe 8 0 ++ toBe 8 0)) := by
        intro a
        rw [(firstWord hkey hx y z).2, (secondWord hkey (toBe_length 8 _) hy z).2]
        exact (thirdWord hkey (toBe_length 8 _) (toBe_length 8 _) hz).2 0
      refine ⟨_, ?_, wrote _, ?_⟩
      · simp
      · rw [ofBe_words _ (by simp) (by simp), ofBe_words x hy hz, zero, maxY, maxZ]
        by_cases lastX : UInt64.ofNat (ofBe x) = u64Max
        · have maxX := eq_max hx lastX
          rw [if_pos lastX, maxX, UInt64.toNat_zero, zero]
          norm_num
        · obtain ⟨value, lt⟩ := toNat_succ hx lastX
          rw [if_neg lastX, value, ofBe_toBe_of_lt lt]
          omega
    · obtain ⟨value, lt⟩ := toNat_succ hy lastY
      rw [if_neg lastY]
      refine ⟨x ++ (toBe 8 (ofBe y + 1) ++ toBe 8 0), by simp [hx], ?_, ?_⟩
      · rw [(secondWord hkey hx hy z).2, value]
        exact (thirdWord hkey hx (by simp) hz).2 0
      · rw [ofBe_words x (by simp) (by simp), ofBe_words x hy hz, ofBe_toBe_of_lt lt, zero]
        omega
  · obtain ⟨value, lt⟩ := toNat_succ hz lastZ
    rw [if_neg lastZ]
    refine ⟨x ++ (y ++ toBe 8 (ofBe z + 1)), by simp [hx, hy], ?_, ?_⟩
    · rw [(thirdWord hkey hx hy hz).2, value]
    · rw [ofBe_words x hy (by simp), ofBe_words x hy hz, ofBe_toBe_of_lt lt]
      omega

end Words

/-! ## The search -/

/-- The nonce that is tried next. -/
theorem increment_append {key nonce : Bytes} (hkey : key.length = 32) (hnonce : nonce.length = 24) :
    increment (key ++ nonce) = key ++ toBe 24 (ofBe nonce + 1) := by
  have hx : (nonce.take 8).length = 8 := by simp [hnonce]
  have hy : ((nonce.drop 8).take 8).length = 8 := by simp [hnonce]
  have hz : ((nonce.drop 8).drop 8).length = 8 := by simp [hnonce]
  have split : nonce.take 8 ++ ((nonce.drop 8).take 8 ++ (nonce.drop 8).drop 8) = nonce := by
    rw [List.take_append_drop, List.take_append_drop]
  obtain ⟨next, length, eq, value⟩ := increment_words hkey hx hy hz
  rw [split] at eq value
  have low : toBe 24 (ofBe nonce + 1) = toBe 24 (ofBe next) := by
    have high := toBe_add_mul 24 ((ofBe nonce + 1) % 256 ^ 24) ((ofBe nonce + 1) / 256 ^ 24)
    rw [Nat.mul_comm, Nat.div_add_mod] at high
    rw [value]
    exact high
  rw [eq, low, ← length, toBe_ofBe]

/-- The number a nonce is. -/
def toNat (pow : ProofOfWork) : Nat := ofBe pow.val

/-- The nonce that is tried after `k` failures. -/
def after (pow : ProofOfWork) (k : Nat) : ProofOfWork :=
  ⟨toBe 24 (pow.toNat + k), toBe_length 24 _⟩

theorem toNat_lt (pow : ProofOfWork) : pow.toNat < 2 ^ 192 := by
  have := ofBe_lt pow.val
  rw [pow.size] at this
  exact this

theorem toNat_after (pow : ProofOfWork) (k : Nat) :
    (pow.after k).toNat = (pow.toNat + k) % 2 ^ 192 := ofBe_toBe 24 _

theorem toNat_injective : Function.Injective toNat := by
  intro p q h
  have hp := toBe_ofBe p.val
  have hq := toBe_ofBe q.val
  rw [p.size] at hp
  rw [q.size] at hq
  rw [toNat, toNat] at h
  exact ProofOfWork.ext (by rw [← hp, ← hq, h])

@[simp] theorem after_zero (pow : ProofOfWork) : pow.after 0 = pow := by
  refine toNat_injective ?_
  rw [toNat_after, Nat.add_zero, Nat.mod_eq_of_lt pow.toNat_lt]

theorem after_after (pow : ProofOfWork) (j k : Nat) : (pow.after j).after k = pow.after (j + k) := by
  refine toNat_injective ?_
  rw [toNat_after, toNat_after, toNat_after, Nat.mod_add_mod, Nat.add_assoc]

/-- Each nonce follows once before the first one comes again. -/
theorem after_existsUnique (pow p : ProofOfWork) : ∃! k, k < 2 ^ 192 ∧ pow.after k = p := by
  have hpow := pow.toNat_lt
  have hp := p.toNat_lt
  have reaches : ∀ k, pow.after k = p ↔ (pow.toNat + k) % 2 ^ 192 = p.toNat := by
    intro k
    rw [← toNat_after]
    exact toNat_injective.eq_iff.symm
  simp only [reaches]
  refine ⟨(p.toNat + (2 ^ 192 - pow.toNat)) % 2 ^ 192, ⟨Nat.mod_lt _ (by positivity), ?_⟩, ?_⟩
  · omega
  · rintro k ⟨hk, hmod⟩
    omega

end ProofOfWork

/-- The buffer of `generate`: a key and the nonce that is tried. -/
@[ext] structure SearchData where
  val : Bytes
  size : val.length = CRYPTO_KEY_SIZE + POW_SIZE

namespace SearchData

/-- The buffer for a key and a nonce. -/
def new (publicKey : PublicKey) (nonce : ProofOfWork) : SearchData :=
  ⟨publicKey.val ++ nonce.val, by rw [List.length_append, publicKey.size, nonce.size]⟩

/-- The nonce in the buffer. -/
def nonce (data : SearchData) : ProofOfWork :=
  ⟨data.val.drop CRYPTO_KEY_SIZE, by rw [List.length_drop, data.size, Nat.add_sub_cancel_left]⟩

theorem exists_new (data : SearchData) : ∃ publicKey, data = new publicKey data.nonce := by
  refine ⟨⟨data.val.take CRYPTO_KEY_SIZE, ?_⟩, ?_⟩
  · rw [List.length_take, data.size]
    rfl
  · exact SearchData.ext (List.take_append_drop _ _).symm

@[simp] theorem nonce_new (publicKey : PublicKey) (nonce : ProofOfWork) :
    (new publicKey nonce).nonce = nonce := ProofOfWork.ext (List.drop_left' publicKey.size)

/-- The buffer after a failed round. -/
def increment (data : SearchData) : SearchData where
  val := ProofOfWork.increment data.val
  size := by
    obtain ⟨publicKey, split⟩ := data.exists_new
    rw [split, new, ProofOfWork.increment_append publicKey.size data.nonce.size, List.length_append,
      publicKey.size, toBe_length]
    rfl

@[simp] theorem increment_new (publicKey : PublicKey) (nonce : ProofOfWork) :
    (new publicKey nonce).increment = new publicKey (nonce.after 1) :=
  SearchData.ext (ProofOfWork.increment_append publicKey.size nonce.size)

end SearchData

section Generate

variable (digest256 : Bytes → Option Bytes) (targetNumber : Nat)

/-- `check_proof_of_work_inner`.  The hash is a number with its least byte first. -/
def checkProofOfWorkInner (data : Bytes) : Except PowError Unit :=
  match digest256 data with
  | none => .error .blake2b
  | some hash => if ofBe hash.reverse ≤ targetNumber then .ok () else .error .checkFailed

namespace ProofOfWork

/-- `check`. -/
def check (self : ProofOfWork) (pk : PublicKey) : Except PowError Unit :=
  checkProofOfWorkInner digest256 targetNumber (pk.val ++ self.val)

/-- An iteration of `generate`: the proof, or the buffer of the next one. -/
def round (data : SearchData) : Except SearchData ProofOfWork :=
  match checkProofOfWorkInner digest256 targetNumber data.val with
  | .ok _ => .ok data.nonce
  | .error _ => .error data.increment

/-- Iterations of `generate`. -/
def generateLoop : Nat → SearchData → Option ProofOfWork
  | 0, _ => none
  | fuel + 1, data =>
      match round digest256 targetNumber data with
      | .ok pow => some pow
      | .error data => generateLoop fuel data

/-- `generate`, with the nonce that is drawn, as far as it returns. -/
def generate (publicKey : PublicKey) (drawn : ProofOfWork) (fuel : Nat) : Option ProofOfWork :=
  generateLoop digest256 targetNumber fuel (.new publicKey drawn)

/-- The buffer after a number of iterations that all failed. -/
def failedRounds : Nat → SearchData → Option SearchData
  | 0, data => some data
  | k + 1, data =>
      match round digest256 targetNumber data with
      | .ok _ => none
      | .error data => failedRounds k data

variable {digest256 targetNumber}

theorem round_new_ok {pk : PublicKey} {nonce : ProofOfWork}
    (passes : nonce.check digest256 targetNumber pk = .ok ()) :
    round digest256 targetNumber (.new pk nonce) = .ok nonce := by
  rw [check] at passes
  rw [round, SearchData.new, passes]
  exact congrArg Except.ok (SearchData.nonce_new pk nonce)

theorem round_new_error {pk : PublicKey} {nonce : ProofOfWork}
    (fails : nonce.check digest256 targetNumber pk ≠ .ok ()) :
    round digest256 targetNumber (.new pk nonce) = .error (.new pk (nonce.after 1)) := by
  rw [round, ← SearchData.increment_new]
  split
  next passes => exact absurd passes fails
  next => rfl

/-- After a failure, the nonces that follow are those of the next one. -/
theorem fails_succ {pk : PublicKey} {nonce : ProofOfWork} {k : Nat}
    (fails : nonce.check digest256 targetNumber pk ≠ .ok ()) :
    (∀ j < k, ((nonce.after 1).after j).check digest256 targetNumber pk ≠ .ok ()) ↔
      ∀ j < k + 1, (nonce.after j).check digest256 targetNumber pk ≠ .ok () := by
  rw [Nat.forall_lt_succ_left, after_zero]
  simp only [after_after, Nat.add_comm 1]
  exact (and_iff_right fails).symm

/-- Rounds fail as long as the nonces do. -/
theorem failedRounds_new {pk : PublicKey} {nonce : ProofOfWork} {k : Nat} {data : SearchData} :
    failedRounds digest256 targetNumber k (.new pk nonce) = some data ↔
      (∀ j < k, (nonce.after j).check digest256 targetNumber pk ≠ .ok ()) ∧
        data = .new pk (nonce.after k) := by
  induction k generalizing nonce with
  | zero => simp [failedRounds, eq_comm]
  | succ k ih =>
      rw [failedRounds]
      by_cases passes : nonce.check digest256 targetNumber pk = .ok ()
      · rw [round_new_ok passes]
        refine iff_of_false (Option.some_ne_none _).symm fun h => h.1 0 (Nat.succ_pos k) ?_
        rw [after_zero]
        exact passes
      · rw [round_new_error passes]
        refine ih.trans (and_congr (fails_succ passes) ?_)
        rw [after_after, Nat.add_comm 1 k]

/-- What is returned is the first nonce that passes. -/
theorem generateLoop_new {pk : PublicKey} {nonce pow : ProofOfWork} {fuel : Nat} :
    generateLoop digest256 targetNumber fuel (.new pk nonce) = some pow ↔
      ∃ k < fuel, (∀ j < k, (nonce.after j).check digest256 targetNumber pk ≠ .ok ()) ∧
        pow = nonce.after k ∧ pow.check digest256 targetNumber pk = .ok () := by
  induction fuel generalizing nonce with
  | zero => simp [generateLoop]
  | succ fuel ih =>
      rw [generateLoop]
      by_cases passes : nonce.check digest256 targetNumber pk = .ok ()
      · rw [round_new_ok passes]
        constructor
        · rintro ⟨⟩
          exact ⟨0, Nat.succ_pos fuel, fun j hj => absurd hj (Nat.not_lt_zero j),
            (after_zero _).symm, passes⟩
        · rintro ⟨k, _, fails, rfl, _⟩
          cases k with
          | zero => rw [after_zero]
          | succ k =>
              have first := fails 0 (Nat.succ_pos k)
              rw [after_zero] at first
              exact absurd passes first
      · rw [round_new_error passes]
        refine ih.trans ⟨?_, ?_⟩
        · rintro ⟨k, hk, fails, rfl, passed⟩
          refine ⟨k + 1, Nat.succ_lt_succ hk, (fails_succ passes).mp fails, ?_, passed⟩
          rw [after_after, Nat.add_comm 1 k]
        · rintro ⟨k, hk, fails, rfl, passed⟩
          cases k with
          | zero =>
              rw [after_zero] at passed
              exact absurd passed passes
          | succ k =>
              refine ⟨k, Nat.lt_of_succ_lt_succ hk, (fails_succ passes).mpr fails, ?_, passed⟩
              rw [after_after, Nat.add_comm 1 k]

/-- The search ends exactly when there is a nonce that passes. -/
theorem generate_returns_iff (pk : PublicKey) (drawn : ProofOfWork) :
    (∃ fuel pow, generate digest256 targetNumber pk drawn fuel = some pow) ↔
      ∃ pow : ProofOfWork, pow.check digest256 targetNumber pk = .ok () := by
  constructor
  · rintro ⟨fuel, pow, returned⟩
    obtain ⟨_, _, _, _, passes⟩ := generateLoop_new.mp returned
    exact ⟨pow, passes⟩
  · rintro ⟨pow, passes⟩
    obtain ⟨k, ⟨_, rfl⟩, _⟩ := after_existsUnique drawn pow
    classical
    have some : ∃ k, (drawn.after k).check digest256 targetNumber pk = .ok () := ⟨k, passes⟩
    refine ⟨Nat.find some + 1, drawn.after (Nat.find some), generateLoop_new.mpr ?_⟩
    exact ⟨Nat.find some, Nat.lt_succ_self _, fun j hj => Nat.find_min some hj, rfl,
      Nat.find_spec some⟩

/-- A failed iteration counts the nonce on, so that every nonce is tried once before the first
one is tried again. -/
theorem generate_search (digest256 : Bytes → Option Bytes) (targetNumber : Nat) (pk : PublicKey)
    (nonce : ProofOfWork) :
    (∀ e, nonce.check digest256 targetNumber pk = .error e → ∃ next : ProofOfWork,
        round digest256 targetNumber (.new pk nonce) = .error (.new pk next) ∧
          next.toNat = (nonce.toNat + 1) % 2 ^ 192) ∧
      ∃ visit : Nat → ProofOfWork,
        (∀ k data, failedRounds digest256 targetNumber k (.new pk nonce) = some data ↔
          (∀ j < k, (visit j).check digest256 targetNumber pk ≠ .ok ()) ∧
            data = .new pk (visit k)) ∧
        ∀ p, ∃! k, k < 2 ^ 192 ∧ visit k = p := by
  refine ⟨?_, nonce.after, fun k data => failedRounds_new, nonce.after_existsUnique⟩
  intro e fails
  have failed : nonce.check digest256 targetNumber pk ≠ .ok () := by simp [fails]
  exact ⟨nonce.after 1, round_new_error failed, nonce.toNat_after 1⟩

end ProofOfWork

end Generate

end NodeFuzzer
