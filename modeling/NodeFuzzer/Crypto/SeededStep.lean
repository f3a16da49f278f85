import NodeFuzzer.Crypto.Base58

/-!
# The steps of a block locator

`Step::next` gives the distances between the blocks of a locator.  The distance doubles after
ten calls, and a random gap is taken from it, that is the rest of four bytes of a hash, as a
signed number, by half the distance.

*Invariant.*  `At k s` says what the state is before the call `k`: the distance is
`2 ^ (k / 10)` and the counter `9 - k % 10`.  One call keeps it up to the call 308, and the
call 309 doubles `2 ^ 30` (`next_at_end`).
-/

namespace NodeFuzzer.SeededStep

/-! ## Arithmetic of `i32` -/

/-- The `i32` of a number, if there is no overflow. -/
def toI32 (n : Int) : Option Int32 :=
  if -2 ^ 31 ≤ n ∧ n < 2 ^ 31 then some (Int32.ofInt n) else none

/-- `%`, that panics for a zero and overflows for the least `i32` and `-1`. -/
def remI32 (a n : Int32) : Option Int32 :=
  if n = 0 ∨ (a = Int32.minValue ∧ n = -1) then none else some (a % n)

/-- `i32::from_be_bytes`. -/
def i32FromBe (b : Bytes) : Int32 := Int32.ofNat (ofBe b)

theorem toI32_eq_some {n : Int} (hlow : -2 ^ 31 ≤ n) (hhigh : n < 2 ^ 31) :
    ∃ v, toI32 n = some v ∧ v.toInt = n :=
  ⟨Int32.ofInt n, if_pos ⟨hlow, hhigh⟩, Int32.toInt_ofInt_of_le hlow hhigh⟩

theorem toI32_eq_none {n : Int} (h : 2 ^ 31 ≤ n) : toI32 n = none := by
  rw [toI32, if_neg]
  omega

/-- A signed rest has the sign of the number, and is below the divisor without it. -/
theorem remI32_eq_some (a : Int32) {n : Int32} (hn : 0 < n.toInt) :
    ∃ v, remI32 a n = some v ∧ -n.toInt < v.toInt ∧ v.toInt < n.toInt := by
  have hvalid : ¬ (n = 0 ∨ (a = Int32.minValue ∧ n = -1)) := by
    rintro (rfl | ⟨_, rfl⟩)
    · simp at hn
    · simp at hn
  have hrest : (a.toInt.tmod n.toInt).natAbs < n.toInt.natAbs := by
    rw [Int.natAbs_tmod]
    exact Nat.mod_lt _ (by omega)
  refine ⟨a % n, if_neg hvalid, ?_⟩
  rw [Int32.toInt_mod]
  omega

theorem toInt_half (n : Int32) (hn : 0 ≤ n.toInt) : (n / 2).toInt = n.toInt / 2 := by
  rw [Int32.toInt_div_of_ne_right n 2 (by decide), show (2 : Int32).toInt = 2 from rfl,
    Int.tdiv_eq_ediv_of_nonneg hn]

/-! ## The sequence -/

/-- `Seed`. -/
structure Seed where
  senderId : TypedHash .cryptoboxPublicKeyHash
  receiverId : TypedHash .cryptoboxPublicKeyHash

/-- `Step`. -/
structure Step where
  step : Int32
  counter : Int32
  seed : Bytes

section Sequence

variable [Sha256]

/-- `Step::init`. -/
def Step.init (seed : Seed) (blockHash : TypedHash .blockHash) : Step :=
  { step := 1
    counter := 9
    seed := Sha256.hash (seed.senderId.val ++ seed.receiverId.val ++ blockHash.val) }

/-- The random gap of `next`, and the seed it leaves. -/
def Step.randomGap (s : Step) : Option (Int32 × Bytes) :=
  if s.step ≤ 1 then some (0, s.seed)
  else do
    let n ← toI32 ((s.step / 2).toInt + 1)
    -- The slice of the seed panics when there are too few bytes.
    let seedAsBytes ← if 4 ≤ s.seed.length then some (s.seed.take 4) else none
    let gap ← remI32 (i32FromBe seedAsBytes) n
    return (gap, Sha256.hash s.seed)

/-- The step and the counter that `next` leaves. -/
def Step.advance (s : Step) : Option (Int32 × Int32) :=
  if s.counter = 0 then do
    let newStep ← toI32 (s.step.toInt * 2)
    return (newStep, 9)
  else do
    let counter ← toI32 (s.counter.toInt - 1)
    return (s.step, counter)

/-- `Step::next`: the next number of the sequence and the state after it, or none when an
operation overflows. -/
def Step.next (s : Step) : Option (Int32 × Step) := do
  let (gap, seed) ← s.randomGap
  let (step, counter) ← s.advance
  let result ← toI32 (s.step.toInt - gap.toInt)
  return (result, ⟨step, counter, seed⟩)

/-- The state after `k` calls of `next`. -/
def after (seed : Seed) (blockHash : TypedHash .blockHash) : Nat → Option Step
  | 0 => some (Step.init seed blockHash)
  | k + 1 => do
      let s ← after seed blockHash k
      let (_, s) ← s.next
      return s

/-- The result of the call `k` of `next`, from 0. -/
def call (seed : Seed) (blockHash : TypedHash .blockHash) (k : Nat) : Option Int32 := do
  let s ← after seed blockHash k
  let (result, _) ← s.next
  return result

/-! ## The state before a call -/

/-- The state before the call `k`. -/
structure At (k : Nat) (s : Step) : Prop where
  step : s.step.toInt = 2 ^ (k / 10)
  counter : s.counter.toInt = 9 - (k % 10 : Nat)
  seed : s.seed.length = 32

omit [Sha256] in
theorem two_pow_bounds {e : Nat} (he : e ≤ 30) : (1 : Int) ≤ 2 ^ e ∧ (2 : Int) ^ e ≤ 2 ^ 30 :=
  ⟨one_le_pow₀ (by norm_num), pow_le_pow_right₀ (by norm_num) he⟩

theorem at_init (seed : Seed) (blockHash : TypedHash .blockHash) :
    At 0 (Step.init seed blockHash) :=
  ⟨rfl, rfl, Sha256.hash_length _⟩

/-- The gap is at most half the distance, in either direction. -/
theorem randomGap_of_at {k : Nat} {s : Step} (h : At k s) (hk : k / 10 ≤ 30) :
    ∃ gap seed, s.randomGap = some (gap, seed) ∧ seed.length = 32 ∧
      -(2 ^ (k / 10) / 2) ≤ gap.toInt ∧ gap.toInt ≤ 2 ^ (k / 10) / 2 := by
  obtain ⟨hpos, hmax⟩ := two_pow_bounds hk
  have hstep := h.step
  rw [Step.randomGap]
  split
  next =>
    refine ⟨0, s.seed, rfl, h.seed, ?_⟩
    rw [Int32.toInt_zero]
    omega
  next =>
    have hhalf := toInt_half s.step (by omega)
    obtain ⟨n, hn, hnval⟩ := toI32_eq_some (n := (s.step / 2).toInt + 1) (by omega) (by omega)
    have hlen : 4 ≤ s.seed.length := by
      rw [h.seed]
      decide
    obtain ⟨gap, hgap, hlow, hhigh⟩ :=
      remI32_eq_some (i32FromBe (s.seed.take 4)) (n := n) (by omega)
    refine ⟨gap, Sha256.hash s.seed, ?_, Sha256.hash_length _, ?_, ?_⟩
    · simp only [hn, if_pos hlen, hgap, Option.bind_eq_bind, Option.bind_some, Option.pure_def]
    · omega
    · omega

omit [Sha256] in
/-- The distance doubles with every tenth call. -/
theorem advance_of_at {k : Nat} {s : Step} (h : At k s) (hk : k < 309) :
    ∃ step counter, s.advance = some (step, counter) ∧ step.toInt = 2 ^ ((k + 1) / 10) ∧
      counter.toInt = 9 - ((k + 1) % 10 : Nat) := by
  have hstep := h.step
  have hcounter := h.counter
  rw [Step.advance]
  split
  next hzero =>
    rw [hzero, Int32.toInt_zero] at hcounter
    have hlast : k % 10 = 9 := by omega
    obtain ⟨hpos, hmax⟩ := two_pow_bounds (e := (k + 1) / 10) (by omega)
    have hdouble : (2 : Int) ^ ((k + 1) / 10) = 2 ^ (k / 10) * 2 := by
      rw [show (k + 1) / 10 = k / 10 + 1 by omega, pow_succ]
    obtain ⟨step, hnew, hval⟩ := toI32_eq_some (n := s.step.toInt * 2) (by omega) (by omega)
    refine ⟨step, 9, ?_, ?_, ?_⟩
    · simp [hnew]
    · omega
    · rw [show (k + 1) % 10 = 0 by omega]
      rfl
  next hzero =>
    have hpos : s.counter.toInt ≠ 0 := by
      intro h0
      exact hzero (Int32.toInt_inj.mp h0)
    obtain ⟨counter, hnew, hval⟩ :=
      toI32_eq_some (n := s.counter.toInt - 1) (by omega) (by omega)
    refine ⟨s.step, counter, ?_, ?_, ?_⟩
    · simp [hnew]
    · rw [hstep, show (k + 1) / 10 = k / 10 by omega]
    · omega

/-- One call: no operation overflows, the result is in its range, and the state is the one
before the next call. -/
theorem next_of_at {k : Nat} {s : Step} (h : At k s) (hk : k < 309) :
    ∃ r s', s.next = some (r, s') ∧ At (k + 1) s' ∧
      2 ^ (k / 10) - 2 ^ (k / 10) / 2 ≤ r.toInt ∧ r.toInt ≤ 2 ^ (k / 10) + 2 ^ (k / 10) / 2 := by
  have he : k / 10 ≤ 30 := by omega
  obtain ⟨hpos, hmax⟩ := two_pow_bounds he
  have hstep := h.step
  obtain ⟨gap, seed, hgap, hseed, hlow, hhigh⟩ := randomGap_of_at h he
  obtain ⟨step, counter, hadvance, hstep', hcounter'⟩ := advance_of_at h hk
  obtain ⟨r, hr, hval⟩ := toI32_eq_some (n := s.step.toInt - gap.toInt) (by omega) (by omega)
  refine ⟨r, ⟨step, counter, seed⟩, ?_, ⟨hstep', hcounter', hseed⟩, ?_, ?_⟩
  · simp [Step.next, hgap, hadvance, hr]
  · omega
  · omega

/-- The call 309 doubles the distance once too often. -/
theorem next_at_end {s : Step} (h : At 309 s) : s.next = none := by
  obtain ⟨gap, seed, hgap, _, _, _⟩ := randomGap_of_at h (by decide)
  have hcounter : s.counter = 0 := Int32.toInt_inj.mp (h.counter.trans rfl)
  have hdouble : toI32 (s.step.toInt * 2) = none := by
    apply toI32_eq_none
    rw [h.step]
    decide
  simp [Step.next, hgap, Step.advance, if_pos hcounter, hdouble]

/-! ## The run -/

theorem after_at (seed : Seed) (blockHash : TypedHash .blockHash) {k : Nat} (hk : k ≤ 309) :
    ∃ s, after seed blockHash k = some s ∧ At k s := by
  induction k with
  | zero => exact ⟨_, rfl, at_init seed blockHash⟩
  | succ k ih =>
      obtain ⟨s, hs, hat⟩ := ih (by omega)
      obtain ⟨r, s', hnext, hat', _, _⟩ := next_of_at hat (by omega)
      refine ⟨s', ?_, hat'⟩
      simp [after, hs, hnext]

/-- The call 309 overflows: no more calls than these are possible. -/
theorem call_at_end (seed : Seed) (blockHash : TypedHash .blockHash) :
    call seed blockHash 309 = none := by
  obtain ⟨s, hs, hat⟩ := after_at seed blockHash le_rfl
  simp [call, hs, next_at_end hat]

/-- The first 309 calls do not overflow, and each result is between half the distance and half
as much again. -/
theorem call_bounds (seed : Seed) (blockHash : TypedHash .blockHash) {k : Nat} (hk : k < 309) :
    ∃ r, call seed blockHash k = some r ∧
      2 ^ (k / 10) - 2 ^ (k / 10) / 2 ≤ r.toInt ∧
      r.toInt ≤ 2 ^ (k / 10) + 2 ^ (k / 10) / 2 ∧ 1 ≤ r.toInt := by
  obtain ⟨s, hs, hat⟩ := after_at seed blockHash hk.le
  obtain ⟨r, s', hnext, _, hlow, hhigh⟩ := next_of_at hat hk
  obtain ⟨hpos, _⟩ := two_pow_bounds (e := k / 10) (by omega)
  refine ⟨r, ?_, hlow, hhigh, ?_⟩
  · simp [call, hs, hnext]
  · omega

end Sequence

section Sample

/-- The sender and the receiver of the source's tests. -/
def sampleSeed : Seed where
  senderId := ⟨List.replicate 16 0x73, rfl⟩
  receiverId := ⟨List.replicate 16 0x72, rfl⟩

/-- The block of the source's tests. -/
def sampleBlockHash : TypedHash .blockHash :=
  ⟨[0x95, 0xe5, 0x5d, 0xa6, 0x21, 0x6a, 0x4f, 0xf2, 0xce, 0xa8, 0xfe, 0x1f, 0x2d, 0xbc, 0xee, 0x0d,
   0xce, 0xce, 0xce, 0x06, 0xe7, 0xa0, 0x4f, 0x3a, 0x37, 0xde, 0x95, 0x47, 0x2f, 0x33, 0xb9, 0x4c],
   rfl⟩

/-- The seed of the first eleven calls. -/
def sampleDigest : Bytes :=
  [0x23, 0x43, 0x50, 0x9b, 0xfc, 0xea, 0x5c, 0xe5, 0x9e, 0x9c, 0x24, 0x1e, 0xc6, 0x1f, 0xf7, 0x6c,
   0x4e, 0x01, 0xf8, 0xa8, 0x7e, 0xae, 0x37, 0x43, 0x75, 0x5c, 0xb6, 0x1e, 0xc8, 0x75, 0xea, 0xf5]

/-- SHA-256, on what the first eleven calls ask for. -/
local instance locatorHasher : Sha256 := tableSha256
  [(sampleSeed.senderId.val ++ sampleSeed.receiverId.val ++ sampleBlockHash.val, sampleDigest),
    (sampleDigest,
      [0x62, 0xf4, 0x65, 0x9c, 0x52, 0xf3, 0xe6, 0x61, 0x07, 0xe4, 0xd1, 0xcf, 0xe3, 0xd5, 0xb3, 0xc1,
       0x74, 0x82, 0x8a, 0x3d, 0x28, 0x5d, 0x0d, 0xa5, 0x26, 0xa4, 0xb5, 0x8e, 0x55, 0x34, 0x26, 0xcc])]

theorem call_bounds_sample :
    10 < 309 ∧ ∃ r, call sampleSeed sampleBlockHash 10 = some r ∧
      2 ^ (10 / 10) - 2 ^ (10 / 10) / 2 ≤ r.toInt ∧
      r.toInt ≤ 2 ^ (10 / 10) + 2 ^ (10 / 10) / 2 ∧ 1 ≤ r.toInt :=
  ⟨by decide, call_bounds sampleSeed sampleBlockHash (by decide)⟩

example : call sampleSeed sampleBlockHash 10 = some 1 := by decide

end Sample

end NodeFuzzer.SeededStep
