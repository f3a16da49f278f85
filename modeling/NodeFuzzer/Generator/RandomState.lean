import NodeFuzzer.Library.Random
import NodeFuzzer.Library.Utf8
import NodeFuzzer.Messages.BinaryMessage

/-!
# The state of the generator

`RandomState` of the generator crate: the random number generator, the limits of the run
and the last message of each kind that was received.  The draws change the random number
generator and nothing else (`wp_genRange` and its siblings).

A number that overflows panics here, as it does in a debug build.  The probability of a
coin is left out: both outcomes are possible.  The map of blocks is a list, and
which key comes first in it is drawn.
-/

namespace NodeFuzzer

/-- `_RandomState`. -/
structure RandomState where
  rng : Rng
  blocksLimit : Nat
  maxChunkSize : Nat
  fitnessCount : Nat
  blocks : List (TypedHash .blockHash × BlockHeader)
  lastBlock : TypedHash .blockHash
  chainId : TypedHash .chainId
  currentBranch : Option CurrentBranchMessage
  currentHead : Option CurrentHeadMessage
  blockHeader : Option BlockHeaderMessage
  operation : Option OperationMessage
  protocol : Option ProtocolMessage
  operationsForBlocks : Option OperationsForBlocksMessage

/-- The bytes of `BLockGenesisGenesisGenesisGenesisGenesisf79b5d1CoW2`. -/
def genesisHash : TypedHash .blockHash :=
  ⟨[0x8f, 0xcf, 0x23, 0x36, 0x71, 0xb6, 0xa0, 0x4f, 0xcf, 0x67, 0x9d, 0x2a, 0x38, 0x1c, 0x25, 0x44,
    0xea, 0x6c, 0x1e, 0xa2, 0x9b, 0xa6, 0x15, 0x77, 0x76, 0xed, 0x84, 0x24, 0xc7, 0xcc, 0xd0, 0x0b],
    rfl⟩

/-- The bytes of `NetXdQprcVkpaWU`. -/
def mainnetChainId : TypedHash .chainId := ⟨[0x7a, 0x06, 0xa7, 0x70], rfl⟩

/-- `_RandomState::new`, with the outcomes the seed stands for. -/
def RandomState.new (rng : Rng) (blocksLimit maxChunkSize : Nat) : RandomState where
  rng := rng
  blocksLimit := blocksLimit
  maxChunkSize := maxChunkSize
  fitnessCount := 0
  blocks := []
  lastBlock := genesisHash
  chainId := mainnetChainId
  currentBranch := none
  currentHead := none
  blockHeader := none
  operation := none
  protocol := none
  operationsForBlocks := none

/-- A call of the generator.  None returns an error. -/
abbrev Gen : Type → Type := Exec RandomState Empty

/-- `Distribution<T> for Standard`: the value a number stands for. -/
class Standard (T : Type) where
  sample : Nat → T

instance : Standard UInt8 := ⟨UInt8.ofNat⟩
instance : Standard Int8 := ⟨Int8.ofNat⟩
instance : Standard UInt16 := ⟨UInt16.ofNat⟩
instance : Standard Int16 := ⟨Int16.ofNat⟩
instance : Standard Int32 := ⟨Int32.ofNat⟩
instance : Standard Int64 := ⟨Int64.ofNat⟩
instance : Standard Bool := ⟨fun n => n % 2 == 1⟩

/-- The scalar values without the gap of the surrogates. -/
instance : Standard Char where
  sample n :=
    let n := 0x800 + n % (0x110000 - 0x800)
    Char.ofNat (if n ≤ 0xDFFF then n - 0x800 else n)

namespace Draw

/-- `gen_t`. -/
def genT (T : Type) [Standard T] : Draw T := draw fun n => ret (Standard.sample n)

/-- `gen_vec`. -/
def genVec (T : Type) [Standard T] (size : Nat) : Draw (List T) := collect size (genT T)

end Draw

namespace RandomState

variable {T : Type}

/-- Draw from the random number generator. -/
def draws {α : Type} (x : Exec Rng Empty α) : Gen α :=
  Exec.onPart RandomState.rng (fun rng s => { s with rng := rng }) x

/-- `gen_range`. -/
def genRange (lo hi : Nat) : Gen Nat := draws (Rng.genRange lo hi)

/-- `shuffle`. -/
def shuffle (l : List T) : Gen (List T) := draws (Rng.shuffle l)

/-- `gen_bool`. -/
def genBool : Gen Bool := draws Rng.genBool

/-- `if self.gen_bool(..) { .. } else { .. }`. -/
def coin (x y : Gen T) : Gen T := do
  let b ← genBool
  if b then x else y

/-- `gen_t`. -/
def genT (T : Type) [Standard T] : Gen T := draws do
  let n ← Rng.draw
  pure (Standard.sample n)

/-- Call a generator a number of times, `(0..size).map(..).collect()`. -/
def collect (size : Nat) (gen : Gen T) : Gen (List T) :=
  Exec.mapEach (fun _ => gen) (List.replicate size ())

/-- `gen_vec`. -/
def genVec (T : Type) [Standard T] (size : Nat) : Gen (List T) := collect size (genT T)

/-- `is_char_boundary`, in the characters of a string. -/
def isCharBoundary : List Char → Nat → Bool
  | _, 0 => true
  | [], _ + 1 => false
  | c :: cs, i + 1 => if c.utf8Size ≤ i + 1 then isCharBoundary cs (i + 1 - c.utf8Size) else false

/-- `truncate` at a boundary. -/
def truncate : List Char → Nat → List Char
  | _, 0 => []
  | [], _ + 1 => []
  | c :: cs, i + 1 => c :: truncate cs (i + 1 - c.utf8Size)

/-- Truncate at the last boundary below `i`; the string itself when there is none. -/
def truncateBelow (cs : List Char) : Nat → List Char
  | 0 => cs
  | i + 1 => if isCharBoundary cs i then truncate cs i else truncateBelow cs i

/-- `gen_string`. -/
def genString (maxSizeBytes : Nat) : Gen String := do
  let string ← collect maxSizeBytes (genT Char)
  pure (String.ofList (truncateBelow string maxSizeBytes))

/-- `gen_fitness`. -/
def genFitness : Gen Nat := do
  let count ← Exec.gets fitnessCount
  if count + 1 < 2 ^ 64 then do
    Exec.modify fun s => { s with fitnessCount := count + 1 }
    pure (count + 1)
  else Exec.abort

variable {s : RandomState} {E : RandomState → Prop}

theorem wp_draws {α : Type} {x : Exec Rng Empty α} {Q : α → RandomState → Prop}
    (h : Exec.wp x (fun a rng => Q a { s with rng := rng })
      (fun rng => E { s with rng := rng }) s.rng) : Exec.wp (draws x) Q E s :=
  (Exec.wp_onPart _ _).mpr h

theorem wp_genRange {lo hi : Nat} (h : lo < hi) {Q : Nat → RandomState → Prop}
    (post : ∀ n rng, lo ≤ n → n < hi → Q n { s with rng := rng }) :
    Exec.wp (genRange lo hi) Q E s :=
  wp_draws (Rng.wp_genRange h post)

theorem wp_genBool {Q : Bool → RandomState → Prop} (post : ∀ b rng, Q b { s with rng := rng }) :
    Exec.wp genBool Q E s :=
  wp_draws (Rng.wp_genBool post)

theorem wp_shuffle {l : List T} {Q : List T → RandomState → Prop}
    (post : ∀ l' rng, l'.Perm l → Q l' { s with rng := rng }) : Exec.wp (shuffle l) Q E s :=
  wp_draws (Rng.wp_shuffle post)

theorem wp_genT [Standard T] {Q : T → RandomState → Prop}
    (post : ∀ t rng, Q t { s with rng := rng }) : Exec.wp (genT T) Q E s := by
  refine wp_draws ?_
  rw [Exec.wp_bind]
  exact Rng.wp_draw fun n rng => post _ rng

/-- A generator that keeps `I` and gives values with `P` is called a number of times. -/
theorem wp_collect {size : Nat} {gen : Gen T} {I : RandomState → Prop} {P : T → Prop}
    (init : I s) (step : ∀ t, I t → Exec.wp gen (fun a t' => P a ∧ I t') E t) :
    Exec.wp (collect size gen) (fun l t => l.length = size ∧ (∀ a ∈ l, P a) ∧ I t) E s := by
  have loop := Exec.wp_mapEach (f := fun _ => gen) (l := List.replicate size ()) (s := s) (E := E)
    (I := fun done l t => l.length = done.length ∧ (∀ a ∈ l, P a) ∧ I t) ⟨rfl, nofun, init⟩ ?_
  · refine Exec.wp_mono loop (fun l t h => ?_) fun _ h => h
    rw [List.length_replicate] at h
    exact h
  · intro done _ l t _ h
    obtain ⟨hlen, hall, ht⟩ := h
    refine Exec.wp_mono (step t ht) (fun a t' h => ?_) fun _ h => h
    refine ⟨by simp [hlen], fun b hb => ?_, h.2⟩
    simp only [List.mem_append, List.mem_singleton] at hb
    obtain hb | rfl := hb
    · exact hall b hb
    · exact h.1

/-- The states that differ in their random number generator only. -/
def SameBut (s t : RandomState) : Prop := t = { s with rng := t.rng }

theorem wp_genVec [Standard T] {size : Nat} {Q : List T → RandomState → Prop}
    (post : ∀ l rng, l.length = size → Q l { s with rng := rng }) :
    Exec.wp (genVec T size) Q E s := by
  have step : ∀ t, SameBut s t → Exec.wp (genT T) (fun _ t' => True ∧ SameBut s t') E t := by
    intro t ht
    refine wp_genT fun a rng => ⟨trivial, ?_⟩
    rw [SameBut] at ht ⊢
    rw [ht]
  have loop : Exec.wp (genVec T size) _ E s := wp_collect (I := SameBut s) rfl step
  refine Exec.wp_mono loop (fun l t h => ?_) fun _ h => h
  rw [h.2.2]
  exact post l t.rng h.1

/-- The bytes of a list of characters. -/
def utf8Len (cs : List Char) : Nat := (cs.map Char.utf8Size).sum

/-- At a boundary the text is cut between two characters. -/
theorem truncate_spec {cs : List Char} {i : Nat} (h : isCharBoundary cs i = true) :
    truncate cs i <+: cs ∧ Utf8.width (truncate cs i) = i := by
  induction cs, i using truncate.induct with
  | case1 cs => simp [truncate]
  | case2 i => cases h
  | case3 c cs i ih =>
      rw [isCharBoundary] at h
      split at h
      next hle =>
        obtain ⟨isPrefix, width⟩ := ih h
        rw [truncate, Utf8.width_cons, width]
        exact ⟨List.cons_prefix_cons.mpr ⟨rfl, isPrefix⟩, by omega⟩
      next => cases h

theorem truncateBelow_lt (cs : List Char) (i : Nat) : utf8Len (truncateBelow cs (i + 1)) ≤ i := by
  induction i with
  | zero =>
      have h : isCharBoundary cs 0 = true := by cases cs <;> rfl
      rw [truncateBelow, if_pos h]
      exact Nat.le_of_eq (truncate_spec h).2
  | succ i ih =>
      rw [truncateBelow]
      split
      next h => exact Nat.le_of_eq (truncate_spec h).2
      next => exact Nat.le_succ_of_le ih

/-- A generated string is shorter than its bound, and empty when the bound is zero. -/
theorem wp_genString {size : Nat} {Q : String → RandomState → Prop}
    (post : ∀ cs rng, utf8Len cs ≤ size - 1 → Q (String.ofList cs) { s with rng := rng }) :
    Exec.wp (genString size) Q E s := by
  have chars : Exec.wp (collect size (genT Char)) (fun l t => l.length = size ∧ t = { s with rng := t.rng })
      E s := wp_genVec (T := Char) fun l rng hlen => ⟨hlen, rfl⟩
  rw [genString, Exec.wp_bind]
  refine Exec.wp_mono chars (fun cs t h => ?_) fun _ h => h
  rw [h.2]
  refine post _ t.rng ?_
  cases size with
  | zero =>
      have : cs = [] := List.length_eq_zero_iff.mp h.1
      subst this
      exact Nat.le_refl 0
  | succ size => exact truncateBelow_lt cs size

/-! ## Generators that only draw -/

section OfDraw

variable {U : Type}

/-- A generator that only draws. -/
def ofDraw (x : Draw T) : Gen T := draws x.run

theorem draws_bind (x : Exec Rng Empty T) (f : T → Exec Rng Empty U) :
    draws (x >>= f) = draws x >>= fun a => draws (f a) := by
  funext s
  show draws (Exec.bind x f) s = Exec.bind (draws x) (fun a => draws (f a)) s
  simp only [draws, Exec.onPart, Exec.bind]
  rcases hx : x s.rng with ⟨a | e | _, r⟩
  · rfl
  · exact e.elim
  · rfl

theorem ofDraw_bind (x : Draw T) (f : T → Draw U) :
    ofDraw (x >>= f) = ofDraw x >>= fun a => ofDraw (f a) := by
  rw [ofDraw, Draw.run_bind, draws_bind]
  rfl

@[simp] theorem ofDraw_pure (a : T) : ofDraw (pure a) = (pure a : Gen T) := rfl

@[simp] theorem ofDraw_orAbort (o : Option T) : ofDraw (Draw.orAbort o) = Exec.orAbort o := by
  cases o <;> rfl

@[simp] theorem ofDraw_genRange (lo hi : Nat) : ofDraw (Draw.genRange lo hi) = genRange lo hi := by
  rw [ofDraw, Draw.run_genRange]
  rfl

@[simp] theorem ofDraw_genT [Standard T] : ofDraw (Draw.genT T) = genT T := rfl

theorem ofDraw_collect (size : Nat) (x : Draw T) :
    ofDraw (Draw.collect size x) = collect size (ofDraw x) := by
  induction size with
  | zero => rfl
  | succ size ih =>
      rw [Draw.collect, ofDraw_bind, collect, List.replicate_succ, Exec.mapEach]
      refine congrArg _ (funext fun a => ?_)
      rw [ofDraw_bind, ih]
      rfl

@[simp] theorem ofDraw_genVec [Standard T] (size : Nat) :
    ofDraw (Draw.genVec T size) = genVec T size := ofDraw_collect size _

end OfDraw

end RandomState

end NodeFuzzer
