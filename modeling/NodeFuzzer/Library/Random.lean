import Mathlib.Data.List.Perm.Basic
import NodeFuzzer.Library.Exec

/-!
# Random draws

A random number generator is the sequence of numbers it is going to draw.  A statement
about every generator is then one about every outcome: each draw below can take each of
its values, whatever was drawn before.

The rules say what is known of a draw, so that a proof about every outcome never looks at
the sequence.

*Outcomes.*  `Draw` keeps a computation as the tree of its draws.  `Draw.Returns` says which
values it can return, with one rule for each way to put a computation together.
-/

namespace NodeFuzzer

/-- The numbers a generator is going to draw. -/
structure Rng where
  draws : Nat → Nat

namespace Rng

variable {ε α : Type}

/-- The next number. -/
def draw : Exec Rng ε Nat := fun r => (.ok (r.draws 0), ⟨fun n => r.draws (n + 1)⟩)

/-- A generator that draws a number first. -/
def push (n : Nat) (r : Rng) : Rng := ⟨fun i => i.casesOn n r.draws⟩

/-- A number from `lo` up to `hi`; an empty range panics. -/
def genRange (lo hi : Nat) : Exec Rng ε Nat :=
  if lo < hi then do
    let n ← draw
    pure (lo + n % (hi - lo))
  else Exec.abort

/-- A coin. -/
def genBool : Exec Rng ε Bool := do
  let n ← draw
  pure (n % 2 == 1)

/-- Swap the places from `i` down to one, each with a place at most as high. -/
def shuffleFrom : Nat → List α → Exec Rng ε (List α)
  | 0, l => pure l
  | i + 1, l => do
      let j ← genRange 0 (i + 2)
      shuffleFrom i (l.swap (i + 1) j)

/-- Put a list into another order. -/
def shuffle (l : List α) : Exec Rng ε (List α) := shuffleFrom (l.length - 1) l

variable {r : Rng} {E : Rng → Prop}

theorem wp_draw {Q : Nat → Rng → Prop} (post : ∀ n r', Q n r') : Exec.wp (ε := ε) draw Q E r :=
  post _ _

theorem wp_genRange {lo hi : Nat} (h : lo < hi) {Q : Nat → Rng → Prop}
    (post : ∀ n r', lo ≤ n → n < hi → Q n r') : Exec.wp (ε := ε) (genRange lo hi) Q E r := by
  rw [genRange, if_pos h, Exec.wp_bind]
  refine wp_draw fun n r' => ?_
  have hlt : n % (hi - lo) < hi - lo := Nat.mod_lt _ (Nat.sub_pos_of_lt h)
  exact post _ r' (Nat.le_add_right _ _) (by omega)

theorem wp_genBool {Q : Bool → Rng → Prop} (post : ∀ b r', Q b r') :
    Exec.wp (ε := ε) genBool Q E r := by
  rw [genBool, Exec.wp_bind]
  exact wp_draw fun n r' => post _ r'

theorem wp_shuffleFrom {i : Nat} {l : List α} {Q : List α → Rng → Prop}
    (post : ∀ l' r', l'.Perm l → Q l' r') : Exec.wp (ε := ε) (shuffleFrom i l) Q E r := by
  induction i generalizing l r with
  | zero => exact post l r (.refl l)
  | succ i ih =>
      rw [shuffleFrom, Exec.wp_bind]
      refine wp_genRange (Nat.succ_pos _) fun j r' _ _ => ?_
      exact ih fun l' r'' perm => post l' r'' (perm.trans (List.swap_perm l (i + 1) j))

theorem wp_shuffle {l : List α} {Q : List α → Rng → Prop}
    (post : ∀ l' r', l'.Perm l → Q l' r') : Exec.wp (ε := ε) (shuffle l) Q E r :=
  wp_shuffleFrom post

end Rng

/-! ## Draws one at a time -/

/-- What is left of a computation that draws numbers: all it does between two draws is in the
function that takes the next one. -/
inductive Draw (α : Type) where
  | ret (a : α)
  | abort
  | draw (rest : Nat → Draw α)

namespace Draw

variable {ε α β : Type}

/-- Hand the value to the next computation. -/
protected def bind : Draw α → (α → Draw β) → Draw β
  | ret a, f => f a
  | abort, _ => abort
  | draw rest, f => draw fun n => (rest n).bind f

instance : Monad Draw where
  pure := ret
  bind := Draw.bind

/-- The value of an option, or a panic. -/
def orAbort : Option α → Draw α
  | some a => ret a
  | none => abort

/-- A number from `lo` up to `hi`; an empty range panics. -/
def genRange (lo hi : Nat) : Draw Nat :=
  if lo < hi then draw fun n => ret (lo + n % (hi - lo)) else abort

/-- A coin. -/
def genBool : Draw Bool := draw fun n => ret (n % 2 == 1)

/-- A computation a number of times. -/
def collect : Nat → Draw α → Draw (List α)
  | 0, _ => pure []
  | size + 1, x => do
      let a ← x
      let rest ← collect size x
      pure (a :: rest)

/-- All draws in one go. -/
def run : Draw α → Exec Rng ε α
  | ret a => pure a
  | abort => Exec.abort
  | draw rest => do
      let n ← Rng.draw
      (rest n).run

/-- Some draws lead to the value. -/
def Returns : Draw α → α → Prop
  | ret b, a => a = b
  | abort, _ => False
  | draw rest, a => ∃ n, (rest n).Returns a

/-- Whatever is drawn, a value with `P` is returned. -/
def All (P : α → Prop) : Draw α → Prop
  | ret a => P a
  | abort => False
  | draw rest => ∀ n, (rest n).All P

theorem run_bind (x : Draw α) (f : α → Draw β) :
    (x >>= f).run = (x.run >>= fun a => (f a).run : Exec Rng ε β) := by
  funext r
  induction x generalizing r with
  | ret a => rfl
  | abort => rfl
  | draw rest ih => exact ih (r.draws 0) ⟨fun n => r.draws (n + 1)⟩

theorem run_genRange (lo hi : Nat) : (genRange lo hi).run = (Rng.genRange lo hi : Exec Rng ε Nat) := by
  unfold genRange Rng.genRange
  split <;> rfl

/-- A generator may draw any numbers, so that what holds of the values it returns holds of
all values. -/
theorem all_of_run {x : Draw α} {P : α → Prop}
    (h : ∀ r, Exec.wp (ε := ε) x.run (fun a _ => P a) (fun _ => False) r) : x.All P := by
  induction x with
  | ret a => exact h ⟨id⟩
  | abort => exact h ⟨id⟩
  | draw rest ih => exact fun n => ih n fun r => h (Rng.push n r)

/-! ### The values that are returned -/

section Returns

variable {x : Draw α} {f : α → Draw β} {a c : α} {b : β}

@[simp] theorem returns_pure : (pure c : Draw α).Returns a ↔ a = c := Iff.rfl

@[simp] theorem returns_abort : ¬ (abort : Draw α).Returns a := id

@[simp] theorem returns_bind : (x >>= f).Returns b ↔ ∃ a, x.Returns a ∧ (f a).Returns b := by
  induction x with
  | ret a =>
      constructor
      · intro h
        exact ⟨a, rfl, h⟩
      · rintro ⟨a', rfl, h⟩
        exact h
  | abort => exact ⟨fun h => h.elim, fun h => h.elim fun _ h => h.1⟩
  | draw rest ih =>
      constructor
      · rintro ⟨n, h⟩
        obtain ⟨a, ha, hb⟩ := (ih n).mp h
        exact ⟨a, ⟨n, ha⟩, hb⟩
      · rintro ⟨a, ⟨n, ha⟩, hb⟩
        exact ⟨n, (ih n).mpr ⟨a, ha, hb⟩⟩

@[simp] theorem returns_orAbort {o : Option α} : (orAbort o).Returns a ↔ o = some a := by
  cases o with
  | none => simp [orAbort]
  | some c =>
      rw [Option.some_inj]
      exact eq_comm

/-- Every number of the range can be drawn. -/
@[simp] theorem returns_genRange {lo hi n : Nat} : (genRange lo hi).Returns n ↔ lo ≤ n ∧ n < hi := by
  unfold genRange
  split
  next h =>
    constructor
    · rintro ⟨m, rfl⟩
      have := Nat.mod_lt m (Nat.sub_pos_of_lt h)
      omega
    · rintro ⟨hlo, hhi⟩
      refine ⟨n - lo, ?_⟩
      show n = lo + (n - lo) % (hi - lo)
      rw [Nat.mod_eq_of_lt (by omega)]
      omega
  next h =>
    constructor
    · exact fun h => h.elim
    · omega

@[simp] theorem returns_genBool (b : Bool) : genBool.Returns b := by
  cases b with
  | false => exact ⟨0, rfl⟩
  | true => exact ⟨1, rfl⟩

@[simp] theorem returns_collect {size : Nat} {l : List α} :
    (collect size x).Returns l ↔ l.length = size ∧ ∀ a ∈ l, x.Returns a := by
  induction size generalizing l with
  | zero => simp +contextual [collect, List.length_eq_zero_iff]
  | succ size ih =>
      cases l with
      | nil => simp [collect]
      | cons a rest => simp [collect, ih, and_left_comm]

/-- Exactly the values that some generator leads to are returned. -/
theorem returns_iff_run :
    x.Returns a ↔ ∃ r r', (x.run : Exec Rng ε α) r = (.ok a, r') := by
  constructor
  · intro h
    induction x with
    | ret b => exact ⟨⟨id⟩, ⟨id⟩, by rw [show a = b from h]; rfl⟩
    | abort => exact h.elim
    | draw rest ih =>
        obtain ⟨n, hn⟩ := h
        obtain ⟨r, r', run⟩ := ih n hn
        exact ⟨Rng.push n r, r', run⟩
  · rintro ⟨r, r', run⟩
    induction x generalizing r with
    | ret b =>
        cases run
        rfl
    | abort => cases run
    | draw rest ih => exact ⟨r.draws 0, ih _ _ run⟩

end Returns

end Draw

end NodeFuzzer
