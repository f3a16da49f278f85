import NodeFuzzer.Library.Exec
import NodeFuzzer.Library.Ring

/-!
# The single-producer single-consumer queue

`Queue` of the `spsc` crate.  Head and tail are counters of laps over a buffer whose size
need not be a power of two; the highest bit of the tail says that the queue is closed.
Machine words are numbers below `2 ^ 64`.  Reading a place that was never written and
leaving the buffer are panics here.

The sequential calls refine a list of bounded length.
-/

namespace NodeFuzzer

/-! ## Machine words -/

/-- `1 << 64`. -/
def USIZE : Nat := 2 ^ 64

/-- The bit of the tail that says that the queue is closed. -/
def CLOSED_BIT : Nat := 2 ^ 63

/-- `!x`. -/
def usizeNot (x : Nat) : Nat := USIZE - 1 - x

/-- `wrapping_add`. -/
def wrappingAdd (x y : Nat) : Nat := (x + y) % USIZE

/-- `wrapping_sub`. -/
def wrappingSub (x y : Nat) : Nat := (x + USIZE - y) % USIZE

/-- `next_power_of_two`; `none` when it does not fit. -/
def nextPowerOfTwo (x : Nat) : Option Nat :=
  ((List.range 64).find? fun k => x ≤ 2 ^ k).map fun k => 2 ^ k

/-! ## The queue -/

/-- `PushError`. -/
inductive PushError (T : Type) where
  | full (elem : T)
  | closed (elem : T)
deriving DecidableEq

/-- `PopError`. -/
inductive PopError where
  | empty
  | closed
deriving DecidableEq

/-- `Queue`.  A place of the buffer that was never written holds `none`. -/
structure Queue (T : Type) where
  head : Nat
  tail : Nat
  buffer : List (Option T)
  maskBit : Nat
deriving DecidableEq

namespace Queue

variable {T ε : Type}

/-- `new_queue`; `none` is a panic. -/
def newQueue (capacity : Nat) : Option (Queue T) :=
  if 0 < capacity then
    (nextPowerOfTwo (capacity + 1)).map fun maskBit =>
      ⟨0, 0, List.replicate capacity none, maskBit⟩
  else none

/-- `set_closed`. -/
def setClosed (q : Queue T) : Queue T := { q with tail := q.tail ||| CLOSED_BIT }

/-- The place a counter stands for. -/
def index (q : Queue T) (counter : Nat) : Nat := counter &&& (q.maskBit - 1)

/-- The counter at the start of the next lap. -/
def nextLap (q : Queue T) (counter : Nat) : Nat :=
  wrappingAdd (counter &&& usizeNot (q.maskBit - 1)) q.maskBit

/-- The counter one place further on; `push` and `pop` have the same text for it. -/
def next (q : Queue T) (counter : Nat) : Nat :=
  if q.index counter + 1 < q.buffer.length then counter + 1 else q.nextLap counter

/-- `len`. -/
def len (q : Queue T) : Nat :=
  if wrappingSub q.tail q.maskBit = q.head then q.buffer.length
  else
    let tail := q.index q.tail
    let head := q.index q.head
    if tail < head then tail + q.buffer.length - head else tail - head

/-- `is_empty`. -/
def isEmpty (q : Queue T) : Bool := q.len == 0

/-- `available`. -/
def available (q : Queue T) : Nat := q.buffer.length - q.len

/-- Write one place. -/
def write (index : Nat) (elem : T) : Exec (Queue T) ε Unit := fun q =>
  if index < q.buffer.length then (.ok (), { q with buffer := q.buffer.set index (some elem) })
  else (.panic, q)

/-- Read one place. -/
def read (index : Nat) : Exec (Queue T) ε T := fun q =>
  match q.buffer[index]? with
  | some (some elem) => (.ok elem, q)
  | _ => (.panic, q)

/-- Set the places from `index` on. -/
def setSlice : List (Option T) → Nat → List T → List (Option T)
  | buffer, _, [] => buffer
  | buffer, index, elem :: slice => setSlice (buffer.set index (some elem)) (index + 1) slice

/-- `copy_from_slice` into the places from `index` on. -/
def copyFromSlice (index : Nat) (slice : List T) : Exec (Queue T) ε Unit := fun q =>
  if index + slice.length ≤ q.buffer.length then
    (.ok (), { q with buffer := setSlice q.buffer index slice })
  else (.panic, q)

/-- `push`. -/
def push (elem : T) : Exec (Queue T) (PushError T) Unit := fun q =>
  let tail := q.tail
  let head := q.head
  if tail &&& CLOSED_BIT ≠ 0 then (.err (.closed elem), q)
  else if wrappingAdd head q.maskBit = tail then (.err (.full elem), q)
  else (do
    write (q.index tail) elem
    Exec.modify fun q => { q with tail := q.next tail }) q

/-- `pop`. -/
def pop : Exec (Queue T) PopError T := fun q =>
  let head := q.head
  let tail := q.tail
  if tail &&& usizeNot CLOSED_BIT = head then
    if tail &&& CLOSED_BIT ≠ 0 then (.err .closed, q) else (.err .empty, q)
  else (do
    let data ← read (q.index head)
    Exec.modify fun q => { q with head := q.next head }
    pure data) q

/-- The tail after a slice. -/
def nextTail (q : Queue T) (tail length : Nat) : Nat :=
  if q.index tail + length < q.buffer.length then tail + length
  else wrappingAdd (q.nextLap tail) ((q.index tail + length) % q.buffer.length)

/-- The copies `push_slice` makes. -/
def copySlice (index : Nat) (slice : List T) : Exec (Queue T) ε Unit := fun q =>
  if index + slice.length > q.buffer.length then (do
    let length := q.buffer.length - index
    copyFromSlice index (slice.take length)
    copyFromSlice 0 (slice.drop length)) q
  else copyFromSlice index slice q

/-- `push_slice`. -/
def pushSlice (slice : List T) : Exec (Queue T) (PushError Unit) Unit := fun q =>
  let tail := q.tail
  let head := q.head
  if tail &&& CLOSED_BIT ≠ 0 then (.err (.closed ()), q)
  else
    let nextTail := q.nextTail tail slice.length
    if wrappingAdd head q.maskBit < nextTail then (.err (.full ()), q)
    else (do
      copySlice (q.index tail) slice
      Exec.modify fun q => { q with tail := nextTail }) q

end Queue

/-! ## Calls -/

/-- The calls on an open queue. -/
inductive QueueOp (T : Type) where
  | push (elem : T)
  | pushSlice (slice : List T)
  | pop
  | len
  | available

/-- What they return. -/
inductive QueueReply (T : Type) where
  | push (result : Except (PushError T) Unit)
  | pushSlice (result : Except (PushError Unit) Unit)
  | pop (result : Except PopError T)
  | len (length : Nat)
  | available (length : Nat)
  | panic

variable {T : Type}

/-- The result of a call. -/
def QueueReply.of {ε α : Type} (reply : Except ε α → QueueReply T) : Outcome ε α → QueueReply T
  | .ok a => reply (.ok a)
  | .err e => reply (.error e)
  | .panic => .panic

/-- Do one call. -/
def Queue.perform (q : Queue T) : QueueOp T → QueueReply T × Queue T
  | .push elem => (.of .push (push elem q).1, (push elem q).2)
  | .pushSlice slice => (.of .pushSlice (pushSlice slice q).1, (pushSlice slice q).2)
  | .pop => (.of .pop (pop q).1, (pop q).2)
  | .len => (.len q.len, q)
  | .available => (.available q.available, q)

/-- Do one call on a list of at most `n` elements, the oldest first. -/
def fifoPerform (n : Nat) (l : List T) : QueueOp T → QueueReply T × List T
  | .push elem =>
      if l.length = n then (.push (.error (.full elem)), l) else (.push (.ok ()), l ++ [elem])
  | .pushSlice slice =>
      if n < l.length + slice.length then (.pushSlice (.error (.full ())), l)
      else (.pushSlice (.ok ()), l ++ slice)
  | .pop =>
      match l with
      | [] => (.pop (.error .empty), [])
      | elem :: l => (.pop (.ok elem), l)
  | .len => (.len l.length, l)
  | .available => (.available (n - l.length), l)

/-- The slice of a call fits into an empty queue. -/
def QueueOp.Small (n : Nat) : QueueOp T → Prop
  | .pushSlice slice => slice.length ≤ n
  | _ => True

/-- The replies to a sequence of calls. -/
def Queue.replies (q : Queue T) : List (QueueOp T) → List (QueueReply T)
  | [] => []
  | op :: ops => (q.perform op).1 :: replies (q.perform op).2 ops

/-- The counters stay below the bit of the closed queue.  The head is never past the
tail. -/
def Queue.StaysBelow (q : Queue T) : List (QueueOp T) → Prop
  | [] => q.tail < CLOSED_BIT
  | op :: ops => q.tail < CLOSED_BIT ∧ StaysBelow (q.perform op).2 ops

/-- The replies of the list. -/
def fifoReplies (n : Nat) (l : List T) : List (QueueOp T) → List (QueueReply T)
  | [] => []
  | op :: ops => (fifoPerform n l op).1 :: fifoReplies n (fifoPerform n l op).2 ops

/-! ## Refinement -/

namespace Queue

variable {n : Nat} {q : Queue T} {l : List T}

/-- What is known of a queue besides its elements. -/
structure Shape (n : Nat) (q : Queue T) : Prop where
  size : q.buffer.length = n
  pos : 0 < n
  wide : n ≤ q.maskBit
  mask : ∃ k ≤ 63, q.maskBit = 2 ^ k

namespace Shape

variable {p : Nat}

theorem maskBit_le (shape : Shape n q) : q.maskBit ≤ CLOSED_BIT := by
  obtain ⟨k, hk, hmask⟩ := shape.mask
  rw [hmask, CLOSED_BIT]
  exact Nat.pow_le_pow_right Nat.two_pos hk

theorem index_eq (shape : Shape n q) : q.index (lapCount n q.maskBit p) = p % n := by
  obtain ⟨k, _, hmask⟩ := shape.mask
  have hmod := lapCount_mod (p := p) shape.pos shape.wide
  rw [index, hmask, Nat.and_two_pow_sub_one_eq_mod, ← hmask]
  exact hmod

/-- The counter at the start of a lap is at most the first one that does not fit. -/
theorem lap_le (shape : Shape n q) (below : lapCount n q.maskBit p < CLOSED_BIT) :
    p / n * q.maskBit + q.maskBit ≤ CLOSED_BIT := by
  obtain ⟨k, hk, hmask⟩ := shape.mask
  have hlt : p / n * q.maskBit < CLOSED_BIT :=
    Nat.lt_of_le_of_lt (Nat.le_add_right _ _) below
  have hpow : CLOSED_BIT = 2 ^ (63 - k) * q.maskBit := by
    rw [hmask, CLOSED_BIT, ← Nat.pow_add, Nat.sub_add_cancel hk]
  rw [hpow] at hlt ⊢
  have hlap : p / n < 2 ^ (63 - k) := Nat.lt_of_mul_lt_mul_right hlt
  calc p / n * q.maskBit + q.maskBit = (p / n + 1) * q.maskBit := (Nat.succ_mul _ _).symm
    _ ≤ 2 ^ (63 - k) * q.maskBit := Nat.mul_le_mul_right _ hlap

theorem nextLap_eq (shape : Shape n q) (below : lapCount n q.maskBit p < CLOSED_BIT) :
    q.nextLap (lapCount n q.maskBit p) = p / n * q.maskBit + q.maskBit := by
  obtain ⟨k, hk, hmask⟩ := shape.mask
  have hdiv := lapCount_div (p := p) shape.pos shape.wide
  have hlap := shape.lap_le below
  have hword : lapCount n q.maskBit p < 2 ^ 64 := below.trans (by decide)
  have hclear := and_not_low (k := k) hword
  rw [← hmask] at hclear
  rw [nextLap, usizeNot, USIZE, hclear, hdiv, wrappingAdd, USIZE]
  exact Nat.mod_eq_of_lt (hlap.trans_lt (by decide))

theorem next_eq (shape : Shape n q) (below : lapCount n q.maskBit p < CLOSED_BIT) :
    q.next (lapCount n q.maskBit p) = lapCount n q.maskBit (p + 1) := by
  rw [next, shape.index_eq, shape.size, shape.nextLap_eq below, lapCount_succ shape.pos]

theorem nextTail_eq (shape : Shape n q) (below : lapCount n q.maskBit p < CLOSED_BIT) {m : Nat}
    (hm : m ≤ n) : q.nextTail (lapCount n q.maskBit p) m = lapCount n q.maskBit (p + m) := by
  have hlap := shape.lap_le below
  have hrest : (p % n + m) % n < q.maskBit :=
    Nat.lt_of_lt_of_le (Nat.mod_lt _ shape.pos) shape.wide
  have hmask := shape.maskBit_le
  have hsum : p / n * q.maskBit + q.maskBit + (p % n + m) % n < USIZE := by
    have hword : CLOSED_BIT + CLOSED_BIT = USIZE := by decide
    omega
  rw [nextTail, shape.index_eq, shape.size, shape.nextLap_eq below, lapCount_add shape.pos hm,
    wrappingAdd, Nat.mod_eq_of_lt hsum]

/-- The counter a lap after the head. -/
theorem wrappingAdd_eq (shape : Shape n q) (below : lapCount n q.maskBit p < CLOSED_BIT) :
    wrappingAdd (lapCount n q.maskBit p) q.maskBit = lapCount n q.maskBit (p + n) := by
  have hmask := shape.maskBit_le
  have hword : CLOSED_BIT + CLOSED_BIT = USIZE := by decide
  rw [lapCount_add_lap shape.pos, wrappingAdd]
  exact Nat.mod_eq_of_lt (by omega)

end Shape

theorem and_closedBit {t : Nat} (h : t < CLOSED_BIT) : t &&& CLOSED_BIT = 0 := by
  rw [CLOSED_BIT, Nat.and_two_pow, Nat.testBit_lt_two_pow h]
  rfl

theorem and_not_closedBit {t : Nat} (h : t < CLOSED_BIT) : t &&& usizeNot CLOSED_BIT = t := by
  have hnot : usizeNot CLOSED_BIT = 2 ^ 63 - 1 := by decide
  rw [hnot]
  exact Nat.and_two_pow_sub_one_of_lt_two_pow h

theorem setSlice_length (buffer : List (Option T)) (i : Nat) (slice : List T) :
    (setSlice buffer i slice).length = buffer.length := by
  induction slice generalizing buffer i with
  | nil => rfl
  | cons elem slice ih => simp [setSlice, ih]

theorem setSlice_get {buffer : List (Option T)} {i : Nat} {slice : List T}
    (fits : i + slice.length ≤ buffer.length) (x : Nat) : (setSlice buffer i slice)[x]? =
      if i ≤ x ∧ x < i + slice.length then some slice[x - i]? else buffer[x]? := by
  induction slice generalizing buffer i with
  | nil =>
      have hnot : ¬ (i ≤ x ∧ x < i + 0) := by omega
      rw [setSlice, List.length_nil, if_neg hnot]
  | cons elem slice ih =>
      rw [setSlice, ih (by simp at fits ⊢; omega)]
      rw [List.length_cons] at fits ⊢
      by_cases hx : x = i
      · subst hx
        have hlt : x < buffer.length := by omega
        simp [hlt]
      · rw [List.getElem?_set_ne (Ne.symm hx)]
        by_cases hrange : i + 1 ≤ x ∧ x < i + 1 + slice.length
        · have hrange' : i ≤ x ∧ x < i + (slice.length + 1) := by omega
          have hsub : x - i = (x - (i + 1)) + 1 := by omega
          rw [if_pos hrange, if_pos hrange', hsub, List.getElem?_cons_succ]
        · have hrange' : ¬ (i ≤ x ∧ x < i + (slice.length + 1)) := by omega
          rw [if_neg hrange, if_neg hrange']

/-- The buffer after a slice was written from a place on, around the end. -/
def copied (n index : Nat) (slice : List T) (buffer : List (Option T)) : List (Option T) :=
  if index + slice.length > n then
    setSlice (setSlice buffer index (slice.take (n - index))) 0 (slice.drop (n - index))
  else setSlice buffer index slice

theorem copied_length (n index : Nat) (slice : List T) (buffer : List (Option T)) :
    (copied n index slice buffer).length = buffer.length := by
  unfold copied
  split <;> simp only [setSlice_length]

/-- The place `j` further on holds the `j`-th element; all others are as before. -/
theorem copied_get {p j : Nat} {slice : List T} {buffer : List (Option T)}
    (size : buffer.length = n) (fits : slice.length ≤ n) (hj : j < n) :
    (copied n (p % n) slice buffer)[(p + j) % n]? =
      if j < slice.length then some slice[j]? else buffer[(p + j) % n]? := by
  have hp : p % n < n := Nat.mod_lt p (Nat.zero_lt_of_lt hj)
  rw [add_mod_eq_ite hj]
  unfold copied
  split
  next hwrap =>
    have htake : (slice.take (n - p % n)).length = n - p % n := by
      rw [List.length_take]
      omega
    have hdrop : (slice.drop (n - p % n)).length = slice.length - (n - p % n) := List.length_drop
    rw [setSlice_get (by rw [hdrop, setSlice_length]; omega), setSlice_get (by rw [htake]; omega),
      htake, hdrop]
    split
    next hlow =>
      have hnot : ¬ (0 ≤ p % n + j ∧ p % n + j < 0 + (slice.length - (n - p % n))) := by omega
      have hin : p % n ≤ p % n + j ∧ p % n + j < p % n + (n - p % n) := by omega
      have hsub : p % n + j - p % n = j := by omega
      have hlt : j < slice.length := by omega
      have hcut : j < n - p % n := by omega
      rw [if_neg hnot, if_pos hin, if_pos hlt, hsub, List.getElem?_take_of_lt hcut]
    next hhigh =>
      by_cases hlt : j < slice.length
      · have hin : 0 ≤ p % n + j - n ∧ p % n + j - n < 0 + (slice.length - (n - p % n)) := by omega
        have hsub : n - p % n + (p % n + j - n - 0) = j := by omega
        rw [if_pos hin, if_pos hlt, List.getElem?_drop, hsub]
      · have hout : ¬ (0 ≤ p % n + j - n ∧ p % n + j - n < 0 + (slice.length - (n - p % n))) := by
          omega
        have hout' : ¬ (p % n ≤ p % n + j - n ∧ p % n + j - n < p % n + (n - p % n)) := by omega
        rw [if_neg hout, if_neg hout', if_neg hlt]
  next hfit =>
    rw [setSlice_get (by omega)]
    by_cases hlt : j < slice.length
    · have hlow : p % n + j < n := by omega
      have hin : p % n ≤ p % n + j ∧ p % n + j < p % n + slice.length := by omega
      have hsub : p % n + j - p % n = j := by omega
      rw [if_pos hlow, if_pos hin, if_pos hlt, hsub]
    · have hout : ¬ (p % n ≤ (if p % n + j < n then p % n + j else p % n + j - n) ∧
          (if p % n + j < n then p % n + j else p % n + j - n) < p % n + slice.length) := by
        split <;> omega
      rw [if_neg hout, if_neg hlt]

/-- The queue holds the elements of a list. -/
structure Represents (n : Nat) (q : Queue T) (l : List T) : Prop extends Shape n q where
  fits : l.length ≤ n
  below : q.tail < CLOSED_BIT
  places : ∃ h, q.head = lapCount n q.maskBit h ∧ q.tail = lapCount n q.maskBit (h + l.length) ∧
    ∀ j, j < l.length → q.buffer[(h + j) % n]? = some l[j]?

namespace Represents

/-- The counter of the head is not past that of the tail. -/
theorem head_below (rep : Represents n q l) {h : Nat}
    (tail : q.tail = lapCount n q.maskBit (h + l.length)) : lapCount n q.maskBit h < CLOSED_BIT := by
  have below := rep.below
  rw [tail] at below
  by_cases hzero : l.length = 0
  · rw [hzero, Nat.add_zero] at below
    exact below
  · exact (lapCount_lt_lapCount rep.pos rep.wide (Nat.lt_add_of_pos_right
      (Nat.pos_of_ne_zero hzero))).trans below

/-- The tail is a lap ahead just when the queue is full. -/
theorem full_iff (rep : Represents n q l) :
    wrappingAdd q.head q.maskBit = q.tail ↔ l.length = n := by
  obtain ⟨h, head, tail, _⟩ := rep.places
  rw [head, rep.wrappingAdd_eq (rep.head_below tail), tail, lapCount_inj rep.pos rep.wide]
  omega

theorem len_eq (rep : Represents n q l) : q.len = l.length := by
  obtain ⟨h, head, tail, _⟩ := rep.places
  have hbelow := rep.head_below tail
  have hmask := rep.maskBit_le
  have hfits := rep.fits
  have hword : CLOSED_BIT + CLOSED_BIT = USIZE := by decide
  have hfull : wrappingSub q.tail q.maskBit = q.head ↔ l.length = n := by
    rw [← rep.full_iff, wrappingSub, wrappingAdd]
    have hhead : q.head + q.maskBit < USIZE := by
      rw [head]
      omega
    have htail := rep.below
    rw [Nat.mod_eq_of_lt hhead]
    by_cases hge : q.maskBit ≤ q.tail
    · have hsub : q.tail + USIZE - q.maskBit = q.tail - q.maskBit + USIZE := by omega
      rw [hsub, Nat.add_mod_right, Nat.mod_eq_of_lt (by omega)]
      omega
    · rw [Nat.mod_eq_of_lt (by omega)]
      rw [← head] at hbelow
      omega
  unfold len
  by_cases hn : l.length = n
  · rw [if_pos (hfull.mpr hn), rep.size, hn]
  · rw [if_neg (fun h => hn (hfull.mp h)), head, tail, rep.index_eq, rep.index_eq, rep.size,
      add_mod_eq_ite (by omega)]
    have hlt := Nat.mod_lt h rep.pos
    generalize h % n = place at hlt ⊢
    dsimp only
    split <;> split <;> omega

theorem available_eq (rep : Represents n q l) : q.available = n - l.length := by
  rw [available, rep.len_eq, rep.size]

theorem push_full (rep : Represents n q l) (full : l.length = n) (elem : T) :
    push elem q = (.err (.full elem), q) := by
  have hopen : ¬ q.tail &&& CLOSED_BIT ≠ 0 := not_not_intro (and_closedBit rep.below)
  simp only [push, if_neg hopen, if_pos (rep.full_iff.mpr full)]

/-- The state after an element was put in place. -/
theorem push_ok (rep : Represents n q l) (room : l.length ≠ n) (elem : T)
    (below : (push elem q).2.tail < CLOSED_BIT) :
    (push elem q).1 = .ok () ∧ Represents n (push elem q).2 (l ++ [elem]) := by
  obtain ⟨h, head, tail, elems⟩ := rep.places
  have hlt : (h + l.length) % n < q.buffer.length := by
    rw [rep.size]
    exact Nat.mod_lt _ rep.pos
  have hindex : q.index q.tail = (h + l.length) % n := by rw [tail, rep.index_eq]
  have hopen : ¬ q.tail &&& CLOSED_BIT ≠ 0 := not_not_intro (and_closedBit rep.below)
  have hroom : ¬ wrappingAdd q.head q.maskBit = q.tail := fun h => room (rep.full_iff.mp h)
  have wrote : write (q.index q.tail) elem q = (Outcome.ok (ε := PushError T) (),
      { q with buffer := q.buffer.set ((h + l.length) % n) (some elem) }) := by
    rw [hindex, write, if_pos hlt]
  have shape : Shape n { q with buffer := q.buffer.set ((h + l.length) % n) (some elem) } :=
    ⟨by rw [List.length_set, rep.size], rep.pos, rep.wide, rep.mask⟩
  have hbelow := rep.below
  rw [tail] at hbelow
  have hnext := shape.next_eq hbelow
  have run : push elem q = (.ok (), { q with
      buffer := q.buffer.set ((h + l.length) % n) (some elem),
      tail := lapCount n q.maskBit (h + l.length + 1) }) := by
    simp only [push, if_neg hopen, if_neg hroom]
    rw [Exec.bind_ok wrote, Exec.modify, ← hnext, ← tail]
  rw [run] at below ⊢
  refine ⟨rfl, ⟨shape.size, shape.pos, shape.wide, shape.mask⟩, ?_, below, h, head, ?_, ?_⟩
  · have := rep.fits
    rw [List.length_append, List.length_singleton]
    omega
  · rw [List.length_append, List.length_singleton, ← Nat.add_assoc]
  · intro j hj
    rw [List.length_append, List.length_singleton] at hj
    show (q.buffer.set _ _)[_]? = _
    have hfits := rep.fits
    rcases Nat.lt_succ_iff_lt_or_eq.mp hj with hlt' | heq
    · have hne : (h + j) % n ≠ (h + l.length) % n := mod_ne_of_lt (by omega) (by omega)
      rw [List.getElem?_set_ne (Ne.symm hne), elems j hlt', List.getElem?_append_left hlt']
    · rw [heq, List.getElem?_set_self hlt, List.getElem?_concat_length]

theorem pop_empty (rep : Represents n q []) : pop q = (.err .empty, q) := by
  obtain ⟨h, head, tail, _⟩ := rep.places
  have hempty : q.tail &&& usizeNot CLOSED_BIT = q.head := by
    rw [and_not_closedBit rep.below, tail, head]
    rfl
  have hopen : ¬ q.tail &&& CLOSED_BIT ≠ 0 := not_not_intro (and_closedBit rep.below)
  simp only [pop, if_pos hempty, if_neg hopen]

theorem pop_ok {elem : T} (rep : Represents n q (elem :: l)) :
    (pop q).1 = .ok elem ∧ Represents n (pop q).2 l := by
  obtain ⟨h, head, tail, elems⟩ := rep.places
  have hne : ¬ q.tail &&& usizeNot CLOSED_BIT = q.head := by
    rw [and_not_closedBit rep.below, tail, head, lapCount_inj rep.pos rep.wide, List.length_cons]
    omega
  have first := elems 0 (Nat.succ_pos _)
  rw [Nat.add_zero, List.getElem?_cons_zero] at first
  have hread : read (q.index q.head) q = (Outcome.ok (ε := PopError) elem, q) := by
    rw [head, rep.index_eq]
    simp only [read, first]
  have hnext : q.next q.head = lapCount n q.maskBit (h + 1) := by
    rw [head, rep.next_eq (rep.head_below tail)]
  have run : pop q = (.ok elem, { q with head := lapCount n q.maskBit (h + 1) }) := by
    simp only [pop, if_neg hne]
    rw [Exec.bind_ok hread, ← hnext]
    rfl
  rw [run]
  refine ⟨rfl, ⟨rep.size, rep.pos, rep.wide, rep.mask⟩, ?_, rep.below, h + 1, rfl, ?_, ?_⟩
  · exact Nat.le_of_succ_le rep.fits
  · show q.tail = _
    rw [tail, List.length_cons, Nat.add_right_comm, Nat.add_assoc]
  · intro j hj
    have found := elems (j + 1) (Nat.succ_lt_succ hj)
    rw [List.getElem?_cons_succ] at found
    rw [← found, Nat.add_assoc, Nat.add_comm 1 j]

/-- A slice fits just when the tail after it is at most a lap ahead. -/
theorem slice_full_iff (rep : Represents n q l) {slice : List T} (small : slice.length ≤ n) :
    wrappingAdd q.head q.maskBit < q.nextTail q.tail slice.length ↔ n < l.length + slice.length := by
  obtain ⟨h, head, tail, _⟩ := rep.places
  have below := rep.below
  rw [tail] at below
  rw [head, rep.wrappingAdd_eq (rep.head_below tail), tail, rep.nextTail_eq below small,
    lapCount_lt_iff rep.pos rep.wide]
  omega

theorem pushSlice_full (rep : Represents n q l) {slice : List T} (small : slice.length ≤ n)
    (full : n < l.length + slice.length) : pushSlice slice q = (.err (.full ()), q) := by
  have hopen : ¬ q.tail &&& CLOSED_BIT ≠ 0 := not_not_intro (and_closedBit rep.below)
  simp only [pushSlice, if_neg hopen, if_pos ((rep.slice_full_iff small).mpr full)]

/-- The copies of `push_slice`. -/
theorem copySlice_eq {index : Nat} {slice : List T} (size : q.buffer.length = n) (hindex : index < n)
    (small : slice.length ≤ n) :
    copySlice index slice q =
      (Outcome.ok (ε := PushError Unit) (), { q with buffer := copied n index slice q.buffer }) := by
  rw [copySlice, size]
  unfold copied
  split
  next hwrap =>
    have htake : (slice.take (n - index)).length = n - index := by
      rw [List.length_take]
      omega
    have hfirst : index + (slice.take (n - index)).length ≤ q.buffer.length := by
      rw [htake, size]
      omega
    have first : copyFromSlice index (slice.take (n - index)) q =
        (Outcome.ok (ε := PushError Unit) (),
          { q with buffer := setSlice q.buffer index (slice.take (n - index)) }) := by
      rw [copyFromSlice, if_pos hfirst]
    have hsecond : 0 + (slice.drop (n - index)).length ≤
        (setSlice q.buffer index (slice.take (n - index))).length := by
      rw [setSlice_length, List.length_drop, size]
      omega
    rw [Exec.bind_ok first, copyFromSlice, if_pos hsecond]
  next hfit => rw [copyFromSlice, if_pos (by rw [size]; omega)]

/-- The state after a slice that fits. -/
theorem pushSlice_stored (rep : Represents n q l) {slice : List T} (small : slice.length ≤ n)
    (room : ¬ n < l.length + slice.length) {h : Nat}
    (tail : q.tail = lapCount n q.maskBit (h + l.length)) :
    pushSlice slice q = (.ok (), { q with
      buffer := copied n ((h + l.length) % n) slice q.buffer,
      tail := lapCount n q.maskBit (h + l.length + slice.length) }) := by
  have hopen : ¬ q.tail &&& CLOSED_BIT ≠ 0 := not_not_intro (and_closedBit rep.below)
  have hroom := fun h => room ((rep.slice_full_iff small).mp h)
  have hbelow := rep.below
  rw [tail] at hbelow
  have hindex : q.index q.tail = (h + l.length) % n := by rw [tail, rep.index_eq]
  have hnext : q.nextTail q.tail slice.length =
      lapCount n q.maskBit (h + l.length + slice.length) := by
    rw [tail, rep.nextTail_eq hbelow small]
  have hlt : (h + l.length) % n < n := Nat.mod_lt _ rep.pos
  simp only [pushSlice, if_neg hopen, if_neg hroom]
  rw [hindex, hnext, Exec.bind_ok (copySlice_eq rep.size hlt small)]
  rfl

theorem pushSlice_ok (rep : Represents n q l) {slice : List T} (small : slice.length ≤ n)
    (room : ¬ n < l.length + slice.length) (below : (pushSlice slice q).2.tail < CLOSED_BIT) :
    (pushSlice slice q).1 = .ok () ∧ Represents n (pushSlice slice q).2 (l ++ slice) := by
  obtain ⟨h, head, tail, elems⟩ := rep.places
  have run := rep.pushSlice_stored small room tail
  rw [run] at below ⊢
  refine ⟨rfl, ⟨?_, rep.pos, rep.wide, rep.mask⟩, ?_, below, h, head, ?_, ?_⟩
  · rw [copied_length, rep.size]
  · rw [List.length_append]
    omega
  · rw [List.length_append, ← Nat.add_assoc]
  · intro j hj
    rw [List.length_append] at hj
    show (copied n _ slice q.buffer)[_]? = _
    by_cases hold : j < l.length
    · -- The place is behind those that were written, seen from the tail.
      have hback : (h + j) % n = (h + l.length + (j + n - l.length)) % n := by
        have hsum : h + l.length + (j + n - l.length) = h + j + n := by
          have := rep.fits
          omega
        rw [hsum, Nat.add_mod_right]
      have hout : ¬ j + n - l.length < slice.length := by omega
      rw [hback, copied_get rep.size small (by have := rep.fits; omega), if_neg hout, ← hback,
        elems j hold, List.getElem?_append_left hold]
    · have hsplit : h + j = h + l.length + (j - l.length) := by omega
      have hin : j - l.length < slice.length := by omega
      rw [hsplit, copied_get rep.size small (by omega), if_pos hin,
        List.getElem?_append_right (Nat.not_lt.mp hold)]

end Represents

theorem find_range {x k : Nat} (h : (List.range 64).find? (fun k => decide (x ≤ 2 ^ k)) = some k) :
    k ≤ 63 ∧ x ≤ 2 ^ k := by
  have hmem := List.mem_of_find?_eq_some h
  have hle := List.find?_some h
  simp at hmem hle
  omega

theorem represents_newQueue {capacity : Nat} (h : newQueue capacity = some q) :
    Represents capacity q [] := by
  rw [newQueue] at h
  split at h
  next hpos =>
    rw [nextPowerOfTwo, Option.map_map] at h
    obtain ⟨k, hk, rfl⟩ := Option.map_eq_some_iff.mp h
    obtain ⟨hsmall, hle⟩ := find_range hk
    refine ⟨⟨List.length_replicate, hpos, ?_, k, hsmall, rfl⟩, Nat.zero_le _, ?_, 0, ?_, ?_, ?_⟩
    · exact Nat.le_of_succ_le hle
    · show 0 < CLOSED_BIT
      decide
    · simp [lapCount]
    · simp [lapCount]
    · exact fun _ hj => absurd hj (Nat.not_lt_zero _)
  next => cases h

/-- Every call returns what it returns on the list. -/
theorem perform_refines {op : QueueOp T} (rep : Represents n q l) (small : op.Small n)
    (below : (q.perform op).2.tail < CLOSED_BIT) :
    (q.perform op).1 = (fifoPerform n l op).1 ∧
      Represents n (q.perform op).2 (fifoPerform n l op).2 := by
  cases op with
  | push elem =>
      rw [fifoPerform]
      split
      next full =>
        rw [perform, rep.push_full full]
        exact ⟨rfl, rep⟩
      next room =>
        obtain ⟨result, rep'⟩ := rep.push_ok room elem below
        rw [perform, result]
        exact ⟨rfl, rep'⟩
  | pushSlice slice =>
      rw [fifoPerform]
      split
      next full =>
        rw [perform, rep.pushSlice_full small full]
        exact ⟨rfl, rep⟩
      next room =>
        obtain ⟨result, rep'⟩ := rep.pushSlice_ok small room below
        rw [perform, result]
        exact ⟨rfl, rep'⟩
  | pop =>
      cases l with
      | nil =>
          rw [perform, rep.pop_empty]
          exact ⟨rfl, rep⟩
      | cons elem l =>
          obtain ⟨result, rep'⟩ := rep.pop_ok
          rw [perform, result]
          exact ⟨rfl, rep'⟩
  | len => exact ⟨congrArg QueueReply.len rep.len_eq, rep⟩
  | available => exact ⟨congrArg QueueReply.available rep.available_eq, rep⟩

theorem StaysBelow.here {ops : List (QueueOp T)} (below : q.StaysBelow ops) :
    q.tail < CLOSED_BIT := by
  cases ops with
  | nil => exact below
  | cons op ops => exact below.1

theorem replies_refine {ops : List (QueueOp T)} (rep : Represents n q l)
    (small : ∀ op ∈ ops, op.Small n) (below : q.StaysBelow ops) :
    q.replies ops = fifoReplies n l ops := by
  induction ops generalizing q l with
  | nil => rfl
  | cons op ops ih =>
      obtain ⟨reply, rep'⟩ := perform_refines rep (small op List.mem_cons_self) below.2.here
      rw [replies, fifoReplies, reply,
        ih rep' (fun op' h => small op' (List.mem_cons_of_mem op h)) below.2]

/-- A queue is a list of bounded length: every sequence of calls is answered as there. -/
theorem replies_newQueue {capacity : Nat} {ops : List (QueueOp T)}
    (made : newQueue capacity = some q) (small : ∀ op ∈ ops, op.Small capacity)
    (below : q.StaysBelow ops) : q.replies ops = fifoReplies capacity [] ops :=
  replies_refine (represents_newQueue made) small below

theorem replies_newQueue_three :
    Queue.replies (⟨0, 0, [none, none, none], 4⟩ : Queue Nat)
        [.pushSlice [1, 2], .pop, .pushSlice [3, 4], .push 5, .pop] =
      [.pushSlice (.ok ()), .pop (.ok 1), .pushSlice (.ok ()), .push (.error (.full 5)),
        .pop (.ok 2)] := by
  have made : newQueue 3 = some (⟨0, 0, [none, none, none], 4⟩ : Queue Nat) := by decide
  refine replies_newQueue made ?_ ?_
  · simp [QueueOp.Small]
  · refine ⟨by decide, by decide, by decide, by decide, by decide, ?_⟩
    show Queue.tail _ < CLOSED_BIT
    decide

end Queue

end NodeFuzzer
