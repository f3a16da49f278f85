import NodeFuzzer.Spsc.Runs

/-!
# What a queue holds

`len`, `is_empty` and `available` are compared with the elements that `pop` still delivers,
and `push_slice` with the list it should append.

`len` recognizes a full queue by a tail that is a lap ahead of the head, closed bit
included, so the length of a queue that is closed while it is full is 0.  `push_slice`
computes the end of the slice with at most one lap, so a slice that is longer than the
queue can look as if it fitted.
-/

namespace NodeFuzzer

variable {T : Type}

namespace Spans

variable {n h p : Nat} {q : Queue T}

/-- The elements between head and tail. -/
theorem elements (spans : Spans n q h p) : ∃ l : List T, l.length = p - h ∧
    ∀ j, j < p - h → q.buffer[(h + j) % n]? = some l[j]? := by
  have collect : ∀ k ≤ p - h, ∃ l : List T, l.length = k ∧
      ∀ j, j < k → q.buffer[(h + j) % n]? = some l[j]? := by
    intro k
    induction k with
    | zero => exact fun _ => ⟨[], rfl, fun _ hj => absurd hj (Nat.not_lt_zero _)⟩
    | succ k ih =>
        intro hk
        obtain ⟨l, hlength, elems⟩ := ih (Nat.le_of_succ_le hk)
        obtain ⟨elem, helem⟩ := spans.filled (h + k) (Nat.le_add_right h k) (by omega)
        refine ⟨l ++ [elem], by simp [hlength], ?_⟩
        intro j hj
        rcases Nat.lt_succ_iff_lt_or_eq.mp hj with hlt | rfl
        · rw [elems j hlt, List.getElem?_append_left (hlength ▸ hlt)]
        · rw [helem, ← hlength, List.getElem?_concat_length]
  exact collect (p - h) (Nat.le_refl _)

/-- An open queue holds them. -/
theorem represents (spans : Spans n q h p) (isOpen : q.tail &&& CLOSED_BIT = 0) :
    ∃ l, Queue.Represents n q l ∧ h + l.length = p := by
  obtain ⟨l, hlength, elems⟩ := spans.elements
  have htail := (spans.tail.open_iff spans.below).mp isOpen
  have hle := spans.le
  have hsum : h + l.length = p := by omega
  refine ⟨l, ⟨spans.toShape, ?_, ?_, h, spans.head, ?_, ?_⟩, hsum⟩
  · have := spans.room
    omega
  · rw [htail]
    exact spans.below
  · rw [hsum, htail]
  · rw [hlength]
    exact elems

/-- The mask covers no closed bit. -/
theorem index_tail (spans : Spans n q h p) : q.index q.tail = p % n := by
  obtain htail | htail := spans.tail
  · rw [htail, spans.index_eq]
  · obtain ⟨k, hk, hmask⟩ := spans.mask
    have hdvd : q.maskBit ∣ CLOSED_BIT := by
      rw [hmask, CLOSED_BIT]
      exact Nat.pow_dvd_pow 2 hk
    rw [Queue.index, htail, hmask, Nat.and_two_pow_sub_one_eq_mod, ← hmask, Nat.add_mod,
      Nat.mod_eq_zero_of_dvd hdvd, Nat.add_zero, Nat.mod_mod, lapCount_mod spans.pos spans.wide]

/-- The tail of a closed queue is a lap ahead just when that lap is the closed bit. -/
theorem lap_ahead_iff (spans : Spans n q h p) (marked : q.tail &&& CLOSED_BIT ≠ 0) :
    wrappingSub q.tail q.maskBit = q.head ↔ q.maskBit = CLOSED_BIT ∧ p = h := by
  have htail := (spans.tail.closed_iff spans.below).mp marked
  have hmask := spans.maskBit_le
  have hbelow := spans.below
  have hword : CLOSED_BIT + CLOSED_BIT = USIZE := by decide
  have hle : lapCount n q.maskBit h ≤ lapCount n q.maskBit p := by
    rcases Nat.lt_or_eq_of_le spans.le with hlt | rfl
    · exact (lapCount_lt_lapCount spans.pos spans.wide hlt).le
    · exact Nat.le_refl _
  have hsub : wrappingSub q.tail q.maskBit = lapCount n q.maskBit p + CLOSED_BIT - q.maskBit := by
    have hshift : q.tail + USIZE - q.maskBit =
        lapCount n q.maskBit p + CLOSED_BIT - q.maskBit + USIZE := by omega
    rw [wrappingSub, hshift, Nat.add_mod_right, Nat.mod_eq_of_lt]
    have := spans.wide
    have := spans.pos
    omega
  rw [hsub, spans.head, ← lapCount_inj spans.pos spans.wide (p := p)]
  omega

/-- The length of a closed queue. -/
theorem len_closed (spans : Spans n q h p) (marked : q.tail &&& CLOSED_BIT ≠ 0) :
    q.len = if q.maskBit = CLOSED_BIT ∧ p = h then n else if p = h + n then 0 else p - h := by
  have hle := spans.le
  have hroom := spans.room
  unfold Queue.len
  by_cases hlap : q.maskBit = CLOSED_BIT ∧ p = h
  · rw [if_pos ((spans.lap_ahead_iff marked).mpr hlap), if_pos hlap, spans.size]
  · have hnot := fun heq => hlap ((spans.lap_ahead_iff marked).mp heq)
    rw [if_neg hnot, if_neg hlap, spans.index_tail, spans.head, spans.index_eq, spans.size]
    by_cases hfull : p = h + n
    · simp [hfull]
    · obtain ⟨k, rfl⟩ := Nat.exists_eq_add_of_le hle
      rw [if_neg hfull, add_mod_eq_ite (by omega)]
      have hlt := Nat.mod_lt h spans.pos
      generalize h % n = place at hlt ⊢
      dsimp only
      split <;> split <;> omega

end Spans

/-! ## The length -/

/-- The elements that successive calls of `pop` return before the first error. -/
inductive Delivers : Queue T → List T → Prop where
  | nothing {q q' : Queue T} {e : PopError} : q.pop = (.err e, q') → Delivers q []
  | next {q q' : Queue T} {elem : T} {l : List T} :
      q.pop = (.ok elem, q') → Delivers q' l → Delivers q (elem :: l)

/-- `len`, `is_empty` and `available` count what `pop` delivers. -/
def LengthExact (q : Queue T) : Prop :=
  ∃ l, Delivers q l ∧ q.len = l.length ∧ (q.isEmpty = true ↔ l = []) ∧
    q.available = q.buffer.length - l.length

/-- The queue is closed, and its tail without the closed bit is a lap ahead of the head, or
the lap is the closed bit and the queue is empty. -/
def Queue.ClosedFull (q : Queue T) : Prop :=
  q.tail &&& CLOSED_BIT ≠ 0 ∧
    (wrappingAdd q.head q.maskBit = q.tail &&& usizeNot CLOSED_BIT ∨
      q.maskBit = CLOSED_BIT ∧ q.tail &&& usizeNot CLOSED_BIT = q.head)

instance (q : Queue T) : Decidable q.ClosedFull := inferInstanceAs (Decidable (_ ∧ _))

theorem Delivers.unique {q : Queue T} {l l' : List T} (first : Delivers q l)
    (second : Delivers q l') : l = l' := by
  induction first generalizing l' with
  | nothing h =>
      cases second with
      | nothing => rfl
      | next h' => rw [h] at h'; cases h'
  | next h _ ih =>
      cases second with
      | nothing h' => rw [h] at h'; cases h'
      | next h' rest =>
          rw [h] at h'
          cases h'
          rw [ih rest]

/-- The length says everything. -/
theorem lengthExact_iff_len {q : Queue T} {l : List T} (delivers : Delivers q l) :
    LengthExact q ↔ q.len = l.length := by
  constructor
  · rintro ⟨l', delivers', hlen, -⟩
    rw [delivers.unique delivers', hlen]
  · intro hlen
    refine ⟨l, delivers, hlen, ?_, ?_⟩
    · rw [Queue.isEmpty, beq_iff_eq, hlen, List.length_eq_zero_iff]
    · rw [Queue.available, hlen]

namespace Spans

variable {n h p : Nat} {q : Queue T}

theorem pop_empty (spans : Spans n q p p) : ∃ e, q.pop = (.err e, q) := by
  have hcount := spans.tail.count_eq spans.below
  rw [← spans.head] at hcount
  simp only [Queue.pop, if_pos hcount]
  split
  · exact ⟨.closed, rfl⟩
  · exact ⟨.empty, rfl⟩

theorem pop_ok (spans : Spans n q h p) (hlt : h < p) : ∃ elem,
    q.pop = (.ok elem, { q with head := lapCount n q.maskBit (h + 1) }) := by
  have hne : ¬ q.tail &&& usizeNot CLOSED_BIT = q.head := by
    rw [spans.tail.count_eq spans.below, spans.head, lapCount_inj spans.pos spans.wide]
    omega
  obtain ⟨elem, helem⟩ := spans.filled h (Nat.le_refl h) hlt
  have hread : Queue.read (q.index q.head) q = (Outcome.ok (ε := PopError) elem, q) := by
    rw [spans.head, spans.index_eq]
    simp only [Queue.read, helem]
  have hnext : q.next q.head = lapCount n q.maskBit (h + 1) := by
    rw [spans.head, spans.next_eq (spans.lapCount_below spans.le)]
  refine ⟨elem, ?_⟩
  simp only [Queue.pop, if_neg hne]
  rw [Exec.bind_ok hread, ← hnext]
  rfl

/-- As many elements are delivered as lie between head and tail, open or closed. -/
theorem delivers (spans : Spans n q h p) : ∃ l, Delivers q l ∧ l.length = p - h := by
  generalize hk : p - h = k
  induction k generalizing q h with
  | zero =>
      have heq : h = p := by
        have := spans.le
        omega
      subst heq
      obtain ⟨e, hpop⟩ := spans.pop_empty
      exact ⟨[], .nothing hpop, rfl⟩
  | succ k ih =>
      have hlt : h < p := by omega
      obtain ⟨elem, hpop⟩ := spans.pop_ok hlt
      obtain ⟨l, rest, hlength⟩ := ih (spans.advance hlt) (by omega)
      exact ⟨elem :: l, .next hpop rest, by rw [List.length_cons, hlength]⟩

theorem closedFull_iff (spans : Spans n q h p) : q.ClosedFull ↔
    q.tail &&& CLOSED_BIT ≠ 0 ∧ (p = h + n ∨ q.maskBit = CLOSED_BIT ∧ p = h) := by
  unfold Queue.ClosedFull
  rw [spans.tail.count_eq spans.below, spans.head,
    spans.wrappingAdd_eq (spans.lapCount_below spans.le), lapCount_inj spans.pos spans.wide,
    lapCount_inj spans.pos spans.wide, @eq_comm _ (h + n)]

theorem exact_iff (spans : Spans n q h p) : LengthExact q ↔ ¬ q.ClosedFull := by
  obtain ⟨l, delivers, hlength⟩ := spans.delivers
  rw [lengthExact_iff_len delivers, spans.closedFull_iff, hlength]
  by_cases isOpen : q.tail &&& CLOSED_BIT = 0
  · obtain ⟨l', rep, hsum⟩ := spans.represents isOpen
    simp only [isOpen, rep.len_eq]
    omega
  · rw [spans.len_closed isOpen]
    have hpos := spans.pos
    have hle := spans.le
    split
    next hlap =>
      have hshut : ¬ n = p - h := by omega
      exact iff_of_false hshut (not_not_intro ⟨isOpen, .inr hlap⟩)
    next hlap =>
      split
      next hfull =>
        have hshut : ¬ 0 = p - h := by omega
        exact iff_of_false hshut (not_not_intro ⟨isOpen, .inl hfull⟩)
      next hroom => simp [hlap, hroom]

end Spans

namespace Machine

variable {n : Nat} {q : Queue T} {m : Machine T} {turns : List (Turn T)}

/-- In every state of a run the length is exact unless the queue was closed while it was
full and has not been popped from since. -/
theorem lengthExact_iff (made : Queue.newQueue n = some q)
    (below : (bounded q).AlwaysBelow turns) (run : (bounded q).run turns = some m) :
    LengthExact m.queue ↔ ¬ m.queue.ClosedFull := by
  obtain ⟨h, p, spans, -⟩ := (tracked_bounded made).run below run
  exact spans.exact_iff

theorem AlwaysBelow.cons {m' : Machine T} {turn : Turn T} (h : m.step turn = some m')
    (below : m.StoresBelow) (rest : m'.AlwaysBelow turns) : m.AlwaysBelow (turn :: turns) := by
  refine ⟨below, fun m₁ h₁ => ?_⟩
  rw [h] at h₁
  cases h₁
  exact rest

theorem lengthExact_iff_between :
    (bounded twoPlaces).run dropBetween = some refusedSecond ∧
      LengthExact refusedSecond.queue := by
  have one : 1 < CLOSED_BIT := by decide
  have below : (bounded twoPlaces).AlwaysBelow dropBetween :=
    .cons rfl trivial (.cons rfl trivial (.cons rfl trivial (.cons rfl trivial (.cons rfl one
      (.cons rfl trivial (.cons rfl trivial (.cons rfl trivial (.cons rfl trivial
        (.cons rfl trivial trivial)))))))))
  exact ⟨rfl, (lengthExact_iff newQueue_two below rfl).mpr (by decide)⟩

/-- The producer is dropped when the queue is full: two elements are left and the length
is 0. -/
theorem lengthExact_lost :
    (bounded twoPlaces).run [.push (.pushSlice [1, 2]), .produce, .produce, .produce, .produce,
        .dropProducer] =
      some ⟨⟨0, 4 ||| CLOSED_BIT, [some 1, some 2], 4⟩, .dropped, .idle, true, false,
        [⟨.pushSlice [1, 2], false, .pushSlice (.ok ())⟩]⟩ ∧
    Delivers (⟨0, 4 ||| CLOSED_BIT, [some 1, some 2], 4⟩ : Queue Nat) [1, 2] ∧
    Queue.len (⟨0, 4 ||| CLOSED_BIT, [some 1, some 2], 4⟩ : Queue Nat) = 0 ∧
    ¬ LengthExact (⟨0, 4 ||| CLOSED_BIT, [some 1, some 2], 4⟩ : Queue Nat) := by
  have delivers : Delivers (⟨0, 4 ||| CLOSED_BIT, [some 1, some 2], 4⟩ : Queue Nat) [1, 2] :=
    .next rfl (.next rfl (.nothing rfl))
  refine ⟨rfl, delivers, by decide, ?_⟩
  rw [lengthExact_iff_len delivers]
  decide

end Machine

/-! ## Slices -/

/-- `push_slice` returns an error and keeps the elements, or it appends the slice to
them. -/
def AllOrNothing (n : Nat) (q : Queue T) (slice : List T) : Prop :=
  ∃ l, Queue.Represents n q l ∧
    ((∃ e, (q.pushSlice slice).1 = .err e ∧ Queue.Represents n (q.pushSlice slice).2 l) ∨
      (q.pushSlice slice).1 = .ok () ∧ Queue.Represents n (q.pushSlice slice).2 (l ++ slice))

/-- The slice is no longer than the queue, and when there is room for it the tail after it
is below the bit of the closed queue; or it is longer, and its end, counted with one lap, is
past the room that is left. -/
def Queue.Takes (q : Queue T) (m : Nat) : Prop :=
  let n := q.buffer.length
  let place := q.index q.tail
  m ≤ n ∧ (q.len + m ≤ n →
    (if place + m < n then q.tail + m else q.tail + m + (q.maskBit - n)) < CLOSED_BIT) ∨
  n < m ∧ place < q.len + (place + m) % n

instance (q : Queue T) (m : Nat) : Decidable (q.Takes m) := inferInstanceAs (Decidable (_ ∨ _))

namespace Spans

variable {n h p : Nat} {q : Queue T} {l : List T}

/-- The tail after a slice that is no longer than the queue. -/
theorem lapCount_slice (spans : Spans n q h p) {m : Nat} (hm : m ≤ n) :
    lapCount n q.maskBit (p + m) = if p % n + m < n then lapCount n q.maskBit p + m
      else lapCount n q.maskBit p + m + (q.maskBit - n) := by
  rw [lapCount_add spans.pos hm]
  split
  next => rfl
  next hwrap =>
    have hlt := Nat.mod_lt p spans.pos
    have hwide := spans.wide
    have hmod : (p % n + m) % n = p % n + m - n := by
      rw [Nat.mod_eq_sub_mod (Nat.not_lt.mp hwrap), Nat.mod_eq_of_lt (by omega)]
    rw [hmod, lapCount]
    omega

/-- The end of a slice that is longer than the queue is past the room that is left. -/
theorem sliceEnd_past_iff {m k : Nat} (hlt : n < m) : h + n < sliceEnd n (h + k) m ↔
    (h + k) % n < k + ((h + k) % n + m) % n := by
  have hle := Nat.mod_le (h + k) n
  rw [sliceEnd_of_lt hlt]
  omega

/-- A slice that is longer than the queue is refused when its end is past the room that is
left.  Otherwise it is not refused, and is lost in part or panics. -/
theorem allOrNothing_long (spans : Spans n q h p) (rep : Queue.Represents n q l)
    (hsum : h + l.length = p) {slice : List T} (long : n < slice.length) :
    AllOrNothing n q slice ↔ p % n < l.length + (p % n + slice.length) % n := by
  have hopen : ¬ q.tail &&& CLOSED_BIT ≠ 0 := not_not_intro (Queue.and_closedBit rep.below)
  have htail : q.tail = lapCount n q.maskBit p :=
    (spans.tail.open_iff spans.below).mp (Queue.and_closedBit rep.below)
  have hfull : wrappingAdd q.head q.maskBit < q.nextTail q.tail slice.length ↔
      p % n < l.length + (p % n + slice.length) % n := by
    rw [spans.head, spans.wrappingAdd_eq (spans.lapCount_below spans.le), htail,
      spans.nextTail_eq, lapCount_lt_iff spans.pos spans.wide, ← hsum, sliceEnd_past_iff long]
  rw [← hfull]
  constructor
  · rintro ⟨l', -, hpush⟩
    by_contra room
    simp only [Queue.pushSlice, if_neg hopen, if_neg room, Bind.bind, Exec.bind] at hpush
    obtain ⟨buffer, hcopy | hcopy⟩ := Machine.copySlice_cases (q.index q.tail) slice q
    · rw [hcopy] at hpush
      obtain ⟨e, herr, -⟩ | ⟨-, rep'⟩ := hpush
      · cases herr
      · have hfits := rep'.fits
        rw [List.length_append] at hfits
        omega
    · rw [hcopy] at hpush
      obtain ⟨e, herr, -⟩ | ⟨hok, -⟩ := hpush
      · cases herr
      · cases hok
  · intro full
    have hpush : q.pushSlice slice = (.err (.full ()), q) := by
      simp only [Queue.pushSlice, if_neg hopen, if_pos full]
    exact ⟨l, rep, .inl ⟨.full (), by rw [hpush], by rw [hpush]; exact rep⟩⟩

/-- A slice that is no longer than the queue is refused or appended while the tail is below
the bit of the closed queue. -/
theorem allOrNothing_short (spans : Spans n q h p) (rep : Queue.Represents n q l)
    (hsum : h + l.length = p) {slice : List T} (small : slice.length ≤ n) :
    AllOrNothing n q slice ↔
      (l.length + slice.length ≤ n → lapCount n q.maskBit (p + slice.length) < CLOSED_BIT) := by
  by_cases full : n < l.length + slice.length
  · have hpush := rep.pushSlice_full small full
    refine iff_of_true ⟨l, rep, .inl ⟨.full (), by rw [hpush], by rw [hpush]; exact rep⟩⟩ ?_
    intro fits
    exact absurd full (Nat.not_lt.mpr fits)
  · have htail : q.tail = lapCount n q.maskBit (h + l.length) := by
      rw [hsum]
      exact (spans.tail.open_iff spans.below).mp (Queue.and_closedBit rep.below)
    have hpush := rep.pushSlice_stored small full htail
    rw [hsum] at hpush
    constructor
    · rintro ⟨l', -, ⟨e, herr, -⟩ | ⟨-, rep'⟩⟩ -
      · rw [hpush] at herr
        cases herr
      · rw [hpush] at rep'
        exact rep'.below
    · intro below
      have stored := below (Nat.not_lt.mp full)
      exact ⟨l, rep, .inr (rep.pushSlice_ok small full (by rw [hpush]; exact stored))⟩

theorem takes_iff (spans : Spans n q h p) (isOpen : q.tail &&& CLOSED_BIT = 0)
    (slice : List T) : AllOrNothing n q slice ↔ q.Takes slice.length := by
  obtain ⟨l, rep, hsum⟩ := spans.represents isOpen
  have htail := (spans.tail.open_iff spans.below).mp isOpen
  unfold Queue.Takes
  simp only [rep.len_eq, rep.size, spans.index_tail]
  by_cases small : slice.length ≤ n
  · have hlong : ¬ n < slice.length := Nat.not_lt.mpr small
    rw [spans.allOrNothing_short rep hsum small, spans.lapCount_slice small, htail]
    simp [small, hlong]
  · have hlong : n < slice.length := Nat.not_le.mp small
    rw [spans.allOrNothing_long rep hsum hlong]
    simp [small, hlong]

end Spans

namespace Machine

variable {n : Nat} {q : Queue T} {m : Machine T} {turns : List (Turn T)}

/-- In every state of a run in which the queue is open, `push_slice` is all or nothing for
exactly the slices that the queue takes. -/
theorem allOrNothing_iff (made : Queue.newQueue n = some q)
    (below : (bounded q).AlwaysBelow turns) (run : (bounded q).run turns = some m)
    (isOpen : m.queue.tail &&& CLOSED_BIT = 0) (slice : List T) :
    AllOrNothing n m.queue slice ↔ m.queue.Takes slice.length := by
  obtain ⟨h, p, spans, -⟩ := (tracked_bounded made).run below run
  exact spans.takes_iff isOpen slice

theorem allOrNothing_iff_two :
    AllOrNothing 2 twoPlaces [1, 2] ∧ ¬ AllOrNothing 2 twoPlaces [1, 2, 3, 4] := by
  have below : (bounded twoPlaces).AlwaysBelow [] := trivial
  have taken := allOrNothing_iff newQueue_two below rfl rfl
  exact ⟨(taken [1, 2]).mpr (by decide), fun h => absurd ((taken [1, 2, 3, 4]).mp h) (by decide)⟩

end Machine

/-- A new queue of five places returns `Ok` for a slice of ten and keeps the last five; a
slice of fifteen panics. -/
theorem allOrNothing_ten :
    Queue.newQueue 5 = some (⟨0, 0, List.replicate 5 none, 8⟩ : Queue Nat) ∧
    Queue.pushSlice [1, 2, 3, 4, 5, 6, 7, 8, 9, 10] ⟨0, 0, List.replicate 5 none, 8⟩ =
      (.ok (), ⟨0, 8, [some 6, some 7, some 8, some 9, some 10], 8⟩) ∧
    (Queue.pushSlice (List.range 15) ⟨0, 0, List.replicate 5 none, 8⟩).1 = .panic ∧
    ¬ AllOrNothing 5 ⟨0, 0, List.replicate 5 none, 8⟩ [1, 2, 3, 4, 5, 6, 7, 8, 9, 10] := by
  refine ⟨by decide, by decide, by decide, ?_⟩
  rintro ⟨l, -, ⟨e, herr, -⟩ | ⟨-, rep⟩⟩
  · have hok : (Queue.pushSlice [1, 2, 3, 4, 5, 6, 7, 8, 9, 10]
        ⟨0, 0, List.replicate 5 none, 8⟩).1 = .ok () := by decide
    rw [hok] at herr
    cases herr
  · have hfits := rep.fits
    simp at hfits

end NodeFuzzer
