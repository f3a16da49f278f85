import NodeFuzzer.Spsc.Closing

/-!
# The queue in every run

What is known of the queue whatever the two ends are doing.  Head and tail stand for
numbers of places `h ≤ p ≤ h + n`, the tail with or without the closed bit, and every place
between them was written.  A call that is not done knows where its loads stood: a head it
has loaded is old but never ahead, and a tail it has loaded without the closed bit is the
tail, because nobody else moves it.

This holds for slices of any length, also for those that `push_slice` stores only in part.
Counters are assumed to stay below the bit of the closed queue.
-/

namespace NodeFuzzer

variable {T : Type}

/-! ## The closed bit -/

section ClosedBit

variable {t : Nat}

theorem or_closedBit (h : t < CLOSED_BIT) : t ||| CLOSED_BIT = t + CLOSED_BIT := by
  have hadd := Nat.two_pow_add_eq_or_of_lt h 1
  rw [Nat.mul_one] at hadd
  rw [Nat.or_comm, CLOSED_BIT, ← hadd, Nat.add_comm]

theorem add_closedBit_marked (h : t < CLOSED_BIT) : (t + CLOSED_BIT) &&& CLOSED_BIT ≠ 0 := by
  rw [← or_closedBit h]
  exact Machine.setClosed_marked ⟨0, t, ([] : List (Option Unit)), 0⟩

theorem add_closedBit_and_not (h : t < CLOSED_BIT) :
    (t + CLOSED_BIT) &&& usizeNot CLOSED_BIT = t := by
  have hnot : usizeNot CLOSED_BIT = 2 ^ 63 - 1 := by decide
  have hbit : CLOSED_BIT % 2 ^ 63 = 0 := by decide
  rw [hnot, Nat.and_two_pow_sub_one_eq_mod, Nat.add_mod, hbit, Nat.add_zero, Nat.mod_mod]
  exact Nat.mod_eq_of_lt h

end ClosedBit

/-- A tail with a count, open or closed. -/
def Marked (count tail : Nat) : Prop := tail = count ∨ tail = count + CLOSED_BIT

namespace Marked

variable {count tail : Nat}

theorem open_iff (marked : Marked count tail) (below : count < CLOSED_BIT) :
    tail &&& CLOSED_BIT = 0 ↔ tail = count := by
  obtain rfl | rfl := marked
  · exact iff_of_true (Queue.and_closedBit below) rfl
  · have positive : 0 < CLOSED_BIT := by decide
    exact iff_of_false (add_closedBit_marked below) (by omega)

theorem closed_iff (marked : Marked count tail) (below : count < CLOSED_BIT) :
    tail &&& CLOSED_BIT ≠ 0 ↔ tail = count + CLOSED_BIT := by
  have positive : 0 < CLOSED_BIT := by decide
  rw [ne_eq, marked.open_iff below]
  obtain rfl | rfl := marked <;> omega

theorem count_eq (marked : Marked count tail) (below : count < CLOSED_BIT) :
    tail &&& usizeNot CLOSED_BIT = count := by
  obtain rfl | rfl := marked
  · exact Queue.and_not_closedBit below
  · exact add_closedBit_and_not below

/-- `set_closed` keeps the count. -/
theorem setClosed (marked : Marked count tail) (below : count < CLOSED_BIT) :
    Marked count (tail ||| CLOSED_BIT) := by
  obtain rfl | rfl := marked
  · exact .inr (or_closedBit below)
  · rw [← or_closedBit below, Nat.or_assoc, Nat.or_self, or_closedBit below]
    exact .inr rfl

end Marked

/-! ## Written places -/

/-- The place was written. -/
def Filled (buffer : List (Option T)) (i : Nat) : Prop := ∃ elem, buffer[i]? = some (some elem)

namespace Filled

variable {buffer : List (Option T)} {i : Nat}

theorem set (filled : Filled buffer i) (k : Nat) (elem : T) :
    Filled (buffer.set k (some elem)) i := by
  obtain ⟨old, hold⟩ := filled
  have inside : i < buffer.length := by
    rw [List.getElem?_eq_some_iff] at hold
    exact hold.1
  by_cases hk : k = i
  · subst hk
    exact ⟨elem, List.getElem?_set_self inside⟩
  · exact ⟨old, by rw [List.getElem?_set_ne hk, hold]⟩

theorem setSlice (filled : Filled buffer i) (k : Nat) (slice : List T) :
    Filled (Queue.setSlice buffer k slice) i := by
  induction slice generalizing buffer k with
  | nil => exact filled
  | cons elem slice ih => exact ih (filled.set k elem) (k + 1)

/-- A slice fills the places it is written to. -/
theorem of_setSlice {k : Nat} {slice : List T} (hk : k ≤ i) (hi : i < k + slice.length)
    (inside : i < buffer.length) : Filled (Queue.setSlice buffer k slice) i := by
  induction slice generalizing buffer k with
  | nil => simp at hi; omega
  | cons elem slice ih =>
      rw [List.length_cons] at hi
      by_cases heq : k = i
      · subst heq
        exact Filled.setSlice ⟨elem, List.getElem?_set_self inside⟩ (k + 1) slice
      · exact ih (by omega) (by omega) (by rw [List.length_set]; exact inside)

end Filled

/-- Only places of the buffer were written. -/
structure Grown (q q' : Queue T) : Prop where
  head : q'.head = q.head
  tail : q'.tail = q.tail
  maskBit : q'.maskBit = q.maskBit
  length : q'.buffer.length = q.buffer.length
  filled : ∀ i, Filled q.buffer i → Filled q'.buffer i

namespace Grown

theorem refl (q : Queue T) : Grown q q := ⟨rfl, rfl, rfl, rfl, fun _ h => h⟩

theorem trans {q₁ q₂ q₃ : Queue T} (first : Grown q₁ q₂) (second : Grown q₂ q₃) : Grown q₁ q₃ :=
  ⟨second.head.trans first.head, second.tail.trans first.tail, second.maskBit.trans first.maskBit,
    second.length.trans first.length, fun i h => second.filled i (first.filled i h)⟩

theorem write (q : Queue T) (k : Nat) (elem : T) :
    Grown q { q with buffer := q.buffer.set k (some elem) } :=
  ⟨rfl, rfl, rfl, List.length_set, fun _ h => h.set k elem⟩

theorem setSlice (q : Queue T) (k : Nat) (slice : List T) :
    Grown q { q with buffer := Queue.setSlice q.buffer k slice } :=
  ⟨rfl, rfl, rfl, Queue.setSlice_length q.buffer k slice, fun _ h => h.setSlice k slice⟩

end Grown

namespace Queue

variable {ε : Type} {q q' : Queue T}

theorem copyFromSlice_grown {index : Nat} {slice : List T} {o : Outcome ε Unit}
    (h : copyFromSlice index slice q = (o, q')) : Grown q q' ∧ (o = .ok () →
      ∀ i, index ≤ i → i < index + slice.length → i < q.buffer.length → Filled q'.buffer i) := by
  unfold copyFromSlice at h
  split at h
  next fits =>
    cases h
    exact ⟨.setSlice q index slice, fun _ i hle hlt inside => .of_setSlice hle hlt inside⟩
  next =>
    cases h
    exact ⟨.refl q, nofun⟩

/-- The copies of a slice fill the places up to its end, around the end of the buffer, and
empty none, also when one of them panics. -/
theorem copySlice_grown {index : Nat} {slice : List T} {o : Outcome ε Unit}
    (hindex : index < q.buffer.length) (h : copySlice index slice q = (o, q')) : Grown q q' ∧ (o = .ok () → ∀ i < q.buffer.length,
      (index ≤ i ∧ i < index + slice.length ∨ i + q.buffer.length < index + slice.length) →
        Filled q'.buffer i) := by
  unfold copySlice at h
  split at h
  next wraps =>
    simp only [Bind.bind, Exec.bind] at h
    cases hfirst : copyFromSlice (ε := ε) index (slice.take (q.buffer.length - index)) q with
    | mk first q₁ =>
        obtain ⟨grown, fills⟩ := copyFromSlice_grown hfirst
        rw [hfirst] at h
        cases first with
        | ok =>
            obtain ⟨grown', fills'⟩ := copyFromSlice_grown h
            refine ⟨grown.trans grown', ?_⟩
            rintro rfl i inside (⟨hle, -⟩ | hlt)
            · refine grown'.filled i (fills rfl i hle ?_ inside)
              rw [List.length_take]
              omega
            · refine fills' rfl i (Nat.zero_le i) ?_ (grown.length ▸ inside)
              rw [List.length_drop]
              omega
        | err e =>
            cases h
            exact ⟨grown, by simp⟩
        | panic =>
            cases h
            exact ⟨grown, by simp⟩
  next fits =>
    obtain ⟨grown, fills⟩ := copyFromSlice_grown h
    refine ⟨grown, ?_⟩
    rintro rfl i inside (⟨hle, hlt⟩ | hlt)
    · exact fills rfl i hle hlt inside
    · omega

end Queue

/-! ## The invariant -/

/-- The head is after `h` places and the tail after `p`, and the places between them were
written. -/
structure Spans (n : Nat) (q : Queue T) (h p : Nat) : Prop extends Queue.Shape n q where
  le : h ≤ p
  room : p ≤ h + n
  head : q.head = lapCount n q.maskBit h
  tail : Marked (lapCount n q.maskBit p) q.tail
  below : lapCount n q.maskBit p < CLOSED_BIT
  filled : ∀ j, h ≤ j → j < p → Filled q.buffer (j % n)

namespace Spans

variable {n h p : Nat} {q q' : Queue T}

theorem lapCount_below (spans : Spans n q h p) {i : Nat} (hi : i ≤ p) :
    lapCount n q.maskBit i < CLOSED_BIT := by
  rcases Nat.lt_or_eq_of_le hi with hlt | rfl
  · exact (lapCount_lt_lapCount spans.pos spans.wide hlt).trans spans.below
  · exact spans.below

theorem grown (spans : Spans n q h p) (grown : Grown q q') : Spans n q' h p := by
  have mask := grown.maskBit
  refine ⟨⟨?_, spans.pos, ?_, ?_⟩, spans.le, spans.room, ?_, ?_, ?_, ?_⟩
  · rw [grown.length, spans.size]
  · rw [mask]
    exact spans.wide
  · rw [mask]
    exact spans.mask
  · rw [grown.head, mask, spans.head]
  · rw [grown.tail, mask]
    exact spans.tail
  · rw [mask]
    exact spans.below
  · intro j hle hlt
    exact grown.filled _ (spans.filled j hle hlt)

theorem setClosed (spans : Spans n q h p) : Spans n q.setClosed h p :=
  ⟨⟨spans.size, spans.pos, spans.wide, spans.mask⟩, spans.le, spans.room, spans.head,
    spans.tail.setClosed spans.below, spans.below, spans.filled⟩

/-- The consumer stores the head one place further on. -/
theorem advance (spans : Spans n q h p) (hlt : h < p) :
    Spans n { q with head := lapCount n q.maskBit (h + 1) } (h + 1) p :=
  ⟨⟨spans.size, spans.pos, spans.wide, spans.mask⟩, hlt, by have := spans.room; omega, rfl,
    spans.tail, spans.below, fun j hle => spans.filled j (Nat.le_of_succ_le hle)⟩

/-- The tail after a slice of any length. -/
theorem nextTail_eq (spans : Spans n q h p) (m : Nat) :
    q.nextTail (lapCount n q.maskBit p) m = lapCount n q.maskBit (sliceEnd n p m) := by
  unfold sliceEnd
  split
  next hfit =>
    have hm : m ≤ n := by omega
    exact spans.toShape.nextTail_eq spans.below hm
  next hwrap =>
    have hlap := spans.toShape.lap_le spans.below
    have hlt := Nat.mod_lt (p % n + m) spans.pos
    have hwide := spans.wide
    have hmask := spans.toShape.maskBit_le
    have hword : CLOSED_BIT + CLOSED_BIT = USIZE := by decide
    have hsum : p / n * q.maskBit + q.maskBit + (p % n + m) % n < USIZE := by omega
    rw [lapCount_mul_add hlt, Queue.nextTail, spans.index_eq, spans.size, if_neg hwrap,
      spans.toShape.nextLap_eq spans.below, wrappingAdd, Nat.mod_eq_of_lt hsum, Nat.succ_mul]

end Spans

/-- What a call of the producer knows. -/
def ProducerKnows (n : Nat) (q : Queue T) (h p : Nat) : Producer T → Prop
  | .idle | .called _ | .dropped => True
  | .loadedTail _ tail => tail &&& CLOSED_BIT = 0 → tail = lapCount n q.maskBit p
  | .loadedHead _ tail head =>
      tail &&& CLOSED_BIT = 0 → tail = lapCount n q.maskBit p ∧
        ∃ i ≤ h, p ≤ i + n ∧ head = lapCount n q.maskBit i
  | .written _ _ next =>
      ∃ e, p ≤ e ∧ e ≤ h + n ∧ next = lapCount n q.maskBit e ∧
        ∀ j, p ≤ j → j < e → Filled q.buffer (j % n)

/-- What a call of the consumer knows. -/
def ConsumerKnows (n : Nat) (q : Queue T) (h p : Nat) : Consumer T → Prop
  | .idle | .called | .dropped => True
  | .loadedHead head => head = lapCount n q.maskBit h
  | .loadedTail head tail =>
      head = lapCount n q.maskBit h ∧
        ∃ i ≤ p, h ≤ i ∧ tail &&& usizeNot CLOSED_BIT = lapCount n q.maskBit i
  | .taken _ next => h < p ∧ next = lapCount n q.maskBit (h + 1)

namespace Spans

variable {n h p : Nat} {q q' : Queue T}

/-- What a push does between its loads and its store: it only writes places, and the tail
to store is at most a lap past the head, with every place up to it written. -/
theorem attempt (spans : Spans n q h p) {i tail head : Nat} {call : PushCall T}
    {o : Outcome (QueueReply T) Nat} (htail : tail = lapCount n q.maskBit p) (hi : i ≤ p)
    (hroom : p ≤ i + n) (hhead : head = lapCount n q.maskBit i)
    (run : q.attempt tail head call = (o, q')) : Grown q q' ∧ ∀ next, o = .ok next →
      ∃ e, p ≤ e ∧ e ≤ i + n ∧ next = lapCount n q.maskBit e ∧
        ∀ j, p ≤ j → j < e → Filled q'.buffer (j % n) := by
  have hopen : ¬ tail &&& CLOSED_BIT ≠ 0 := by
    rw [htail]
    exact not_not_intro (Queue.and_closedBit spans.below)
  have hlap : wrappingAdd head q.maskBit = lapCount n q.maskBit (i + n) := by
    rw [hhead, spans.wrappingAdd_eq (spans.lapCount_below hi)]
  have hindex : q.index tail = p % n := by rw [htail, spans.index_eq]
  have hplace : p % n < q.buffer.length := by
    rw [spans.size]
    exact Nat.mod_lt p spans.pos
  cases call with
  | push elem =>
      simp only [Queue.attempt, if_neg hopen] at run
      split at run
      next =>
        cases run
        exact ⟨.refl q, by simp⟩
      next room =>
        rw [hlap, htail, lapCount_inj spans.pos spans.wide] at room
        simp only [Bind.bind, Exec.bind, Queue.write, hindex, if_pos hplace, Pure.pure,
          Exec.pure] at run
        cases run
        refine ⟨.write q (p % n) elem, ?_⟩
        intro next hnext
        cases hnext
        refine ⟨p + 1, Nat.le_succ p, by omega, by rw [htail, spans.next_eq spans.below], ?_⟩
        intro j hle hlt
        have heq : j = p := by omega
        subst heq
        exact ⟨elem, List.getElem?_set_self hplace⟩
  | pushSlice slice =>
      simp only [Queue.attempt, if_neg hopen] at run
      split at run
      next =>
        cases run
        exact ⟨.refl q, by simp⟩
      next room =>
        rw [hlap, htail, spans.nextTail_eq, lapCount_lt_iff spans.pos spans.wide] at room
        rw [hindex] at run
        simp only [Bind.bind, Exec.bind] at run
        cases hcopy : Queue.copySlice (ε := QueueReply T) (p % n) slice q with
        | mk copied q₁ =>
            obtain ⟨grown, fills⟩ := Queue.copySlice_grown hplace hcopy
            rw [hcopy] at run
            cases copied with
            | ok =>
                cases run
                refine ⟨grown, ?_⟩
                intro next hnext
                cases hnext
                refine ⟨sliceEnd n p slice.length, le_sliceEnd spans.pos, Nat.not_lt.mp room,
                  by rw [htail, spans.nextTail_eq], ?_⟩
                intro j hle hlt
                refine fills rfl _ ?_ ?_
                · rw [spans.size]
                  exact Nat.mod_lt j spans.pos
                · rw [spans.size]
                  exact mod_of_lt_sliceEnd spans.pos hle hlt
            | err e =>
                cases run
                exact ⟨grown, by simp⟩
            | panic =>
                cases run
                exact ⟨grown, by simp⟩

/-- What a `pop` does between its loads and its store. -/
theorem take (spans : Spans n q h p) {i head tail : Nat} {elem : T} {next : Nat}
    (hhead : head = lapCount n q.maskBit h) (hi : i ≤ p) (hle : h ≤ i)
    (htail : tail &&& usizeNot CLOSED_BIT = lapCount n q.maskBit i)
    (run : q.take head tail = (.ok (elem, next), q')) :
    h < p ∧ next = lapCount n q.maskBit (h + 1) := by
  unfold Queue.take at run
  split at run
  next => split at run <;> cases run
  next hne =>
    rw [htail, hhead, lapCount_inj spans.pos spans.wide] at hne
    simp only [Bind.bind, Exec.bind, Queue.read] at run
    split at run <;> rename_i hread <;> split at hread <;> cases hread
    · simp only [Pure.pure, Exec.pure] at run
      cases run
      exact ⟨by omega, by rw [hhead, spans.next_eq (spans.lapCount_below spans.le)]⟩
    · cases run

end Spans

/-! ## Runs -/

namespace Machine

variable {n : Nat} {m m' : Machine T}

/-- A tail that is about to be stored is below the bit of the closed queue. -/
def StoresBelow (m : Machine T) : Prop :=
  match m.producer with
  | .written _ _ next => next < CLOSED_BIT
  | _ => True

/-- That in every state of a run. -/
def AlwaysBelow : Machine T → List (Turn T) → Prop
  | m, [] => m.StoresBelow
  | m, turn :: turns => m.StoresBelow ∧ ∀ m', m.step turn = some m' → AlwaysBelow m' turns

/-- The invariant of every run. -/
def Tracked (n : Nat) (m : Machine T) : Prop :=
  ∃ h p, Spans n m.queue h p ∧ ProducerKnows n m.queue h p m.producer ∧
    ConsumerKnows n m.queue h p m.consumer

theorem tracked_bounded {q : Queue T} (made : Queue.newQueue n = some q) : Tracked n (bounded q) := by
  have rep := Queue.represents_newQueue made
  obtain ⟨h, head, tail, _⟩ := rep.places
  have below := rep.below
  rw [tail] at below
  exact ⟨h, h, ⟨rep.toShape, Nat.le_refl h, Nat.le_add_right h n, head, .inl tail, below,
    fun j hle hlt => absurd hle (Nat.not_le.mpr hlt)⟩, trivial, trivial⟩

theorem Tracked.produce (tracked : Tracked n m) (below : m.StoresBelow)
    (step : m.produce = some m') : Tracked n m' := by
  obtain ⟨h, p, spans, producer, consumer⟩ := tracked
  cases hp : m.producer with
  | idle => simp [Machine.produce, hp] at step
  | dropped => simp [Machine.produce, hp] at step
  | called call =>
      simp only [Machine.produce, hp, Option.some.injEq] at step
      subst step
      exact ⟨h, p, spans, (spans.tail.open_iff spans.below).mp, consumer⟩
  | loadedTail call tail =>
      simp only [Machine.produce, hp, Option.some.injEq] at step
      rw [hp] at producer
      subst step
      exact ⟨h, p, spans,
        fun isOpen => ⟨producer isOpen, h, Nat.le_refl h, spans.room, spans.head⟩, consumer⟩
  | loadedHead call tail head =>
      simp only [Machine.produce, hp, Option.some.injEq] at step
      rw [hp] at producer
      by_cases isOpen : tail &&& CLOSED_BIT = 0
      · obtain ⟨htail, i, hi, hroom, hhead⟩ := producer isOpen
        cases hattempt : m.queue.attempt tail head call with
        | mk o q =>
            obtain ⟨grown, stores⟩ :=
              spans.attempt htail (hi.trans spans.le) hroom hhead hattempt
            have consumer' : ConsumerKnows n q h p m.consumer := by
              simpa [ConsumerKnows, grown.maskBit] using consumer
            rw [hattempt] at step
            cases o with
            | ok next =>
                obtain ⟨e, hle, hend, hnext, filled⟩ := stores next rfl
                subst step
                rw [← grown.maskBit] at hnext
                exact ⟨h, p, spans.grown grown, ⟨e, hle, by omega, hnext, filled⟩, consumer'⟩
            | err reply =>
                subst step
                exact ⟨h, p, spans.grown grown, trivial, consumer'⟩
            | panic =>
                subst step
                exact ⟨h, p, spans.grown grown, trivial, consumer'⟩
      · rw [attempt_closed m.queue isOpen] at step
        subst step
        exact ⟨h, p, spans, trivial, consumer⟩
  | written call tail next =>
      simp only [Machine.produce, hp, Option.some.injEq] at step
      simp only [StoresBelow, hp] at below
      rw [hp] at producer
      obtain ⟨e, hle, hend, hnext, filled⟩ := producer
      subst step
      rw [hnext] at below
      refine ⟨h, e, ⟨⟨spans.size, spans.pos, spans.wide, spans.mask⟩, spans.le.trans hle, hend,
          spans.head, .inl hnext, below, ?_⟩,
        trivial, ?_⟩
      · intro j hj hlt
        by_cases hold : j < p
        · exact spans.filled j hj hold
        · exact filled j (Nat.not_lt.mp hold) hlt
      · cases hc : m.consumer with
        | loadedTail head tail' =>
            rw [hc] at consumer
            obtain ⟨hhead, i, hi, hstart, hcount⟩ := consumer
            exact ⟨hhead, i, hi.trans hle, hstart, hcount⟩
        | taken elem next' =>
            rw [hc] at consumer
            exact ⟨consumer.1.trans_le hle, consumer.2⟩
        | loadedHead head => rw [hc] at consumer; exact consumer
        | idle => trivial
        | called => trivial
        | dropped => trivial

theorem Tracked.consume (tracked : Tracked n m) (step : m.consume = some m') : Tracked n m' := by
  obtain ⟨h, p, spans, producer, consumer⟩ := tracked
  cases hc : m.consumer with
  | idle => simp [Machine.consume, hc] at step
  | dropped => simp [Machine.consume, hc] at step
  | called =>
      simp only [Machine.consume, hc, Option.some.injEq] at step
      subst step
      exact ⟨h, p, spans, producer, spans.head⟩
  | loadedHead head =>
      simp only [Machine.consume, hc, Option.some.injEq] at step
      rw [hc] at consumer
      subst step
      exact ⟨h, p, spans, producer, consumer, p, Nat.le_refl p, spans.le,
        spans.tail.count_eq spans.below⟩
  | loadedTail head tail =>
      simp only [Machine.consume, hc, Option.some.injEq] at step
      rw [hc] at consumer
      obtain ⟨hhead, i, hi, hle, htail⟩ := consumer
      have frame := take_queue m.queue head tail
      cases htake : m.queue.take head tail with
      | mk o q =>
          rw [htake] at step frame
          dsimp only at frame
          subst frame
          cases o with
          | ok taken =>
              subst step
              exact ⟨h, p, spans, producer, spans.take hhead hi hle htail htake⟩
          | err e =>
              subst step
              exact ⟨h, p, spans, producer, trivial⟩
          | panic =>
              subst step
              exact ⟨h, p, spans, producer, trivial⟩
  | taken elem next =>
      simp only [Machine.consume, hc, Option.some.injEq] at step
      rw [hc] at consumer
      obtain ⟨hlt, rfl⟩ := consumer
      subst step
      refine ⟨h + 1, p, spans.advance hlt, ?_, trivial⟩
      cases hp : m.producer with
      | loadedHead call tail head =>
          rw [hp] at producer
          intro isOpen
          obtain ⟨htail, i, hi, hroom, hhead⟩ := producer isOpen
          exact ⟨htail, i, Nat.le_succ_of_le hi, hroom, hhead⟩
      | written call tail next =>
          rw [hp] at producer
          obtain ⟨e, hle, hend, hnext, filled⟩ := producer
          exact ⟨e, hle, by omega, hnext, filled⟩
      | loadedTail call tail => rw [hp] at producer; exact producer
      | idle => trivial
      | called call => trivial
      | dropped => trivial

theorem Tracked.step (tracked : Tracked n m) (below : m.StoresBelow) {turn : Turn T}
    (step : m.step turn = some m') : Tracked n m' := by
  cases turn with
  | produce => exact tracked.produce below step
  | consume => exact tracked.consume step
  | push call =>
      obtain ⟨h, p, spans, -, consumer⟩ := tracked
      simp only [Machine.step] at step
      split at step
      next =>
        cases step
        exact ⟨h, p, spans, trivial, consumer⟩
      next => cases step
  | pop =>
      obtain ⟨h, p, spans, producer, -⟩ := tracked
      simp only [Machine.step] at step
      split at step
      next =>
        cases step
        exact ⟨h, p, spans, producer, trivial⟩
      next => cases step
  | dropProducer =>
      obtain ⟨h, p, spans, -, consumer⟩ := tracked
      simp only [Machine.step] at step
      split at step
      next =>
        cases step
        exact ⟨h, p, spans.setClosed, trivial, consumer⟩
      next => cases step
  | dropConsumer =>
      obtain ⟨h, p, spans, producer, -⟩ := tracked
      simp only [Machine.step] at step
      split at step
      next =>
        cases step
        exact ⟨h, p, spans.setClosed, producer, trivial⟩
      next => cases step

theorem Tracked.run (tracked : Tracked n m) {turns : List (Turn T)} (below : m.AlwaysBelow turns)
    (h : m.run turns = some m') : Tracked n m' := by
  induction turns generalizing m with
  | nil =>
      cases h
      exact tracked
  | cons turn turns ih =>
      obtain ⟨m₁, hstep, hrun⟩ := Option.bind_eq_some_iff.mp h
      exact ih (tracked.step below.1 hstep) (below.2 m₁ hstep) hrun

end Machine

end NodeFuzzer
