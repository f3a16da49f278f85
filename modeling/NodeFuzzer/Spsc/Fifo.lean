import NodeFuzzer.Spsc.Contents

/-!
# First in, first out

The producer and the consumer of the machine run in any interleaving of their atomic steps.
What the calls of the producer have stored is what the consumer took, followed by what `pop`
still delivers: no element is lost, none is taken twice, and the order is kept.

The invariant says which elements lie between head and tail.  A call that is about to store
its tail has written its elements behind them already.
-/

namespace NodeFuzzer

variable {T : Type}

/-- The elements of a call. -/
def PushCall.elements : PushCall T → List T
  | .push elem => [elem]
  | .pushSlice slice => slice

/-- A call of the producer fits the queue. -/
def Turn.Small (n : Nat) : Turn T → Prop
  | .push call => call.elements.length ≤ n
  | _ => True

/-- The elements a call has stored. -/
def Returned.stored (r : Returned T) : List T :=
  match r.reply with
  | .push (.ok _) | .pushSlice (.ok _) => r.call.elements
  | _ => []

namespace Machine

/-- What the producer has stored, the first call first. -/
def stored (m : Machine T) : List T := m.log.reverse.flatMap Returned.stored

/-- What the consumer takes in a step. -/
def taken (m : Machine T) : Turn T → List T
  | .consume =>
      match m.consumer with
      | .taken elem _ => [elem]
      | _ => []
  | _ => []

/-- What the consumer takes in a run. -/
def popped (m : Machine T) : List (Turn T) → List T
  | [] => []
  | turn :: turns => m.taken turn ++ (m.step turn).elim [] fun m => m.popped turns

end Machine

/-! ## Places that hold a list -/

/-- The places from `i` on hold the elements of a list. -/
def PlacesHold (n : Nat) (buffer : List (Option T)) (i : Nat) (l : List T) : Prop :=
  ∀ j, j < l.length → buffer[(i + j) % n]? = some l[j]?

namespace PlacesHold

variable {n i : Nat} {buffer : List (Option T)} {elem : T} {l l' : List T}

theorem first (holds : PlacesHold n buffer i (elem :: l)) : buffer[i % n]? = some (some elem) :=
  holds 0 (Nat.zero_lt_succ _)

theorem tail (holds : PlacesHold n buffer i (elem :: l)) : PlacesHold n buffer (i + 1) l := by
  intro j hj
  have found := holds (j + 1) (Nat.succ_lt_succ hj)
  rw [List.getElem?_cons_succ] at found
  rw [← found, Nat.add_assoc, Nat.add_comm 1 j]

theorem filled (holds : PlacesHold n buffer i l) {j : Nat} (hle : i ≤ j) (hlt : j < i + l.length) :
    Filled buffer (j % n) := by
  have inside : j - i < l.length := by omega
  have found := holds (j - i) inside
  rw [Nat.add_sub_cancel' hle, List.getElem?_eq_getElem inside] at found
  exact ⟨_, found⟩

theorem left (holds : PlacesHold n buffer i (l ++ l')) : PlacesHold n buffer i l := by
  intro j hj
  rw [holds j (by simp; omega), List.getElem?_append_left hj]

/-- A slice is written behind a list. -/
theorem copied (holds : PlacesHold n buffer i l) (size : buffer.length = n) (slice : List T)
    (room : l.length + slice.length ≤ n) :
    PlacesHold n (Queue.copied n ((i + l.length) % n) slice buffer) i (l ++ slice) := by
  intro j hj
  rw [List.length_append] at hj
  by_cases hold : j < l.length
  · -- Seen from the end of the list the place is one lap on, behind the slice.
    have hback : (i + j) % n = (i + l.length + (j + n - l.length)) % n := by
      have hsum : i + l.length + (j + n - l.length) = i + j + n := by omega
      rw [hsum, Nat.add_mod_right]
    have hout : ¬ j + n - l.length < slice.length := by omega
    rw [hback, Queue.copied_get size (by omega) (by omega), if_neg hout, ← hback, holds j hold,
      List.getElem?_append_left hold]
  · have hsplit : i + j = i + l.length + (j - l.length) := by omega
    have hin : j - l.length < slice.length := by omega
    rw [hsplit, Queue.copied_get size (by omega) (by omega), if_pos hin,
      List.getElem?_append_right (Nat.not_lt.mp hold)]

end PlacesHold

/-- The copies of a slice that fits, in a call with any errors. -/
theorem copySlice_returns {ε : Type} {n index : Nat} {q : Queue T} {slice : List T}
    (size : q.buffer.length = n) (hindex : index < n) (small : slice.length ≤ n) :
    Queue.copySlice index slice q =
      (Outcome.ok (ε := ε) (), { q with buffer := Queue.copied n index slice q.buffer }) := by
  have known := Queue.Represents.copySlice_eq size hindex small
  obtain ⟨buffer, hcopy | hcopy⟩ := Machine.copySlice_cases index slice q
  · rw [hcopy, Prod.mk.injEq] at known
    rw [hcopy, known.2]
  · rw [hcopy] at known
    cases known

namespace Spans

variable {n h p : Nat} {q : Queue T} {l : List T}

/-- The elements between head and tail are delivered. -/
theorem delivers_holds (spans : Spans n q h p) (length : h + l.length = p)
    (holds : PlacesHold n q.buffer h l) : Delivers q l := by
  induction l generalizing q h with
  | nil =>
      rw [List.length_nil, Nat.add_zero] at length
      subst length
      obtain ⟨e, hpop⟩ := spans.pop_empty
      exact .nothing hpop
  | cons elem l ih =>
      rw [List.length_cons] at length
      have hlt : h < p := by omega
      have hne : ¬ q.tail &&& usizeNot CLOSED_BIT = q.head := by
        rw [spans.tail.count_eq spans.below, spans.head, lapCount_inj spans.pos spans.wide]
        omega
      have hread : Queue.read (q.index q.head) q = (Outcome.ok (ε := PopError) elem, q) := by
        rw [spans.head, spans.index_eq]
        simp only [Queue.read, holds.first]
      have hnext : q.next q.head = lapCount n q.maskBit (h + 1) := by
        rw [spans.head, spans.next_eq (spans.lapCount_below spans.le)]
      have hpop : q.pop = (.ok elem, { q with head := lapCount n q.maskBit (h + 1) }) := by
        simp only [Queue.pop, if_neg hne]
        rw [Exec.bind_ok hread, ← hnext]
        rfl
      exact .next hpop (ih (spans.advance hlt) (by omega) holds.tail)

theorem written (spans : Spans n q h p) {buffer : List (Option T)} (size : buffer.length = n)
    (length : h + l.length = p) (holds : PlacesHold n buffer h l) :
    Spans n { q with buffer := buffer } h p :=
  ⟨⟨size, spans.pos, spans.wide, spans.mask⟩, spans.le, spans.room, spans.head, spans.tail,
    spans.below, fun j hle hlt => holds.filled hle (by omega)⟩

/-- The producer stores the tail behind what it has written. -/
theorem store (spans : Spans n q h p) {e : Nat} (hle : p ≤ e) (room : e ≤ h + n)
    (length : h + l.length = e) (holds : PlacesHold n q.buffer h l)
    (below : lapCount n q.maskBit e < CLOSED_BIT) :
    Spans n { q with tail := lapCount n q.maskBit e } h e :=
  ⟨⟨spans.size, spans.pos, spans.wide, spans.mask⟩, spans.le.trans hle, room, spans.head,
    .inl rfl, below, fun j hj hlt => holds.filled hj (by omega)⟩

/-- What a call that fits the queue does between its loads and its store: it is refused and
nothing has changed, or its elements are behind the others and the tail to store is behind
them. -/
theorem attempt_holds (spans : Spans n q h p) (length : h + l.length = p)
    (holds : PlacesHold n q.buffer h l) {i tail head : Nat} {call : PushCall T}
    (small : call.elements.length ≤ n) (htail : tail = lapCount n q.maskBit p) (hi : i ≤ h)
    (hroom : p ≤ i + n) (hhead : head = lapCount n q.maskBit i) :
    (∃ reply, q.attempt tail head call = (.err reply, q) ∧
      Returned.stored ⟨call, false, reply⟩ = []) ∨
    ∃ buffer, q.attempt tail head call =
        (.ok (lapCount n q.maskBit (p + call.elements.length)), { q with buffer := buffer }) ∧
      buffer.length = n ∧ p + call.elements.length ≤ i + n ∧
      PlacesHold n buffer h (l ++ call.elements) := by
  have hopen : ¬ tail &&& CLOSED_BIT ≠ 0 := by
    rw [htail]
    exact not_not_intro (Queue.and_closedBit spans.below)
  have hlap : wrappingAdd head q.maskBit = lapCount n q.maskBit (i + n) := by
    rw [hhead, spans.wrappingAdd_eq (spans.lapCount_below (hi.trans spans.le))]
  have hindex : q.index tail = p % n := by rw [htail, spans.index_eq]
  have hplace : p % n < n := Nat.mod_lt p spans.pos
  cases call with
  | push elem =>
      simp only [PushCall.elements, List.length_singleton] at small ⊢
      simp only [Queue.attempt, if_neg hopen]
      split
      next => exact .inl ⟨_, rfl, rfl⟩
      next room =>
        rw [hlap, htail, lapCount_inj spans.pos spans.wide] at room
        have written := holds.copied spans.size [elem] (by simp; omega)
        have hsingle : ¬ p % n + 1 > n := by omega
        rw [length, Queue.copied, List.length_singleton, if_neg hsingle] at written
        refine .inr ⟨_, ?_, by rw [Queue.setSlice_length, spans.size], by omega, written⟩
        have hwrite : p % n < q.buffer.length := by rw [spans.size]; exact hplace
        simp only [Bind.bind, Exec.bind, Queue.write, hindex, if_pos hwrite, Pure.pure, Exec.pure]
        rw [htail, ← spans.next_eq spans.below]
        rfl
  | pushSlice slice =>
      simp only [PushCall.elements] at small ⊢
      simp only [Queue.attempt, if_neg hopen]
      split
      next => exact .inl ⟨_, rfl, rfl⟩
      next room =>
        have hend : q.nextTail (lapCount n q.maskBit p) slice.length =
            lapCount n q.maskBit (p + slice.length) := spans.toShape.nextTail_eq spans.below small
        rw [hlap, htail, hend, lapCount_lt_iff spans.pos spans.wide] at room
        have written := holds.copied spans.size slice (by omega)
        rw [length] at written
        refine .inr ⟨_, ?_, by rw [Queue.copied_length, spans.size], by omega, written⟩
        have hcopy : Queue.copySlice (p % n) slice q = (Outcome.ok (ε := QueueReply T) (), _) :=
          copySlice_returns spans.size hplace small
        rw [htail] at hindex
        simp only [Bind.bind, Exec.bind, htail, hend, hindex, hcopy, Pure.pure, Exec.pure]

/-- The consumer takes the first of the elements. -/
theorem take_holds (spans : Spans n q h p) (length : h + l.length = p)
    (holds : PlacesHold n q.buffer h l) {head tail next : Nat} {elem : T} {q' : Queue T}
    (hhead : head = lapCount n q.maskBit h) (hlt : h < p)
    (run : q.take head tail = (.ok (elem, next), q')) : l.head? = some elem := by
  obtain ⟨first, l', rfl⟩ : ∃ first l', l = first :: l' := by
    cases l with
    | nil =>
        rw [List.length_nil] at length
        omega
    | cons first l' => exact ⟨first, l', rfl⟩
  have hread : Queue.read (q.index head) q = (Outcome.ok (ε := PopError) first, q) := by
    rw [hhead, spans.index_eq]
    simp only [Queue.read, holds.first]
  unfold Queue.take at run
  split at run
  next => split at run <;> cases run
  next =>
    rw [Exec.bind_ok hread] at run
    cases run
    rfl

end Spans

/-! ## The invariant -/

namespace Machine

variable {n : Nat} {m m' : Machine T}

/-- The elements of the call of the producer that is about to store its tail. -/
def writing (m : Machine T) : List T :=
  match m.producer with
  | .written call _ _ => call.elements
  | _ => []

/-- What a call of the producer knows, and where its elements end. -/
def ProducerPlaces (n : Nat) (q : Queue T) (h p : Nat) : Producer T → Prop
  | .idle | .called _ | .dropped => True
  | .loadedTail _ tail => tail &&& CLOSED_BIT = 0 → tail = lapCount n q.maskBit p
  | .loadedHead _ tail head =>
      tail &&& CLOSED_BIT = 0 → tail = lapCount n q.maskBit p ∧
        ∃ i ≤ h, p ≤ i + n ∧ head = lapCount n q.maskBit i
  | .written call _ next =>
      p + call.elements.length ≤ h + n ∧ next = lapCount n q.maskBit (p + call.elements.length)

/-- The elements that lie between head and tail, and what the two ends know. -/
structure Ordered (n : Nat) (m : Machine T) (l : List T) (h p : Nat) : Prop where
  spans : Spans n m.queue h p
  length : h + l.length = p
  /-- Behind them are those that are being written. -/
  holds : PlacesHold n m.queue.buffer h (l ++ m.writing)
  small : ∀ call, m.call = some call → call.elements.length ≤ n
  producer : ProducerPlaces n m.queue h p m.producer
  consumer : ConsumerKnows n m.queue h p m.consumer
  takes : ∀ elem next, m.consumer = .taken elem next → l.head? = some elem

/-- What was stored is what was taken before, followed by the elements of the queue. -/
def Fifo (n : Nat) (m : Machine T) (before : List T) : Prop :=
  ∃ l h p, m.Ordered n l h p ∧ m.stored = before ++ l

theorem stored_returns (m : Machine T) (call : PushCall T) (reply : QueueReply T) :
    (m.returns call reply).stored = m.stored ++ Returned.stored ⟨call, m.late, reply⟩ := by
  simp [returns, stored]

theorem stored_done (call : PushCall T) (late : Bool) :
    Returned.stored ⟨call, late, call.done⟩ = call.elements := by
  cases call <;> rfl

theorem fifo_bounded {q : Queue T} (made : Queue.newQueue n = some q) : Fifo n (bounded q) [] := by
  have rep := Queue.represents_newQueue made
  obtain ⟨h, head, tail, _⟩ := rep.places
  have below := rep.below
  rw [tail] at below
  refine ⟨[], h, h, ⟨⟨rep.toShape, Nat.le_refl h, Nat.le_add_right h n, head, .inl tail, below,
    fun j hle hlt => absurd hle (Nat.not_le.mpr hlt)⟩, rfl, ?_, ?_, trivial, trivial, ?_⟩, rfl⟩
  · intro j hj
    exact absurd hj (Nat.not_lt_zero j)
  · intro call hcall
    cases hcall
  · intro elem next htaken
    cases htaken

theorem consumerKnows_longer {q : Queue T} {h p e next : Nat} {consumer : Consumer T} (hle : p ≤ e)
    (knows : ConsumerKnows n q h p consumer) :
    ConsumerKnows n { q with tail := next } h e consumer := by
  cases consumer with
  | loadedTail head tail =>
      obtain ⟨hhead, i, hi, hstart, hcount⟩ := knows
      exact ⟨hhead, i, hi.trans hle, hstart, hcount⟩
  | taken elem next => exact ⟨knows.1.trans_le hle, knows.2⟩
  | loadedHead head => exact knows
  | idle => trivial
  | called => trivial
  | dropped => trivial

/-- A call that is refused stores nothing. -/
theorem Ordered.refused {l : List T} {h p : Nat} (ordered : m.Ordered n l h p) {call : PushCall T}
    {reply : QueueReply T} (none : m.writing = []) : (m.returns call reply).Ordered n l h p := by
  obtain ⟨spans, length, holds, -, -, consumer, takes⟩ := ordered
  rw [none] at holds
  refine ⟨spans, length, holds, ?_, trivial, consumer, takes⟩
  intro call hcall
  cases hcall

theorem Fifo.produce {before : List T} (fifo : Fifo n m before) (below : m.StoresBelow)
    (step : m.produce = some m') : Fifo n m' before := by
  obtain ⟨l, h, p, ordered, stored⟩ := fifo
  cases hp : m.producer with
  | idle => simp [Machine.produce, hp] at step
  | dropped => simp [Machine.produce, hp] at step
  | called call =>
      simp only [Machine.produce, hp, Option.some.injEq] at step
      have small := ordered.small call (by simp [Machine.call, hp])
      obtain ⟨spans, length, holds, -, -, consumer, takes⟩ := ordered
      simp only [writing, hp] at holds
      subst step
      refine ⟨l, h, p, ⟨spans, length, holds, ?_, ?_, consumer, takes⟩, stored⟩
      · intro call' hcall
        cases hcall
        exact small
      · exact (spans.tail.open_iff spans.below).mp
  | loadedTail call tail =>
      simp only [Machine.produce, hp, Option.some.injEq] at step
      have small := ordered.small call (by simp [Machine.call, hp])
      obtain ⟨spans, length, holds, -, producer, consumer, takes⟩ := ordered
      simp only [writing, hp] at holds
      rw [hp] at producer
      subst step
      refine ⟨l, h, p, ⟨spans, length, holds, ?_, ?_, consumer, takes⟩, stored⟩
      · intro call' hcall
        cases hcall
        exact small
      · exact fun isOpen => ⟨producer isOpen, h, Nat.le_refl h, spans.room, spans.head⟩
  | loadedHead call tail head =>
      simp only [Machine.produce, hp, Option.some.injEq] at step
      have small := ordered.small call (by simp [Machine.call, hp])
      have none : m.writing = [] := by simp only [writing, hp]
      by_cases isOpen : tail &&& CLOSED_BIT = 0
      · have producer := ordered.producer
        have holds := ordered.holds
        rw [hp] at producer
        rw [none, List.append_nil] at holds
        obtain ⟨htail, i, hi, hroom, hhead⟩ := producer isOpen
        obtain ⟨reply, hattempt, hnothing⟩ | ⟨buffer, hattempt, size, fits, written⟩ :=
          ordered.spans.attempt_holds ordered.length holds small htail hi hroom hhead
        · rw [hattempt] at step
          subst step
          refine ⟨l, h, p, ordered.refused none, ?_⟩
          rw [stored_returns, ← stored]
          exact List.append_right_eq_self.mpr hnothing
        · rw [hattempt] at step
          subst step
          refine ⟨l, h, p, ⟨?_, ordered.length, written, ?_, ?_, ordered.consumer, ordered.takes⟩,
            stored⟩
          · exact ordered.spans.written size ordered.length written.left
          · intro call' hcall
            cases hcall
            exact small
          · exact ⟨fits.trans (Nat.add_le_add_right hi n), rfl⟩
      · rw [attempt_closed m.queue isOpen] at step
        subst step
        refine ⟨l, h, p, ordered.refused none, ?_⟩
        rw [stored_returns, ← stored]
        refine List.append_right_eq_self.mpr ?_
        cases call <;> rfl
  | written call tail next =>
      simp only [Machine.produce, hp, Option.some.injEq] at step
      simp only [StoresBelow, hp] at below
      obtain ⟨spans, length, holds, -, producer, consumer, takes⟩ := ordered
      rw [hp] at producer
      simp only [writing, hp] at holds
      obtain ⟨room, hnext⟩ := producer
      have longer : h + (l ++ call.elements).length = p + call.elements.length := by
        rw [List.length_append]
        omega
      rw [hnext] at below
      subst step
      rw [hnext]
      refine ⟨l ++ call.elements, h, p + call.elements.length,
        ⟨spans.store (Nat.le_add_right _ _) room longer holds below, longer, ?_, ?_, trivial, ?_,
          ?_⟩,
        ?_⟩
      · rw [writing, returns, List.append_nil]
        exact holds
      · intro call' hcall
        cases hcall
      · exact consumerKnows_longer (Nat.le_add_right _ _) consumer
      · intro elem next' htaken
        rw [List.head?_append, takes elem next' htaken]
        rfl
      · rw [stored_returns, stored_done, ← List.append_assoc, ← stored]
        rfl

theorem Fifo.consume {before : List T} (fifo : Fifo n m before) (step : m.consume = some m') :
    Fifo n m' (before ++ m.taken .consume) := by
  obtain ⟨l, h, p, ordered, stored⟩ := fifo
  obtain ⟨spans, length, holds, small, producer, consumer, takes⟩ := ordered
  cases hc : m.consumer with
  | idle => simp [Machine.consume, hc] at step
  | dropped => simp [Machine.consume, hc] at step
  | called =>
      simp only [Machine.consume, hc, Option.some.injEq] at step
      subst step
      simp only [taken, hc, List.append_nil]
      exact ⟨l, h, p, ⟨spans, length, holds, small, producer, spans.head, by simp⟩, stored⟩
  | loadedHead head =>
      simp only [Machine.consume, hc, Option.some.injEq] at step
      rw [hc] at consumer
      subst step
      simp only [taken, hc, List.append_nil]
      refine ⟨l, h, p, ⟨spans, length, holds, small, producer, ?_, by simp⟩, stored⟩
      exact ⟨consumer, p, Nat.le_refl p, spans.le, spans.tail.count_eq spans.below⟩
  | loadedTail head tail =>
      simp only [Machine.consume, hc, Option.some.injEq] at step
      rw [hc] at consumer
      obtain ⟨hhead, i, hi, hle, htail⟩ := consumer
      simp only [taken, hc, List.append_nil]
      have frame := take_queue m.queue head tail
      cases htake : m.queue.take head tail with
      | mk o q =>
          rw [htake] at step frame
          dsimp only at frame
          subst frame
          cases o with
          | ok found =>
              subst step
              have knows := spans.take hhead hi hle htail htake
              refine ⟨l, h, p, ⟨spans, length, holds, small, producer, knows, ?_⟩, stored⟩
              intro elem next htaken
              cases htaken
              exact spans.take_holds length holds.left hhead knows.1 htake
          | err e =>
              subst step
              exact ⟨l, h, p, ⟨spans, length, holds, small, producer, trivial, by simp⟩, stored⟩
          | panic =>
              subst step
              exact ⟨l, h, p, ⟨spans, length, holds, small, producer, trivial, by simp⟩, stored⟩
  | taken elem next =>
      simp only [Machine.consume, hc, Option.some.injEq] at step
      rw [hc] at consumer
      obtain ⟨hlt, rfl⟩ := consumer
      obtain ⟨l', rfl⟩ : ∃ l', l = elem :: l' := List.head?_eq_some_iff.mp (takes elem _ hc)
      subst step
      simp only [taken, hc]
      rw [List.length_cons] at length
      refine ⟨l', h + 1, p,
        ⟨spans.advance hlt, by omega, holds.tail, small, ?_, trivial, by simp⟩, ?_⟩
      · cases hp : m.producer with
        | loadedHead call tail head =>
            rw [hp] at producer
            intro isOpen
            obtain ⟨htail, i, hi, hroom, hhead⟩ := producer isOpen
            exact ⟨htail, i, Nat.le_succ_of_le hi, hroom, hhead⟩
        | written call tail next =>
            rw [hp] at producer
            exact ⟨producer.1.trans (by omega), producer.2⟩
        | loadedTail call tail => rw [hp] at producer; exact producer
        | idle => trivial
        | called call => trivial
        | dropped => trivial
      · rw [List.append_assoc]
        exact stored

theorem Fifo.step {before : List T} (fifo : Fifo n m before) (below : m.StoresBelow) {turn : Turn T}
    (small : turn.Small n) (step : m.step turn = some m') : Fifo n m' (before ++ m.taken turn) := by
  cases turn with
  | consume => exact fifo.consume step
  | produce =>
      have next := fifo.produce below step
      simpa [taken] using next
  | push call =>
      obtain ⟨l, h, p, ordered, stored⟩ := fifo
      simp only [Machine.step] at step
      split at step
      next idle =>
        cases step
        obtain ⟨spans, length, holds, -, -, consumer, takes⟩ := ordered
        simp only [writing, idle] at holds
        simp only [taken, List.append_nil]
        refine ⟨l, h, p, ⟨spans, length, holds, ?_, trivial, consumer, takes⟩, stored⟩
        intro call' hcall
        cases hcall
        exact small
      next => cases step
  | pop =>
      obtain ⟨l, h, p, ordered, stored⟩ := fifo
      simp only [Machine.step] at step
      split at step
      next =>
        cases step
        obtain ⟨spans, length, holds, small, producer, -, -⟩ := ordered
        simp only [taken, List.append_nil]
        exact ⟨l, h, p, ⟨spans, length, holds, small, producer, trivial, by simp⟩, stored⟩
      next => cases step
  | dropProducer =>
      obtain ⟨l, h, p, ordered, stored⟩ := fifo
      simp only [Machine.step] at step
      split at step
      next idle =>
        cases step
        obtain ⟨spans, length, holds, -, -, consumer, takes⟩ := ordered
        simp only [writing, idle] at holds
        simp only [taken, List.append_nil]
        exact ⟨l, h, p, ⟨spans.setClosed, length, holds, by simp [Machine.call], trivial, consumer,
          takes⟩, stored⟩
      next => cases step
  | dropConsumer =>
      obtain ⟨l, h, p, ordered, stored⟩ := fifo
      simp only [Machine.step] at step
      split at step
      next =>
        cases step
        obtain ⟨spans, length, holds, small, producer, -, -⟩ := ordered
        simp only [taken, List.append_nil]
        exact ⟨l, h, p, ⟨spans.setClosed, length, holds, small, producer, trivial, by simp⟩, stored⟩
      next => cases step

theorem Fifo.run {before : List T} {turns : List (Turn T)} (fifo : Fifo n m before)
    (below : m.AlwaysBelow turns) (small : ∀ turn ∈ turns, turn.Small n)
    (run : m.run turns = some m') : Fifo n m' (before ++ m.popped turns) := by
  induction turns generalizing m before with
  | nil =>
      cases run
      rw [popped, List.append_nil]
      exact fifo
  | cons turn turns ih =>
      obtain ⟨m₁, hstep, hrun⟩ := Option.bind_eq_some_iff.mp run
      have next := fifo.step below.1 (small turn List.mem_cons_self) hstep
      have rest := ih next (below.2 m₁ hstep)
        (fun turn mem => small turn (List.mem_cons_of_mem _ mem)) hrun
      rw [popped, hstep, Option.elim_some, ← List.append_assoc]
      exact rest

/-- In every interleaving the consumer takes what the producer has stored, in that order, and
what it has not taken yet is still delivered. -/
theorem stored_eq_popped {q : Queue T} (made : Queue.newQueue n = some q) {turns : List (Turn T)}
    (small : ∀ turn ∈ turns, turn.Small n) (below : (bounded q).AlwaysBelow turns)
    (run : (bounded q).run turns = some m) :
    ∃ l, Delivers m.queue l ∧ m.stored = (bounded q).popped turns ++ l := by
  obtain ⟨l, h, p, ordered, stored⟩ := (fifo_bounded made).run below small run
  exact ⟨l, ordered.spans.delivers_holds ordered.length ordered.holds.left, stored⟩

/-- Behind an element that was taken a slice of two goes around the end of the buffer, while a `pop`
that started before the slice was stored takes its first element. -/
def crossing : List (Turn Nat) :=
  [.push (.push 6), .produce, .produce, .produce, .produce, .pop, .consume, .consume, .consume,
    .consume, .push (.pushSlice [7, 8]), .pop, .produce, .produce, .consume, .produce, .produce,
    .consume, .consume, .consume]

theorem stored_eq_popped_crossing : ∃ m l, (bounded twoPlaces).run crossing = some m ∧
    Delivers m.queue l ∧ m.stored = [6, 7] ++ l := by
  have one : 1 < CLOSED_BIT := by decide
  have five : 5 < CLOSED_BIT := by decide
  have below : (bounded twoPlaces).AlwaysBelow crossing :=
    .cons rfl trivial (.cons rfl trivial (.cons rfl trivial (.cons rfl trivial (.cons rfl one
      (.cons rfl trivial (.cons rfl trivial (.cons rfl trivial (.cons rfl trivial
      (.cons rfl trivial (.cons rfl trivial (.cons rfl trivial (.cons rfl trivial
      (.cons rfl trivial (.cons rfl trivial (.cons rfl trivial (.cons rfl five
      (.cons rfl trivial (.cons rfl trivial (.cons rfl trivial trivial)))))))))))))))))))
  have small : ∀ turn ∈ crossing, turn.Small 2 := by simp [crossing, Turn.Small, PushCall.elements]
  obtain ⟨l, delivers, stored⟩ := stored_eq_popped newQueue_two small below rfl
  exact ⟨_, l, rfl, delivers, stored⟩

end Machine

end NodeFuzzer
