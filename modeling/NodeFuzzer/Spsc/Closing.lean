import NodeFuzzer.Spsc.Queue

/-!
# Closing a queue

The two ends of a queue run in different threads.  Here the calls of the producer and of
the consumer are cut into their atomic steps: the loads, the write or read of the buffer
and the store.  A turn lets one end do its next step.

`set_closed` is one step, but a push that has loaded the tail before it and stores after
it writes a tail without the closed bit.  Closing is final in every run in which a store
finds the tail that its call has loaded.
-/

namespace NodeFuzzer

variable {T : Type}

/-! ## The two ends -/

/-- A call of the producer that changes the tail. -/
inductive PushCall (T : Type) where
  | push (elem : T)
  | pushSlice (slice : List T)
deriving DecidableEq

/-- The answer of a closed queue. -/
def PushCall.closed : PushCall T → QueueReply T
  | .push elem => .push (.error (.closed elem))
  | .pushSlice _ => .pushSlice (.error (.closed ()))

/-- The answer when the tail was stored. -/
def PushCall.done : PushCall T → QueueReply T
  | .push _ => .push (.ok ())
  | .pushSlice _ => .pushSlice (.ok ())

/-- The same call on the whole queue. -/
def PushCall.toOp : PushCall T → QueueOp T
  | .push elem => .push elem
  | .pushSlice slice => .pushSlice slice

/-- Where the producer stands. -/
inductive Producer (T : Type) where
  | idle
  | called (call : PushCall T)
  | loadedTail (call : PushCall T) (tail : Nat)
  | loadedHead (call : PushCall T) (tail head : Nat)
  | written (call : PushCall T) (tail next : Nat)
  | dropped
deriving DecidableEq

/-- Where the consumer stands. -/
inductive Consumer (T : Type) where
  | idle
  | called
  | loadedHead (head : Nat)
  | loadedTail (head tail : Nat)
  | taken (elem : T) (next : Nat)
  | dropped
deriving DecidableEq

/-- What `push` and `push_slice` do between their loads and their store: the tail to store,
or the answer of a call that stores nothing. -/
def Queue.attempt (tail head : Nat) : PushCall T → Exec (Queue T) (QueueReply T) Nat
  | .push elem => fun q =>
      if tail &&& CLOSED_BIT ≠ 0 then (.err (.push (.error (.closed elem))), q)
      else if wrappingAdd head q.maskBit = tail then (.err (.push (.error (.full elem))), q)
      else (do
        write (q.index tail) elem
        pure (q.next tail)) q
  | .pushSlice slice => fun q =>
      if tail &&& CLOSED_BIT ≠ 0 then (.err (.pushSlice (.error (.closed ()))), q)
      else
        let nextTail := q.nextTail tail slice.length
        if wrappingAdd head q.maskBit < nextTail then (.err (.pushSlice (.error (.full ()))), q)
        else (do
          copySlice (q.index tail) slice
          pure nextTail) q

/-- What `pop` does between its loads and its store: the element and the head to store, or
the error. -/
def Queue.take (head tail : Nat) : Exec (Queue T) PopError (T × Nat) := fun q =>
  if tail &&& usizeNot CLOSED_BIT = head then
    if tail &&& CLOSED_BIT ≠ 0 then (.err .closed, q) else (.err .empty, q)
  else (do
    let data ← read (q.index head)
    pure (data, q.next head)) q

/-- A call of the producer that has returned. -/
structure Returned (T : Type) where
  call : PushCall T
  /-- It was made after `set_closed` was done. -/
  late : Bool
  reply : QueueReply T

/-- A queue and its two ends. -/
structure Machine (T : Type) where
  queue : Queue T
  producer : Producer T
  consumer : Consumer T
  /-- `set_closed` is done. -/
  closed : Bool
  /-- The call of the producer was made after that. -/
  late : Bool
  log : List (Returned T)

namespace Machine

/-- `bounded`. -/
def bounded (queue : Queue T) : Machine T := ⟨queue, .idle, .idle, false, false, []⟩

/-- The producer returns from its call. -/
def returns (m : Machine T) (call : PushCall T) (reply : QueueReply T) : Machine T :=
  { m with producer := .idle, log := ⟨call, m.late, reply⟩ :: m.log }

/-- The next step of a call of the producer; `none` when there is no call. -/
def produce (m : Machine T) : Option (Machine T) :=
  match m.producer with
  | .idle | .dropped => none
  | .called call => some { m with producer := .loadedTail call m.queue.tail }
  | .loadedTail call tail => some { m with producer := .loadedHead call tail m.queue.head }
  | .loadedHead call tail head =>
      some <| match m.queue.attempt tail head call with
      | (.ok next, q) => { m with queue := q, producer := .written call tail next }
      | (.err reply, q) => { m with queue := q }.returns call reply
      | (.panic, q) => { m with queue := q }.returns call .panic
  | .written call _ next =>
      some ({ m with queue := { m.queue with tail := next } }.returns call call.done)

/-- The next step of a `pop`; `none` when there is no call. -/
def consume (m : Machine T) : Option (Machine T) :=
  match m.consumer with
  | .idle | .dropped => none
  | .called => some { m with consumer := .loadedHead m.queue.head }
  | .loadedHead head => some { m with consumer := .loadedTail head m.queue.tail }
  | .loadedTail head tail =>
      some <| match m.queue.take head tail with
      | (.ok (elem, next), q) => { m with queue := q, consumer := .taken elem next }
      | (_, q) => { m with queue := q, consumer := .idle }
  | .taken _ next =>
      some { m with queue := { m.queue with head := next }, consumer := .idle }

/-- `set_closed`, one read-modify-write of the tail. -/
def close (m : Machine T) : Machine T := { m with queue := m.queue.setClosed, closed := true }

end Machine

/-- Who is next, and what a thread that is between two calls does. -/
inductive Turn (T : Type) where
  | push (call : PushCall T)
  | produce
  | pop
  | consume
  | dropProducer
  | dropConsumer

namespace Machine

/-- One atomic step; `none` when that end cannot do it. -/
def step (m : Machine T) : Turn T → Option (Machine T)
  | .push call =>
      match m.producer with
      | .idle => some { m with producer := .called call, late := m.closed }
      | _ => none
  | .produce => m.produce
  | .pop =>
      match m.consumer with
      | .idle => some { m with consumer := .called }
      | _ => none
  | .consume => m.consume
  | .dropProducer =>
      match m.producer with
      | .idle => some { m.close with producer := .dropped }
      | _ => none
  | .dropConsumer =>
      match m.consumer with
      | .idle => some { m.close with consumer := .dropped }
      | _ => none

/-- The steps of an interleaving. -/
def run (m : Machine T) : List (Turn T) → Option (Machine T)
  | [] => some m
  | turn :: turns => (m.step turn).bind fun m => m.run turns

/-! ## A call alone -/

/-- A copy changes the buffer and nothing else, and returns no error. -/
theorem copyFromSlice_cases (index : Nat) (slice : List T) (q : Queue T) :
    (∃ buffer, ∀ ε : Type, Queue.copyFromSlice index slice q =
      (Outcome.ok (ε := ε) (), { q with buffer := buffer })) ∨
    ∀ ε : Type, Queue.copyFromSlice index slice q = (Outcome.panic (ε := ε), q) := by
  by_cases h : index + slice.length ≤ q.buffer.length
  · exact .inl ⟨Queue.setSlice q.buffer index slice, fun ε => by simp [Queue.copyFromSlice, h]⟩
  · exact .inr fun ε => by simp [Queue.copyFromSlice, h]

theorem copySlice_cases (index : Nat) (slice : List T) (q : Queue T) :
    ∃ buffer, (∀ ε : Type, Queue.copySlice index slice q =
      (Outcome.ok (ε := ε) (), { q with buffer := buffer })) ∨
    ∀ ε : Type, Queue.copySlice index slice q =
      (Outcome.panic (ε := ε), { q with buffer := buffer }) := by
  unfold Queue.copySlice
  split
  next =>
    obtain ⟨first, hfirst⟩ | hfirst :=
      copyFromSlice_cases index (slice.take (q.buffer.length - index)) q
    · obtain ⟨second, hsecond⟩ | hsecond := copyFromSlice_cases 0
        (slice.drop (q.buffer.length - index)) { q with buffer := first }
      · exact ⟨second, .inl fun ε => by simp [Bind.bind, Exec.bind, hfirst, hsecond]⟩
      · exact ⟨first, .inr fun ε => by simp [Bind.bind, Exec.bind, hfirst, hsecond]⟩
    · exact ⟨q.buffer, .inr fun ε => by simp [Bind.bind, Exec.bind, hfirst]⟩
  next =>
    obtain ⟨buffer, hcopy⟩ | hcopy := copyFromSlice_cases index slice q
    · exact ⟨buffer, .inl hcopy⟩
    · exact ⟨q.buffer, .inr hcopy⟩

/-- A call on the whole queue is its attempt and the store. -/
theorem perform_eq (q : Queue T) (call : PushCall T) : q.perform call.toOp =
    match q.attempt q.tail q.head call with
    | (.ok next, q') => (call.done, { q' with tail := next })
    | (.err reply, q') => (reply, q')
    | (.panic, q') => (.panic, q') := by
  cases call with
  | push elem =>
      simp only [PushCall.toOp, Queue.perform, Queue.push, Queue.attempt]
      split
      · rfl
      split
      · rfl
      by_cases h : q.index q.tail < q.buffer.length
      · simp [Bind.bind, Exec.bind, Queue.write, h, Exec.modify, Pure.pure, Exec.pure,
          QueueReply.of, PushCall.done, Queue.next, Queue.nextLap]
        rfl
      · simp [Bind.bind, Exec.bind, Queue.write, h, QueueReply.of]
  | pushSlice slice =>
      simp only [PushCall.toOp, Queue.perform, Queue.pushSlice, Queue.attempt]
      split
      · rfl
      split
      · rfl
      obtain ⟨buffer, hcopy | hcopy⟩ := copySlice_cases (q.index q.tail) slice q
      · simp [Bind.bind, Exec.bind, hcopy, Exec.modify, Pure.pure, Exec.pure, QueueReply.of,
          PushCall.done]
      · simp [Bind.bind, Exec.bind, hcopy, QueueReply.of]

/-- The steps of a call with no step of the consumer between them do what the call does on
the whole queue. -/
theorem run_alone {m : Machine T} (idle : m.producer = .idle) (call : PushCall T) :
    ∃ k, m.run (.push call :: List.replicate k .produce) = some
      { m with
        queue := (m.queue.perform call.toOp).2, late := m.closed,
        log := ⟨call, m.closed, (m.queue.perform call.toOp).1⟩ :: m.log } := by
  rw [perform_eq]
  cases h : m.queue.attempt m.queue.tail m.queue.head call with
  | mk outcome q =>
      cases outcome with
      | ok next => exact ⟨4, by simp [run, step, produce, returns, idle, h]⟩
      | err reply => exact ⟨3, by simp [run, step, produce, returns, idle, h]⟩
      | panic => exact ⟨3, by simp [run, step, produce, returns, idle, h]⟩

/-! ## Closing is final -/

/-- The call of the producer that has not returned. -/
def call (m : Machine T) : Option (PushCall T) :=
  match m.producer with
  | .idle | .dropped => none
  | .called call | .loadedTail call _ | .loadedHead call _ _ | .written call _ _ => some call

/-- What is promised of a closed queue: the closed bit is set, and a call made after it was
closed returns `Closed`. -/
structure Final (m : Machine T) : Prop where
  marked : m.closed = true → m.queue.tail &&& CLOSED_BIT ≠ 0
  refused : ∀ r ∈ m.log, r.late = true → r.reply = r.call.closed
  returns : ∀ call, m.call = some call → m.late = true → ∃ k m',
    m.run (List.replicate k .produce) = some m' ∧ m'.producer = .idle ∧
      m'.log = ⟨call, true, call.closed⟩ :: m.log

/-- A step that stores a tail finds the tail its call has loaded. -/
def Unmoved (m : Machine T) : Turn T → Prop
  | .produce =>
      match m.producer with
      | .written _ tail _ => m.queue.tail = tail
      | _ => True
  | _ => True

/-- Every store of a run finds the tail its call has loaded. -/
def StoresLoaded : Machine T → List (Turn T) → Prop
  | _, [] => True
  | m, turn :: turns => m.Unmoved turn ∧ ∀ m', m.step turn = some m' → StoresLoaded m' turns

theorem attempt_tail (q : Queue T) (tail head : Nat) (call : PushCall T) :
    (q.attempt tail head call).2.tail = q.tail := by
  cases call with
  | push elem =>
      simp only [Queue.attempt]
      split
      · rfl
      split
      · rfl
      by_cases h : q.index tail < q.buffer.length
      · simp [Bind.bind, Exec.bind, Queue.write, h, Pure.pure, Exec.pure]
      · simp [Bind.bind, Exec.bind, Queue.write, h]
  | pushSlice slice =>
      simp only [Queue.attempt]
      split
      · rfl
      split
      · rfl
      obtain ⟨buffer, hcopy | hcopy⟩ := copySlice_cases (q.index tail) slice q
      · simp [Bind.bind, Exec.bind, hcopy, Pure.pure, Exec.pure]
      · simp [Bind.bind, Exec.bind, hcopy]

theorem attempt_closed (q : Queue T) {tail : Nat} (marked : tail &&& CLOSED_BIT ≠ 0) (head : Nat)
    (call : PushCall T) : q.attempt tail head call = (.err call.closed, q) := by
  cases call <;> simp [Queue.attempt, PushCall.closed, marked]

theorem take_queue (q : Queue T) (head tail : Nat) : (q.take head tail).2 = q := by
  unfold Queue.take
  split
  · split <;> rfl
  · simp only [Bind.bind, Exec.bind, Queue.read]
    split <;> rename_i h <;> split at h <;> cases h <;> rfl

theorem setClosed_marked (q : Queue T) : q.setClosed.tail &&& CLOSED_BIT ≠ 0 := by
  have bit : (q.tail ||| CLOSED_BIT).testBit 63 = true := by
    rw [Nat.testBit_or, CLOSED_BIT, Nat.testBit_two_pow_self, Bool.or_true]
  intro h
  have zero := Nat.and_two_pow (q.tail ||| CLOSED_BIT) 63
  rw [bit] at zero
  simp only [Queue.setClosed, CLOSED_BIT] at h zero
  rw [h] at zero
  cases zero

/-- What the calls know of the tail they have loaded. -/
def Aware (m : Machine T) : Prop :=
  match m.producer with
  | .idle | .dropped | .called _ => True
  | .loadedTail _ tail | .loadedHead _ tail _ => m.late = true → tail &&& CLOSED_BIT ≠ 0
  | .written _ tail _ => tail &&& CLOSED_BIT = 0 ∧ m.late = false

/-- The invariant of the runs in which every store finds the tail its call has loaded. -/
structure Guarded (m : Machine T) : Prop where
  marked : m.closed = true → m.queue.tail &&& CLOSED_BIT ≠ 0
  refused : ∀ r ∈ m.log, r.late = true → r.reply = r.call.closed
  after : m.late = true → m.closed = true
  aware : m.Aware

theorem guarded_bounded (q : Queue T) : Guarded (bounded q) :=
  ⟨nofun, nofun, nofun, trivial⟩

variable {m m' : Machine T}

theorem Guarded.returns (guarded : Guarded m) {call : PushCall T} {reply : QueueReply T}
    (closed : m.late = true → reply = call.closed) : Guarded (m.returns call reply) := by
  refine ⟨guarded.marked, ?_, guarded.after, trivial⟩
  intro r hr hlate
  simp only [Machine.returns, List.mem_cons] at hr
  obtain rfl | hr := hr
  · exact closed hlate
  · exact guarded.refused r hr hlate

/-- A step of a call keeps the invariant when its store finds the tail it has loaded. -/
theorem Guarded.produce (guarded : Guarded m) (unmoved : m.Unmoved .produce) (h : m.produce = some m') :
    Guarded m' := by
  obtain ⟨marked, refused, after, aware⟩ := guarded
  cases hp : m.producer with
  | idle => simp [Machine.produce, hp] at h
  | dropped => simp [Machine.produce, hp] at h
  | called call =>
      simp only [Machine.produce, hp, Option.some.injEq] at h
      subst h
      exact ⟨marked, refused, after, fun late => marked (after late)⟩
  | loadedTail call tail =>
      simp only [Machine.produce, hp, Option.some.injEq] at h
      simp only [Aware, hp] at aware
      subst h
      exact ⟨marked, refused, after, aware⟩
  | loadedHead call tail head =>
      simp only [Machine.produce, hp, Option.some.injEq] at h
      simp only [Aware, hp] at aware
      subst h
      by_cases bit : tail &&& CLOSED_BIT = 0
      · -- The call was made before the queue was closed, so any answer will do.
        have early : m.late = false := by
          cases hlate : m.late with
          | false => rfl
          | true => exact absurd bit (aware hlate)
        have frame := attempt_tail m.queue tail head call
        cases hattempt : m.queue.attempt tail head call with
        | mk outcome q =>
            rw [hattempt] at frame
            have still : Guarded { m with queue := q, producer := .idle } :=
              ⟨fun hc => by rw [frame]; exact marked hc, refused, after, trivial⟩
            cases outcome with
            | ok next => exact ⟨still.marked, refused, after, bit, early⟩
            | err reply => exact still.returns fun late => by simp [early] at late
            | panic => exact still.returns fun late => by simp [early] at late
      · rw [attempt_closed m.queue bit]
        exact Guarded.returns (m := { m with producer := .idle })
          ⟨marked, refused, after, trivial⟩ fun _ => rfl
  | written call tail next =>
      simp only [Machine.produce, hp, Option.some.injEq] at h
      simp only [Aware, hp] at aware
      subst h
      -- The tail was open when it was loaded and is the same now.
      have hopen : m.queue.tail &&& CLOSED_BIT = 0 := by
        simp only [Unmoved, hp] at unmoved
        rw [unmoved]
        exact aware.1
      have early : m.closed = true → False := fun hc => marked hc hopen
      exact Guarded.returns (m := { m with queue := { m.queue with tail := next }, producer := .idle })
        ⟨fun hc => (early hc).elim, refused, after, trivial⟩ fun late => by simp [aware.2] at late

theorem Guarded.consume (guarded : Guarded m) (h : m.consume = some m') : Guarded m' := by
  obtain ⟨marked, refused, after, aware⟩ := guarded
  cases hc : m.consumer with
  | idle => simp [Machine.consume, hc] at h
  | dropped => simp [Machine.consume, hc] at h
  | called =>
      simp only [Machine.consume, hc, Option.some.injEq] at h
      subst h
      exact ⟨marked, refused, after, aware⟩
  | loadedHead head =>
      simp only [Machine.consume, hc, Option.some.injEq] at h
      subst h
      exact ⟨marked, refused, after, aware⟩
  | loadedTail head tail =>
      simp only [Machine.consume, hc, Option.some.injEq] at h
      have frame := take_queue m.queue head tail
      cases htake : m.queue.take head tail with
      | mk outcome q =>
          rw [htake] at h frame
          dsimp only at frame
          subst frame
          cases outcome with
          | ok taken =>
              subst h
              exact ⟨marked, refused, after, aware⟩
          | err e =>
              subst h
              exact ⟨marked, refused, after, aware⟩
          | panic =>
              subst h
              exact ⟨marked, refused, after, aware⟩
  | taken elem next =>
      simp only [Machine.consume, hc, Option.some.injEq] at h
      subst h
      exact ⟨marked, refused, after, aware⟩

theorem Guarded.close (guarded : Guarded m) : Guarded m.close :=
  ⟨fun _ => setClosed_marked m.queue, guarded.refused, fun _ => rfl, guarded.aware⟩

theorem Guarded.step (guarded : Guarded m) {turn : Turn T} (unmoved : m.Unmoved turn)
    (h : m.step turn = some m') : Guarded m' := by
  cases turn with
  | push call =>
      simp only [Machine.step] at h
      split at h
      next =>
        cases h
        exact ⟨guarded.marked, guarded.refused, id, trivial⟩
      next => cases h
  | produce => exact guarded.produce unmoved h
  | pop =>
      simp only [Machine.step] at h
      split at h
      next =>
        cases h
        exact ⟨guarded.marked, guarded.refused, guarded.after, guarded.aware⟩
      next => cases h
  | consume => exact guarded.consume h
  | dropProducer =>
      simp only [Machine.step] at h
      split at h
      next =>
        cases h
        exact ⟨guarded.close.marked, guarded.refused, fun _ => rfl, trivial⟩
      next => cases h
  | dropConsumer =>
      simp only [Machine.step] at h
      split at h
      next =>
        cases h
        exact ⟨guarded.close.marked, guarded.refused, fun _ => rfl, guarded.aware⟩
      next => cases h

theorem Guarded.run (guarded : Guarded m) {turns : List (Turn T)} (loaded : m.StoresLoaded turns)
    (h : m.run turns = some m') : Guarded m' := by
  induction turns generalizing m with
  | nil =>
      cases h
      exact guarded
  | cons turn turns ih =>
      obtain ⟨m₁, hstep, hrun⟩ := Option.bind_eq_some_iff.mp h
      exact ih (guarded.step loaded.1 hstep) (loaded.2 m₁ hstep) hrun

/-- A call made after the queue was closed returns `Closed` at the latest three steps
later. -/
theorem Guarded.final (guarded : Guarded m) : Final m := by
  refine ⟨guarded.marked, guarded.refused, ?_⟩
  intro call hcall late
  have aware := guarded.aware
  cases hp : m.producer with
  | idle => simp [Machine.call, hp] at hcall
  | dropped => simp [Machine.call, hp] at hcall
  | called call' =>
      have bit := guarded.marked (guarded.after late)
      simp only [Machine.call, hp, Option.some.injEq] at hcall
      subst hcall
      refine ⟨3, m.returns call' call'.closed, ?_, rfl, by simp [Machine.returns, late]⟩
      simp [Machine.run, Machine.step, Machine.produce, Machine.returns, hp, attempt_closed _ bit]
  | loadedTail call' tail =>
      simp only [Aware, hp] at aware
      simp only [Machine.call, hp, Option.some.injEq] at hcall
      subst hcall
      refine ⟨2, m.returns call' call'.closed, ?_, rfl, by simp [Machine.returns, late]⟩
      simp [Machine.run, Machine.step, Machine.produce, Machine.returns, hp,
        attempt_closed _ (aware late)]
  | loadedHead call' tail head =>
      simp only [Aware, hp] at aware
      simp only [Machine.call, hp, Option.some.injEq] at hcall
      subst hcall
      refine ⟨1, m.returns call' call'.closed, ?_, rfl, by simp [Machine.returns, late]⟩
      simp [Machine.run, Machine.step, Machine.produce, Machine.returns, hp,
        attempt_closed _ (aware late)]
  | written call' tail next =>
      simp only [Aware, hp, late] at aware
      cases aware.2

/-- Closing is final in every run in which each store finds the tail its call has loaded. -/
theorem closing_final (q : Queue T) {turns : List (Turn T)} (loaded : (bounded q).StoresLoaded turns)
    (h : (bounded q).run turns = some m) : Final m :=
  ((guarded_bounded q).run loaded h).final

/-- A queue of two places. -/
def twoPlaces : Queue Nat := ⟨0, 0, [none, none], 4⟩

theorem newQueue_two : Queue.newQueue 2 = some twoPlaces := by decide

/-- The consumer is dropped between two calls. -/
def dropBetween : List (Turn Nat) :=
  [.push (.push 1), .produce, .produce, .produce, .produce, .dropConsumer,
    .push (.push 2), .produce, .produce, .produce]

/-- The second call is refused. -/
def refusedSecond : Machine Nat :=
  ⟨⟨0, 1 ||| CLOSED_BIT, [some 1, none], 4⟩, .idle, .dropped, true, true,
    [⟨.push 2, true, .push (.error (.closed 2))⟩, ⟨.push 1, false, .push (.ok ())⟩]⟩

theorem StoresLoaded.cons {turn : Turn T} {turns : List (Turn T)} (h : m.step turn = some m')
    (unmoved : m.Unmoved turn) (loaded : m'.StoresLoaded turns) : m.StoresLoaded (turn :: turns) := by
  refine ⟨unmoved, fun m₁ h₁ => ?_⟩
  rw [h] at h₁
  cases h₁
  exact loaded

theorem closing_final_between :
    (bounded twoPlaces).run dropBetween = some refusedSecond ∧ Final refusedSecond := by
  have loaded : (bounded twoPlaces).StoresLoaded dropBetween :=
    .cons rfl trivial (.cons rfl trivial (.cons rfl trivial (.cons rfl trivial (.cons rfl rfl
      (.cons rfl trivial (.cons rfl trivial (.cons rfl trivial (.cons rfl trivial
        (.cons rfl trivial trivial)))))))))
  exact ⟨rfl, closing_final twoPlaces loaded rfl⟩

/-- The consumer is dropped between the load and the store of a push.  The closed bit is
gone after the store and the next push is accepted. -/
theorem closing_lost :
    (bounded twoPlaces).run [.push (.push 1), .produce, .produce, .produce, .dropConsumer,
        .produce, .push (.push 2), .produce, .produce, .produce, .produce] =
      some ⟨⟨0, 4, [some 1, some 2], 4⟩, .idle, .dropped, true, true,
        [⟨.push 2, true, .push (.ok ())⟩, ⟨.push 1, false, .push (.ok ())⟩]⟩ ∧
    ¬ Final (⟨⟨0, 4, [some 1, some 2], 4⟩, .idle, .dropped, true, true,
        [⟨.push 2, true, .push (.ok ())⟩, ⟨.push 1, false, .push (.ok ())⟩]⟩ : Machine Nat) := by
  refine ⟨rfl, ?_⟩
  intro final
  exact final.marked rfl (by decide)

end Machine

end NodeFuzzer
