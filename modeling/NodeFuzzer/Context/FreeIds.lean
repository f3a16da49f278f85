import NodeFuzzer.Context.Gc
import NodeFuzzer.Spsc.Closing
import Mathlib.Data.Multiset.AddSub

/-!
# Free ids are conserved

The thread splits the ids of the oldest slot by a figure of free space that is out of date
when it is used, keeps what is left, and keeps everything when the queue takes nothing.
Whatever the capacity of the queue, whenever ids are taken from it and even when its
consumer is gone, each id that came out of a slot is in exactly one place: taken, in the
queue, pending, or in the hands of the thread that is about to send it.
-/

namespace NodeFuzzer

/-! ## The queue -/

namespace Queue

variable {n : Nat} {q : Queue HashId} {l slice : List HashId}

/-- The room in the ring is that in the list. -/
theorem Represents.available_freeQueue (rep : Represents n q l) :
    q.available = FreeQueue.available ⟨n, l, false⟩ := rep.available_eq

/-- A slice goes into the ring when it goes into the list. -/
theorem Represents.pushSlice_freeQueue (rep : Represents n q l) (small : slice.length ≤ n)
    (below : (pushSlice slice q).2.tail < CLOSED_BIT) :
    match FreeQueue.pushSlice ⟨n, l, false⟩ slice with
    | none => pushSlice slice q = (.err (.full ()), q)
    | some queue => (pushSlice slice q).1 = .ok () ∧
        Represents n (pushSlice slice q).2 queue.ids := by
  by_cases full : n < l.length + slice.length
  · rw [FreeQueue.pushSlice, if_pos (Or.inr full)]
    exact rep.pushSlice_full small full
  · rw [FreeQueue.pushSlice, if_neg (by simpa using Nat.not_lt.mp full)]
    exact rep.pushSlice_ok small full below

/-- No slice goes into a closed ring, and none into a closed list. -/
theorem pushSlice_freeQueue_closed (q : Queue HashId) (n : Nat) (l slice : List HashId) :
    FreeQueue.pushSlice ⟨n, l, true⟩ slice = none ∧
      pushSlice slice q.setClosed = (.err (.closed ()), q.setClosed) := by
  constructor
  · rw [FreeQueue.pushSlice, if_pos (Or.inl rfl)]
  · simp only [pushSlice, if_pos (Machine.setClosed_marked q)]

end Queue

/-! ## Turns -/

/-- The thread, its channel and its queue, with the ids that were taken from the queue and
those that `roll` returned. -/
structure Collector where
  gc : GCThread
  channel : List Command
  queue : FreeQueue
  dropped : Bool
  popped : List HashId
  rolled : List HashId

/-- What happens next.  The bit that the dropped consumer sets is lost when it falls between
the load and the store of a push. -/
inductive CollectorTurn where
  | command (command : Command)
  | thread
  | pop
  | drop (noticed : Bool)

namespace Collector

/-- The thread as it is spawned. -/
def new (capacity : Nat) : Collector := ⟨.new, [], ⟨capacity, [], false⟩, false, [], []⟩

/-- The ids that `roll` returns in the next step. -/
def rolls (c : Collector) : List HashId :=
  match c.gc.state, c.channel with
  | .receiving, .startNewCycle values newIds :: _ =>
      (GCThread.startNewCycle c.gc.cycles values newIds).1
  | _, _ => []

/-- One step of the thread. -/
def thread (c : Collector) : Collector :=
  { c with
    gc := (c.gc.stepOn c.channel c.queue).1
    channel := (c.gc.stepOn c.channel c.queue).2.1
    queue := (c.gc.stepOn c.channel c.queue).2.2
    rolled := c.rolled ++ c.rolls }

/-- `pop`, as long as the consumer is there. -/
def pop (c : Collector) : Collector :=
  match c.dropped, c.queue.ids with
  | false, id :: ids => { c with queue := { c.queue with ids := ids }, popped := c.popped ++ [id] }
  | _, _ => c

/-- One turn. -/
def turn (c : Collector) : CollectorTurn → Collector
  | .command command => { c with channel := c.channel ++ [command] }
  | .thread => c.thread
  | .pop => c.pop
  | .drop noticed =>
      { c with dropped := true, queue := { c.queue with closed := c.queue.closed || noticed } }

/-- Some turns. -/
def run (c : Collector) (turns : List CollectorTurn) : Collector := turns.foldl turn c

/-- Every id that came out of a slot is in one place. -/
def Conserved (c : Collector) : Prop :=
  (c.rolled : Multiset HashId) = c.popped + c.queue.ids + c.gc.pending + c.gc.state.ids

variable {c : Collector}

/-- Free ids change their place, and none comes from a slot. -/
theorem Conserved.sent (conserved : Conserved c) (rolls : c.rolls = [])
    (busy : c.gc.state ≠ .receiving) : Conserved c.thread := by
  have moves := c.gc.stepOn_moves c.channel c.queue
  unfold Conserved at conserved ⊢
  rw [Collector.thread, rolls, List.append_nil]
  generalize c.gc.stepOn c.channel c.queue = next at moves ⊢
  obtain ⟨gc, channel, queue⟩ := next
  dsimp only at moves ⊢
  generalize queue.ids = ids at moves ⊢
  cases moves with
  | roll receiving _ => exact absurd receiving busy
  | mark receiving _ => exact absurd receiving busy
  | @send pending state _ places =>
      have same : (ids + (pending + state.ids) : Multiset HashId) =
          c.queue.ids + (c.gc.pending + c.gc.state.ids) := Multiset.coe_eq_coe.mpr places
      calc (c.rolled : Multiset HashId)
          = c.popped + (c.queue.ids + (c.gc.pending + c.gc.state.ids)) := by
            rw [conserved, Multiset.add_assoc, Multiset.add_assoc]
        _ = c.popped + (ids + (pending + state.ids)) := by rw [same]
        _ = c.popped + ids + pending + state.ids := by rw [Multiset.add_assoc, Multiset.add_assoc]

theorem Conserved.thread (conserved : Conserved c) : Conserved c.thread := by
  cases hstate : c.gc.state with
  | receiving =>
      unfold Conserved at conserved ⊢
      rw [hstate] at conserved
      cases hchannel : c.channel with
      | nil =>
          simp only [Collector.thread, rolls, GCThread.stepOn, hstate, hchannel, List.append_nil]
          exact conserved
      | cons command rest =>
          cases command with
          | startNewCycle values newIds =>
              simp only [Collector.thread, rolls, GCThread.stepOn, hstate, hchannel]
              rw [← Multiset.coe_add, conserved]
              exact congrArg (· + _) (Multiset.add_zero _)
          | markReused reused =>
              simp only [Collector.thread, rolls, GCThread.stepOn, hstate, hchannel,
                List.append_nil]
              exact conserved
  | _ =>
      refine conserved.sent ?_ ?_
      · rw [rolls, hstate]
      · rw [hstate]
        exact nofun

theorem Conserved.pop (conserved : Conserved c) : Conserved c.pop := by
  unfold Conserved at conserved ⊢
  unfold Collector.pop
  split
  next id ids _ hids =>
    show (c.rolled : Multiset HashId) = ↑(c.popped ++ [id]) + ids + c.gc.pending + c.gc.state.ids
    rw [conserved, hids, ← Multiset.coe_add, ← Multiset.cons_coe, ← Multiset.singleton_add,
      ← Multiset.add_assoc, Multiset.coe_singleton]
  next => exact conserved

theorem Conserved.turn (conserved : Conserved c) (turn : CollectorTurn) :
    Conserved (c.turn turn) := by
  cases turn with
  | command command => exact conserved
  | thread => exact conserved.thread
  | pop => exact conserved.pop
  | drop noticed => exact conserved

/-- In every run, the ids that `roll` returned are those that were taken, those in the queue,
those pending, and those that the thread has in hand while it sends the ids of a slot. -/
theorem freed_ids_conserved (capacity : Nat) (turns : List CollectorTurn) :
    let c := (new capacity).run turns
    (c.rolled : Multiset HashId) = c.popped + c.queue.ids + c.gc.pending + c.gc.state.ids := by
  intro c
  have run : ∀ (turns : List CollectorTurn) (c : Collector), Conserved c →
      Conserved (c.run turns) := by
    intro turns
    induction turns with
    | nil => exact fun _ conserved => conserved
    | cons turn turns ih => exact fun c conserved => ih (c.turn turn) (conserved.turn turn)
  exact run turns (new capacity) rfl

end Collector

end NodeFuzzer
