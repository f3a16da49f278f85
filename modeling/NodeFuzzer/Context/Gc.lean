import NodeFuzzer.Context.Types

/-!
# The garbage collection thread

`gc/worker.rs`.  The thread keeps the ids of the last seven cycles.  When a cycle
starts, the ids of the oldest one are free.  Commits tell which older entries they use;
these move to the last cycle, with everything below them.

The thread runs beside the store: it takes commands from a channel and puts ids into
the queue of free ids.  One step of `GCThread.step` is what it does between two points
at which the store can see a difference, so that a cycle takes several steps.
-/

namespace NodeFuzzer

/-- `PRESERVE_CYCLE_COUNT`. -/
def PRESERVE_CYCLE_COUNT : Nat := 7

/-- Capacity of the queue of free ids. -/
def FREE_IDS_CAPACITY : Nat := 2000000

/-- The ids of a cycle, with the values written for them. -/
abbrev CycleMap : Type := OrdMap HashId (Option Serialized)

/-- `Command`. -/
inductive Command where
  | startNewCycle (valuesInCycle : CycleMap) (newIds : List HashId)
  | markReused (reused : List HashId)
deriving DecidableEq

/-- `Cycles`: the list with its last element apart. -/
structure Cycles where
  older : List CycleMap
  last : CycleMap
  size : older.length + 1 = PRESERVE_CYCLE_COUNT
deriving DecidableEq

namespace Cycles

/-- `Cycles::default`. -/
def default : Cycles := ⟨List.replicate 6 .empty, .empty, rfl⟩

/-- The slots, oldest first. -/
def list (c : Cycles) : List CycleMap := c.older ++ [c.last]

/-- `move_to_last_cycle`.  An id without a value leaves the older slots as well. -/
def moveToLastCycle (c : Cycles) (hashId : HashId) : Option Serialized × Cycles :=
  let older := c.older.map fun store => store.remove hashId
  have size : older.length + 1 = PRESERVE_CYCLE_COUNT := by rw [List.length_map, c.size]
  match (c.older.filterMap fun store => (store.get hashId).join).getLast? with
  | none => (none, ⟨older, c.last, size⟩)
  | some value => (some value, ⟨older, c.last.insert hashId (some value), size⟩)

/-- `roll`: the ids of the oldest slot, and the slots with a new one. -/
def roll (c : Cycles) (newCycle : CycleMap) : List HashId × Cycles :=
  ((c.older.headD c.last).keys, ⟨c.list.tail, newCycle, by
    rw [list, List.length_tail, List.length_append, List.length_singleton]
    exact c.size⟩)

end Cycles

/-- Where the thread stands. -/
inductive GCState where
  /-- Waiting for a command. -/
  | receiving
  /-- In `send_unused`, before reading how many ids the queue takes. -/
  | unused (unused : List HashId)
  /-- In `send_unused`, before pushing. -/
  | sendUnused (unused : List HashId) (navailable : Nat)
  /-- In `send_pending`, before reading how many ids the queue takes. -/
  | pending
  /-- In `send_pending`, before pushing. -/
  | sendPending (navailable : Nat)
deriving DecidableEq

/-- The ids that are on their way from the oldest slot to the queue. -/
def GCState.ids : GCState → List HashId
  | .unused ids => ids
  | .sendUnused ids _ => ids
  | _ => []

/-- `GCThread`. -/
structure GCThread where
  cycles : Cycles
  pending : List HashId
  state : GCState
deriving DecidableEq

namespace GCThread

/-- The thread as it is spawned. -/
def new : GCThread := ⟨.default, [], .receiving⟩

/-- `start_new_cycle`, up to the ids that are unused now. -/
def startNewCycle (cycles : Cycles) (newCycle : CycleMap) (newIds : List HashId) :
    List HashId × Cycles :=
  cycles.roll (newIds.foldl (fun map hashId =>
    match map.get hashId with
    | some _ => map
    | none => map.insert hashId none) newCycle)

/-- The loop of `mark_reused`, with the ids still to visit, next first. -/
def markReusedLoop : Nat → List HashId → Cycles → Cycles
  | 0, _, cycles => cycles
  | _ + 1, [], cycles => cycles
  | fuel + 1, hashId :: reused, cycles =>
      match cycles.moveToLastCycle hashId with
      | (none, cycles) => markReusedLoop fuel reused cycles
      | (some value, cycles) => markReusedLoop fuel (value.references.reverse ++ reused) cycles

/-- How often the loop can go round for the ids of a slot. -/
def slotVisits (slot : CycleMap) : Nat :=
  (slot.entries.map fun p => 1 + ((p.2.map fun value => value.references.length).getD 0)).sum

/-- How often the loop can go round. -/
def visits (reused : List HashId) (cycles : Cycles) : Nat :=
  reused.length + (cycles.older.map slotVisits).sum

/-- `mark_reused`, up to `send_pending`. -/
def markReused (cycles : Cycles) (reused : List HashId) : Cycles :=
  markReusedLoop (visits reused cycles) reused.reverse cycles

/-- `push_slice`; `none` is the error of a full queue. -/
def pushSlice (queue slice : List HashId) : Option (List HashId) :=
  if queue.length + slice.length ≤ FREE_IDS_CAPACITY then some (queue ++ slice) else none

/-- `available`. -/
def available (queue : List HashId) : Nat := FREE_IDS_CAPACITY - queue.length

/-- One step of the thread on the channel and the queue of free ids. -/
def step (gc : GCThread) (channel : List Command) (queue : List HashId) :
    GCThread × List Command × List HashId :=
  match gc.state with
  | .receiving =>
      match channel with
      | [] => (gc, channel, queue)
      | .startNewCycle valuesInCycle newIds :: channel =>
          let (unused, cycles) := startNewCycle gc.cycles valuesInCycle newIds
          ({ gc with cycles := cycles, state := .unused unused }, channel, queue)
      | .markReused reused :: channel =>
          ({ gc with cycles := markReused gc.cycles reused, state := .pending }, channel, queue)
  | .unused unused => ({ gc with state := .sendUnused unused (available queue) }, channel, queue)
  | .sendUnused unused navailable =>
      match pushSlice queue (unused.take navailable) with
      | none =>
          ({ gc with pending := gc.pending ++ unused, state := .receiving }, channel, queue)
      | some queue =>
          ({ gc with pending := gc.pending ++ unused.drop navailable, state := .receiving },
            channel, queue)
  | .pending =>
      if gc.pending = [] ∨ available queue = 0 then
        ({ gc with state := .receiving }, channel, queue)
      else ({ gc with state := .sendPending (available queue) }, channel, queue)
  | .sendPending navailable =>
      let start := gc.pending.length - min navailable gc.pending.length
      match pushSlice queue (gc.pending.drop start) with
      | none => ({ gc with state := .receiving }, channel, queue)
      | some queue =>
          ({ gc with pending := gc.pending.take start, state := .receiving }, channel, queue)

/-! ## Queues of any capacity -/

end GCThread

/-- The queue of free ids, oldest first.  The consumer closes it when it is dropped. -/
structure FreeQueue where
  capacity : Nat
  ids : List HashId
  closed : Bool
deriving DecidableEq

namespace FreeQueue

/-- `available`.  When the queue is closed, `len` compares places only, so that a full queue
counts as an empty one. -/
def available (q : FreeQueue) : Nat :=
  q.capacity - if q.closed then q.ids.length % q.capacity else q.ids.length

/-- `push_slice`; `none` is the error of a closed or a full queue. -/
def pushSlice (q : FreeQueue) (slice : List HashId) : Option FreeQueue :=
  if q.closed ∨ q.capacity < q.ids.length + slice.length then none
  else some { q with ids := q.ids ++ slice }

end FreeQueue

namespace GCThread

/-- `step` on such a queue. -/
def stepOn (gc : GCThread) (channel : List Command) (queue : FreeQueue) :
    GCThread × List Command × FreeQueue :=
  match gc.state with
  | .receiving =>
      match channel with
      | [] => (gc, channel, queue)
      | .startNewCycle valuesInCycle newIds :: channel =>
          let (unused, cycles) := startNewCycle gc.cycles valuesInCycle newIds
          ({ gc with cycles := cycles, state := .unused unused }, channel, queue)
      | .markReused reused :: channel =>
          ({ gc with cycles := markReused gc.cycles reused, state := .pending }, channel, queue)
  | .unused unused =>
      ({ gc with state := .sendUnused unused queue.available }, channel, queue)
  | .sendUnused unused navailable =>
      match queue.pushSlice (unused.take navailable) with
      | none =>
          ({ gc with pending := gc.pending ++ unused, state := .receiving }, channel, queue)
      | some queue =>
          ({ gc with pending := gc.pending ++ unused.drop navailable, state := .receiving },
            channel, queue)
  | .pending =>
      if gc.pending = [] ∨ queue.available = 0 then
        ({ gc with state := .receiving }, channel, queue)
      else ({ gc with state := .sendPending queue.available }, channel, queue)
  | .sendPending navailable =>
      let start := gc.pending.length - min navailable gc.pending.length
      match queue.pushSlice (gc.pending.drop start) with
      | none => ({ gc with state := .receiving }, channel, queue)
      | some queue =>
          ({ gc with pending := gc.pending.take start, state := .receiving }, channel, queue)

/-- The queue of the store is one of them. -/
theorem step_eq_stepOn (gc : GCThread) (channel : List Command) (queue : List HashId) :
    gc.step channel queue =
      ((gc.stepOn channel ⟨FREE_IDS_CAPACITY, queue, false⟩).1,
        (gc.stepOn channel ⟨FREE_IDS_CAPACITY, queue, false⟩).2.1,
        (gc.stepOn channel ⟨FREE_IDS_CAPACITY, queue, false⟩).2.2.ids) := by
  have push : ∀ slice, (FreeQueue.pushSlice ⟨FREE_IDS_CAPACITY, queue, false⟩ slice).map
      FreeQueue.ids = pushSlice queue slice := by
    intro slice
    simp only [FreeQueue.pushSlice, pushSlice, Bool.false_eq_true, false_or]
    split
    next full => rw [if_neg (Nat.not_le.mpr full)]; rfl
    next room => rw [if_pos (Nat.not_lt.mp room)]; rfl
  unfold step stepOn
  cases gc.state with
  | receiving =>
      cases channel with
      | nil => rfl
      | cons command rest => cases command <;> rfl
  | unused unused => rfl
  | sendUnused unused navailable =>
      have pushed := push (unused.take navailable)
      dsimp only
      rw [← pushed]
      cases FreeQueue.pushSlice ⟨FREE_IDS_CAPACITY, queue, false⟩ (unused.take navailable) <;> rfl
  | pending =>
      have room : FreeQueue.available ⟨FREE_IDS_CAPACITY, queue, false⟩ = available queue := rfl
      dsimp only
      rw [room]
      by_cases stay : gc.pending = [] ∨ available queue = 0
      · simp only [if_pos stay]
      · simp only [if_neg stay]
  | sendPending navailable =>
      dsimp only
      have pushed := push
        (gc.pending.drop (gc.pending.length - min navailable gc.pending.length))
      rw [← pushed]
      cases FreeQueue.pushSlice ⟨FREE_IDS_CAPACITY, queue, false⟩
        (gc.pending.drop (gc.pending.length - min navailable gc.pending.length)) <;> rfl

/-! ## What a step does -/

/-- The free ids the thread holds: those on their way from the oldest slot to the queue,
and those the queue had no room for. -/
def held (gc : GCThread) : List HashId := gc.pending ++ gc.state.ids

/-- What a step does, seen from outside. -/
inductive Moves (gc : GCThread) (channel : List Command) (queue : List HashId) :
    GCThread × List Command × List HashId → Prop
  /-- A cycle ends: the ids of the oldest slot are free. -/
  | roll {valuesInCycle : CycleMap} {newIds : List HashId} {rest : List Command}
      (receiving : gc.state = .receiving)
      (command : channel = .startNewCycle valuesInCycle newIds :: rest) :
      Moves gc channel queue
        ({ gc with
          cycles := (startNewCycle gc.cycles valuesInCycle newIds).2
          state := .unused (startNewCycle gc.cycles valuesInCycle newIds).1 }, rest, queue)
  /-- Entries are used again. -/
  | mark {reused : List HashId} {rest : List Command}
      (receiving : gc.state = .receiving) (command : channel = .markReused reused :: rest) :
      Moves gc channel queue
        ({ gc with cycles := markReused gc.cycles reused, state := .pending }, rest, queue)
  /-- Free ids change their place. -/
  | send {pending : List HashId} {state : GCState} {queue' : List HashId}
      (places : (queue' ++ (pending ++ state.ids)).Perm (queue ++ gc.held)) :
      Moves gc channel queue ({ gc with pending := pending, state := state }, channel, queue')

theorem stepOn_moves (gc : GCThread) (channel : List Command) (queue : FreeQueue) :
    Moves gc channel queue.ids ((gc.stepOn channel queue).1, (gc.stepOn channel queue).2.1,
      (gc.stepOn channel queue).2.2.ids) := by
  have stays : ∀ {pending : List HashId} {state : GCState} {ids : List HashId},
      (ids ++ (pending ++ state.ids)).Perm (queue.ids ++ gc.held) →
      Moves gc channel queue.ids ({ gc with pending := pending, state := state }, channel, ids) :=
    fun places => .send places
  unfold stepOn
  cases hstate : gc.state with
  | receiving =>
      cases channel with
      | nil =>
          have here : gc = { gc with pending := gc.pending, state := gc.state } := rfl
          rw [here]
          exact .send (List.Perm.refl _)
      | cons command rest =>
          cases command with
          | startNewCycle valuesInCycle newIds => exact .roll hstate rfl
          | markReused reused => exact .mark hstate rfl
  | unused unused =>
      refine stays ?_
      rw [held, hstate]
      exact List.Perm.refl _
  | sendUnused unused navailable =>
      have hheld : gc.held = gc.pending ++ unused := by
        rw [held, hstate]
        rfl
      have all : unused.take navailable ++ unused.drop navailable = unused :=
        List.take_append_drop ..
      simp only [FreeQueue.pushSlice]
      split
      next heq =>
        refine stays ?_
        rw [hheld]
        show (queue.ids ++ (gc.pending ++ unused ++ [])).Perm _
        rw [List.append_nil]
      next queue' heq =>
        split at heq
        · cases heq
        · cases heq
          refine stays ?_
          rw [hheld]
          show (queue.ids ++ unused.take navailable ++
            (gc.pending ++ unused.drop navailable ++ [])).Perm _
          rw [List.append_nil, List.append_assoc]
          refine List.Perm.append_left _ ?_
          have swap : (unused.take navailable ++ (gc.pending ++ unused.drop navailable)).Perm
              (gc.pending ++ (unused.take navailable ++ unused.drop navailable)) := by
            rw [← List.append_assoc, ← List.append_assoc]
            exact List.perm_append_comm.append_right _
          rw [all] at swap
          exact swap
  | pending =>
      have hheld : gc.held = gc.pending := by
        rw [held, hstate]
        exact List.append_nil _
      dsimp only
      split
      · refine stays ?_
        rw [hheld]
        show (queue.ids ++ (gc.pending ++ [])).Perm _
        rw [List.append_nil]
      · refine stays ?_
        rw [hheld]
        show (queue.ids ++ (gc.pending ++ [])).Perm _
        rw [List.append_nil]
  | sendPending navailable =>
      have hheld : gc.held = gc.pending := by
        rw [held, hstate]
        exact List.append_nil _
      simp only [FreeQueue.pushSlice]
      split
      next heq =>
        refine stays ?_
        rw [hheld]
        show (queue.ids ++ (gc.pending ++ [])).Perm _
        rw [List.append_nil]
      next queue' heq =>
        split at heq
        · cases heq
        · cases heq
          refine stays ?_
          rw [hheld]
          show (queue.ids ++ _ ++ (_ ++ [])).Perm _
          rw [List.append_nil, List.append_assoc]
          refine List.Perm.append_left _ (List.perm_append_comm.trans ?_)
          rw [List.take_append_drop]

theorem step_moves (gc : GCThread) (channel : List Command) (queue : List HashId) :
    Moves gc channel queue (gc.step channel queue) := by
  rw [step_eq_stepOn]
  exact gc.stepOn_moves channel ⟨FREE_IDS_CAPACITY, queue, false⟩

end GCThread

end NodeFuzzer
