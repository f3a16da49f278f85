import Mathlib.Logic.Function.Basic
import NodeFuzzer.Library.Transition

/-!
# The first write

`init_protocol_context` of `service.rs` holds back the calls that initialize a context for reading
until one for writing has succeeded.  A flag behind a mutex says whether one has, and a condition
variable wakes those that wait.  What is done while the mutex is held is one step here.

The wait is not in a loop: a thread that wakes on its own goes on.
-/

namespace NodeFuzzer

namespace Wrapper

variable {ι : Type}

/-- Where a thread is in its call. -/
inductive Init where
  | idle
  | called (readonly : Bool)
  /-- In `cvar.wait`. -/
  | waiting
  /-- Out of it, to take the mutex again. -/
  | woken (spurious : Bool)
  /-- To send the command. -/
  | passed (readonly spurious : Bool)
  | sent (readonly : Bool)
  /-- The runner has initialized a context for writing. -/
  | succeeded

/-- What can be seen from outside. -/
inductive Event (ι : Type) where
  /-- The command went to the runner, perhaps after the thread had woken on its own. -/
  | sent (thread : ι) (readonly spurious : Bool)
  /-- The runner answered that a context for writing is initialized. -/
  | initialized (thread : ι)

/-- `AT_LEAST_ONE_WRITE_PROTOCOL_CONTEXT_WAS_SUCCESS_AT_FIRST_LOCK`, the threads, and what
happened, the last event first. -/
structure Gate (ι : Type) where
  wasOneWriteSuccess : Bool
  threads : ι → Init
  events : List (Event ι)

/-- A step of a thread. -/
inductive Turn where
  | call (readonly : Bool)
  /-- Look at the flag with the mutex held. -/
  | enter
  /-- Wake without having been notified. -/
  | wakeUp
  /-- Take the mutex again and release it. -/
  | leave
  | send
  /-- The runner answers, with success or an error. -/
  | answer (ok : Bool)
  /-- Set the flag and notify all. -/
  | report
  /-- The call returns an error. -/
  | fail

namespace Gate

/-- No call has been made. -/
def new : Gate ι := ⟨false, fun _ => .idle, []⟩

/-- `notify_all`. -/
def notifyAll (threads : ι → Init) : ι → Init := fun i =>
  match threads i with
  | .waiting => .woken false
  | other => other

variable [DecidableEq ι]

/-- Move a thread on. -/
def set (g : Gate ι) (i : ι) (init : Init) : Gate ι :=
  { g with threads := Function.update g.threads i init }

/-- A step of a thread; nothing when it is elsewhere. -/
def step (g : Gate ι) (i : ι) : Turn → Option (Gate ι)
  | .call readonly =>
      match g.threads i with
      | .idle => some (g.set i (.called readonly))
      | _ => none
  | .enter =>
      match g.threads i with
      | .called readonly =>
          if !g.wasOneWriteSuccess && readonly then some (g.set i .waiting)
          else some (g.set i (.passed readonly false))
      | _ => none
  | .wakeUp =>
      match g.threads i with
      | .waiting => some (g.set i (.woken true))
      | _ => none
  | .leave =>
      match g.threads i with
      | .woken spurious => some (g.set i (.passed true spurious))
      | _ => none
  | .send =>
      match g.threads i with
      | .passed readonly spurious =>
          some { g.set i (.sent readonly) with events := .sent i readonly spurious :: g.events }
      | _ => none
  | .answer ok =>
      match g.threads i with
      | .sent readonly =>
          if ok && !readonly then
            some { g.set i .succeeded with events := .initialized i :: g.events }
          else some (g.set i .idle)
      | _ => none
  | .report =>
      match g.threads i with
      | .succeeded =>
          if g.wasOneWriteSuccess then some (g.set i .idle)
          else
            some { g with
              wasOneWriteSuccess := true
              threads := notifyAll (Function.update g.threads i .idle) }
      | _ => none
  | .fail =>
      match g.threads i with
      | .passed _ _ => some (g.set i .idle)
      | .sent _ => some (g.set i .idle)
      | _ => none

/-- The steps of a run. -/
def run (g : Gate ι) (turns : List (ι × Turn)) : Option (Gate ι) :=
  Transition.run (fun g turn => g.step turn.1 turn.2) g turns

/-! ## The invariant -/

/-- A context for writing was initialized. -/
def Written (events : List (Event ι)) : Prop := ∃ thread, .initialized thread ∈ events

/-- What a thread has to know to be where it is. -/
def Allowed (g : Gate ι) : Init → Prop
  | .waiting => g.wasOneWriteSuccess = false
  | .woken false => g.wasOneWriteSuccess = true
  | .passed true false => g.wasOneWriteSuccess = true
  | .succeeded => Written g.events
  | _ => True

/-- Each command to initialize a context for reading came after one for writing had succeeded, or
its thread had woken on its own. -/
def Ordered : List (Event ι) → Prop
  | [] => True
  | event :: earlier => Ordered earlier ∧ ∀ i, event = .sent i true false → Written earlier

structure Inv (g : Gate ι) : Prop where
  flag : g.wasOneWriteSuccess = true → Written g.events
  threads : ∀ i, g.Allowed (g.threads i)
  ordered : Ordered g.events

omit [DecidableEq ι] in
theorem inv_new : Inv (new : Gate ι) := by
  refine ⟨?_, ?_, trivial⟩
  · intro flag
    cases flag
  · intro i
    trivial

omit [DecidableEq ι] in
theorem Written.cons {events : List (Event ι)} {event : Event ι} (written : Written events) :
    Written (event :: events) := by
  obtain ⟨thread, mem⟩ := written
  exact ⟨thread, List.mem_cons_of_mem _ mem⟩

variable {g g' : Gate ι} {i : ι}

/-- A thread moves and the others stay. -/
theorem Inv.set (inv : Inv g) (i : ι) {init : Init} (allowed : g.Allowed init) :
    Inv (g.set i init) := by
  refine ⟨inv.flag, ?_, inv.ordered⟩
  intro j
  show g.Allowed (Function.update g.threads i init j)
  rcases eq_or_ne j i with rfl | ne
  · rw [Function.update_self]
    exact allowed
  · rw [Function.update_of_ne ne]
    exact inv.threads j

omit [DecidableEq ι] in
/-- Something happens. -/
theorem Inv.event (inv : Inv g) {event : Event ι}
    (ordered : ∀ j, event = .sent j true false → Written g.events) :
    Inv { g with events := event :: g.events } := by
  refine ⟨fun flag => (inv.flag flag).cons, ?_, inv.ordered, ordered⟩
  intro j
  have allowed := inv.threads j
  cases init : g.threads j with
  | succeeded =>
      rw [init] at allowed
      exact Written.cons allowed
  | woken spurious =>
      rw [init] at allowed
      cases spurious <;> exact allowed
  | passed readonly spurious =>
      rw [init] at allowed
      cases readonly <;> cases spurious <;> exact allowed
  | waiting =>
      rw [init] at allowed
      exact allowed
  | idle | called | sent => trivial

omit [DecidableEq ι] in
/-- The flag is set, and all that wait are woken. -/
theorem Inv.notifyAll (inv : Inv g) (written : Written g.events) :
    Inv { g with
      wasOneWriteSuccess := true
      threads := Gate.notifyAll g.threads } := by
  refine ⟨fun _ => written, ?_, inv.ordered⟩
  intro j
  have allowed := inv.threads j
  simp only [Gate.notifyAll]
  cases init : g.threads j with
  | waiting => exact rfl
  | woken spurious => cases spurious <;> trivial
  | passed readonly spurious => cases readonly <;> cases spurious <;> trivial
  | succeeded => exact written
  | idle | called | sent => trivial

theorem Inv.step (inv : Inv g) {turn : Turn} (step : g.step i turn = some g') : Inv g' := by
  cases turn with
  | call readonly =>
      simp only [Gate.step] at step
      split at step <;> cases step
      exact inv.set i trivial
  | enter =>
      simp only [Gate.step] at step
      split at step
      next readonly called =>
        split at step
        next closed =>
          cases step
          simp only [Bool.and_eq_true, Bool.not_eq_true'] at closed
          exact inv.set i closed.1
        next open' =>
          cases step
          refine inv.set i ?_
          cases readonly with
          | false => trivial
          | true => simpa [Allowed] using open'
      next => cases step
  | wakeUp =>
      simp only [Gate.step] at step
      split at step <;> cases step
      exact inv.set i trivial
  | leave =>
      simp only [Gate.step] at step
      split at step
      next spurious woken =>
        cases step
        have allowed := inv.threads i
        rw [woken] at allowed
        refine inv.set i ?_
        cases spurious with
        | false => exact allowed
        | true => trivial
      next => cases step
  | send =>
      simp only [Gate.step] at step
      split at step
      next readonly spurious passed =>
        cases step
        have allowed := inv.threads i
        rw [passed] at allowed
        have moved : Inv (g.set i (.sent readonly)) := inv.set i trivial
        refine moved.event ?_
        intro j sent
        cases sent
        exact inv.flag allowed
      next => cases step
  | answer ok =>
      simp only [Gate.step] at step
      split at step
      next readonly sent =>
        split at step
        next =>
          cases step
          have answered : Inv { g with events := .initialized i :: g.events } := by
            refine inv.event ?_
            intro j sent
            cases sent
          exact answered.set i ⟨i, List.mem_cons_self⟩
        next =>
          cases step
          exact inv.set i trivial
      next => cases step
  | report =>
      simp only [Gate.step] at step
      split at step
      next succeeded =>
        have written := inv.threads i
        rw [succeeded] at written
        split at step
        next =>
          cases step
          exact inv.set i trivial
        next =>
          cases step
          have moved : Inv (g.set i .idle) := inv.set i trivial
          exact moved.notifyAll written
      next => cases step
  | fail =>
      simp only [Gate.step] at step
      split at step <;> cases step <;> exact inv.set i trivial

theorem Inv.run {turns : List (ι × Turn)} (inv : Inv g) (run : g.run turns = some g') : Inv g' :=
  Transition.run_keeps (fun _ _ _ inv step => inv.step step) inv run

omit [DecidableEq ι] in
theorem Ordered.written {events earlier later : List (Event ι)} (ordered : Ordered events)
    (split : events = later ++ .sent i true false :: earlier) : Written earlier := by
  induction later generalizing events with
  | nil =>
      subst split
      exact ordered.2 i rfl
  | cons event later ih =>
      subst split
      exact ih ordered.1 rfl

/-! ## Runs -/

variable {turns : List (ι × Turn)}

/-- Whatever the threads do, a context is initialized for reading only after one for writing was,
unless the thread woke on its own.  Once the flag says so, no thread is left waiting. -/
theorem reads_after_write (run : (new : Gate ι).run turns = some g) :
    (∀ later i earlier, g.events = later ++ .sent i true false :: earlier → Written earlier) ∧
      (g.wasOneWriteSuccess = true → Written g.events ∧ ∀ i, g.threads i ≠ .waiting) := by
  have inv : Inv g := inv_new.run run
  refine ⟨fun later i earlier => inv.ordered.written, ?_⟩
  intro flag
  refine ⟨inv.flag flag, ?_⟩
  intro i waiting
  have allowed := inv.threads i
  rw [waiting] at allowed
  cases flag.symm.trans allowed

/-- A thread for reading waits, is woken by the one for writing, and sends its command. -/
def handover : List (Bool × Turn) :=
  [(true, .call true), (true, .enter), (false, .call false), (false, .enter), (false, .send),
    (false, .answer true), (false, .report), (true, .leave), (true, .send)]

theorem reads_after_write_handover : ∃ g, (new : Gate Bool).run handover = some g ∧
    g.events = [.sent true true false, .initialized false, .sent false false false] ∧
    Written [.initialized false, .sent false false false] ∧ ∀ i, g.threads i ≠ .waiting := by
  obtain ⟨g, run⟩ : ∃ g, (new : Gate Bool).run handover = some g := ⟨_, rfl⟩
  have events : g.events =
      [] ++ .sent true true false :: [.initialized false, .sent false false false] := by
    cases run
    rfl
  have flag : g.wasOneWriteSuccess = true := by
    cases run
    rfl
  have gate := reads_after_write run
  exact ⟨g, run, events, gate.1 _ _ _ events, (gate.2 flag).2⟩

/-- A thread that wakes on its own does not look at the flag again. -/
example : ((new : Gate Bool).run [(true, .call true), (true, .enter), (true, .wakeUp),
    (true, .leave), (true, .send)]).map (fun g => (g.events.length, g.wasOneWriteSuccess)) =
      some (1, false) := rfl

end Gate

end Wrapper

end NodeFuzzer
