import Mathlib.Algebra.BigOperators.Group.Finset.Piecewise
import Mathlib.Algebra.Group.Action.Defs
import Mathlib.Algebra.Order.BigOperators.Group.Finset
import NodeFuzzer.Library.Transition

/-!
# The runtime thread

Only one thread may use the OCaml runtime.  `spawn` sends it a task and gives back a future for
its result; the executor runs the tasks one by one, stores each result and wakes whoever waits.
Task and future share the place of the result and a waker, each behind a mutex.  What is done
while `result` is held is split where the other mutex is taken or the task runs, so that another
thread can come in between; sending, and taking the waker, are single steps.

The results are those of running the tasks in the order in which they were sent
(`calls_sequential`).  No wake-up is lost: when nothing can move any more every future has
returned, and without new tasks that takes a bounded number of steps (`calls_return`).  Shutting
down changes none of this.
-/

namespace NodeFuzzer

namespace Interop

variable {R T : Type}

/-- `OCamlBlockPanic`. -/
inductive OCamlBlockPanic where
  | blockPanic
deriving DecidableEq

/-- What a task does with the runtime: a value, or nothing when it panics. -/
abbrev Op (R T : Type) : Type := R → Option T × R

/-- `catch_unwind` around a task. -/
def outcome : Option T → Except OCamlBlockPanic T
  | some value => .ok value
  | none => .error .blockPanic

/-- `OCamlTask`, with the number of the call it shares its two places with. -/
structure OCamlTask (R T : Type) where
  op : Op R T
  call : Nat

/-- Where the thread is that polls a future. -/
inductive Poller (T : Type) where
  /-- It has not polled yet. -/
  | idle
  /-- It has found no result, and still holds `result`. -/
  | looking
  /-- `Poll::Pending`. -/
  | pending
  /-- `Poll::Ready`. -/
  | ready (value : Except OCamlBlockPanic T)

/-- `OCamlCallResult` and the thread that polls it. -/
structure OCamlCallResult (T : Type) where
  result : Option (Except OCamlBlockPanic T)
  /-- A waker of the thread is stored. -/
  waker : Bool
  poller : Poller T
  /-- The thread was woken since it last started to poll. -/
  woken : Bool

/-- A future that was made just now. -/
def OCamlCallResult.fresh : OCamlCallResult T := ⟨none, false, .idle, false⟩

/-- Where `OCamlThreadExecutor::run` is. -/
inductive Executor (R T : Type) where
  | idle
  /-- To take `result`. -/
  | received (task : OCamlTask R T)
  /-- In the task, with `result` held. -/
  | running (task : OCamlTask R T)
  /-- To take the waker. -/
  | stored (task : OCamlTask R T)

/-- `OCamlEnvironment`, with the tasks that were sent so far and the futures given back for
them. -/
structure OCamlEnvironment (R T : Type) where
  ocamlRuntime : R
  executor : Executor R T
  readyTasks : List (OCamlTask R T)
  spawned : List (Op R T)
  calls : Nat → OCamlCallResult T

/-- A step of a thread. -/
inductive Turn (R T : Type) where
  | spawn (op : Op R T)
  /-- Drop the guard of the sender, which leaves the channel open. -/
  | shutdown
  /-- Poll without having been woken. -/
  | pollAgain (call : Nat)
  | poll (call : Nat)
  /-- Store the waker and return `Poll::Pending`. -/
  | store (call : Nat)
  | receive
  | start
  | finish
  /-- Take the waker and wake its thread. -/
  | notify

/-- The turns that get calls done. -/
def Turn.works : Turn R T → Bool
  | .spawn _ | .shutdown | .pollAgain _ => false
  | _ => true

namespace OCamlEnvironment

/-- `initialize_environment`. -/
def initializeEnvironment (ocamlRuntime : R) : OCamlEnvironment R T :=
  ⟨ocamlRuntime, .idle, [], [], fun _ => .fresh⟩

/-- Change a future. -/
def setCall (env : OCamlEnvironment R T) (i : Nat) (call : OCamlCallResult T) :
    OCamlEnvironment R T :=
  { env with calls := Function.update env.calls i call }

/-- The executor holds `result` of a call. -/
def holds (env : OCamlEnvironment R T) (i : Nat) : Bool :=
  match env.executor with
  | .running task => task.call == i
  | _ => false

/-- The part of `poll` before the waker is stored. -/
def lookAt (env : OCamlEnvironment R T) (i : Nat) : Option (OCamlEnvironment R T) :=
  let call := env.calls i
  if env.holds i then none
  else
    match call.result with
    | some value => some (env.setCall i
        { call with
          result := none
          poller := .ready value
          woken := false })
    | none => some (env.setCall i
        { call with
          poller := .looking
          woken := false })

@[simp] theorem setCall_self (env : OCamlEnvironment R T) (i : Nat) (call : OCamlCallResult T) :
    (env.setCall i call).calls i = call := by
  simp [setCall]

theorem setCall_of_ne (env : OCamlEnvironment R T) {i j : Nat} (call : OCamlCallResult T)
    (ne : j ≠ i) : (env.setCall i call).calls j = env.calls j := by
  simp [setCall, ne]

/-- A step; nothing when the thread is elsewhere or has to wait for a mutex. -/
def step (env : OCamlEnvironment R T) : Turn R T → Option (OCamlEnvironment R T)
  | .spawn op => some
      { env with
        readyTasks := env.readyTasks ++ [⟨op, env.spawned.length⟩]
        spawned := env.spawned ++ [op] }
  | .shutdown => some env
  | .pollAgain i =>
      match (env.calls i).poller with
      | .pending => env.lookAt i
      | _ => none
  | .poll i =>
      if i < env.spawned.length then
        match (env.calls i).poller with
        | .idle => env.lookAt i
        | .pending => if (env.calls i).woken then env.lookAt i else none
        | _ => none
      else none
  | .store i =>
      match (env.calls i).poller with
      | .looking => some (env.setCall i
          { env.calls i with
            waker := true
            poller := .pending })
      | _ => none
  | .receive =>
      match env.executor, env.readyTasks with
      | .idle, task :: tasks => some
          { env with
            executor := .received task
            readyTasks := tasks }
      | _, _ => none
  | .start =>
      match env.executor with
      | .received task =>
          match (env.calls task.call).poller with
          | .looking => none
          | _ => some { env with executor := .running task }
      | _ => none
  | .finish =>
      match env.executor with
      | .running task => some
          { env.setCall task.call
              { env.calls task.call with result := some (outcome (task.op env.ocamlRuntime).1) } with
            ocamlRuntime := (task.op env.ocamlRuntime).2
            executor := .stored task }
      | _ => none
  | .notify =>
      match env.executor with
      | .stored task =>
          let call := env.calls task.call
          some
            { env.setCall task.call
                { call with
                  waker := false
                  woken := call.woken || call.waker } with
              executor := .idle }
      | _ => none

/-- The steps of a run. -/
def run (env : OCamlEnvironment R T) (turns : List (Turn R T)) : Option (OCamlEnvironment R T) :=
  Transition.run step env turns

end OCamlEnvironment

/-! ## One task after the other -/

/-- The runtime after some tasks. -/
def runtimeAfter (ocamlRuntime : R) (ops : List (Op R T)) : R :=
  ops.foldl (fun rt op => (op rt).2) ocamlRuntime

/-- What a task returns when the tasks are run in order. -/
def valueOf (ocamlRuntime : R) (ops : List (Op R T)) (i : Nat) :
    Option (Except OCamlBlockPanic T) :=
  ops[i]?.map fun op => outcome (op (runtimeAfter ocamlRuntime (ops.take i))).1

theorem runtimeAfter_take_succ (ocamlRuntime : R) {ops : List (Op R T)} {i : Nat} {op : Op R T}
    (h : ops[i]? = some op) : runtimeAfter ocamlRuntime (ops.take (i + 1)) =
      (op (runtimeAfter ocamlRuntime (ops.take i))).2 := by
  rw [List.take_add_one, h, runtimeAfter, List.foldl_append]
  rfl

theorem valueOf_append (ocamlRuntime : R) {ops more : List (Op R T)} {i : Nat}
    (h : i < ops.length) :
    valueOf ocamlRuntime (ops ++ more) i = valueOf ocamlRuntime ops i := by
  rw [valueOf, valueOf, List.getElem?_append_left h, List.take_append_of_le_length (Nat.le_of_lt h)]

/-! ## The invariant -/

/-- Tasks are those that were sent, from the `k`th on. -/
def Numbered (ops : List (Op R T)) : Nat → List (OCamlTask R T) → Prop
  | k, [] => k = ops.length
  | k, task :: tasks => task.call = k ∧ ops[k]? = some task.op ∧ Numbered ops (k + 1) tasks

theorem Numbered.length {ops : List (Op R T)} {k : Nat} {tasks : List (OCamlTask R T)}
    (h : Numbered ops k tasks) : k + tasks.length = ops.length := by
  induction tasks generalizing k with
  | nil => exact h
  | cons task tasks ih =>
      have rest := ih h.2.2
      rw [List.length_cons]
      omega

/-- A task more was sent. -/
theorem Numbered.append {ops : List (Op R T)} {k : Nat} {tasks : List (OCamlTask R T)}
    (h : Numbered ops k tasks) (op : Op R T) :
    Numbered (ops ++ [op]) k (tasks ++ [⟨op, ops.length⟩]) := by
  induction tasks generalizing k with
  | nil =>
      have hk : k = ops.length := h
      subst hk
      exact ⟨rfl, by simp, by simp [Numbered]⟩
  | cons task tasks ih =>
      obtain ⟨hcall, hop, hrest⟩ := h
      refine ⟨hcall, ?_, ih hrest⟩
      rw [List.getElem?_append_left (List.getElem?_eq_some_iff.mp hop).1]
      exact hop

/-- A future whose task has not stored its result: it can only be found empty, and who waits has
left a waker. -/
structure Waits (call : OCamlCallResult T) : Prop where
  none : call.result = none
  waker : call.poller = .pending → call.waker = true
  unread : ∀ value, call.poller ≠ .ready value

/-- A future whose task has stored a value: it is there or was returned, and who waits was woken
or is about to be. -/
structure Stores (value : Except OCamlBlockPanic T) (notifies : Prop) (call : OCamlCallResult T) :
    Prop where
  value : call.result = some value ∧ (call.poller = .idle ∨ call.poller = .pending) ∨
    call.result = none ∧ call.poller = .ready value
  woken : call.poller = .pending → call.woken = true ∨ notifies ∧ call.waker = true

theorem Stores.mono {value : Except OCamlBlockPanic T} {P Q : Prop} {call : OCamlCallResult T}
    (h : Stores value P call) (le : P → Q) : Stores value Q call := by
  refine ⟨h.value, ?_⟩
  intro pending
  exact (h.woken pending).imp_right fun notifies => ⟨le notifies.1, notifies.2⟩

namespace OCamlEnvironment

/-- The tasks that have not stored a result. -/
def unfinished (env : OCamlEnvironment R T) : List (OCamlTask R T) :=
  match env.executor with
  | .received task => task :: env.readyTasks
  | .running task => task :: env.readyTasks
  | _ => env.readyTasks

/-- The executor is about to wake whoever waits for a call. -/
def Notifies (env : OCamlEnvironment R T) (i : Nat) : Prop :=
  ∃ task, env.executor = .stored task ∧ task.call = i

/-- The first `k` tasks have stored their results. -/
structure Inv (ocamlRuntime : R) (k : Nat) (env : OCamlEnvironment R T) : Prop where
  runtime : env.ocamlRuntime = runtimeAfter ocamlRuntime (env.spawned.take k)
  left : Numbered env.spawned k env.unfinished
  held : ∀ task, env.executor = .running task → (env.calls task.call).poller ≠ .looking
  current : ∀ task, env.executor = .stored task → task.call < k
  waits : ∀ i, k ≤ i → Waits (env.calls i)
  stores : ∀ i, i < k → ∃ value, valueOf ocamlRuntime env.spawned i = some value ∧
    Stores value (env.Notifies i) (env.calls i)
  beyond : ∀ i, env.spawned.length ≤ i → env.calls i = .fresh

variable {ocamlRuntime : R} {k i : Nat} {env env' : OCamlEnvironment R T}

theorem Inv.le (inv : Inv ocamlRuntime k env) : k ≤ env.spawned.length := by
  have := inv.left.length
  omega

theorem waits_fresh : Waits (.fresh : OCamlCallResult T) := by
  refine ⟨rfl, ?_, ?_⟩
  · intro pending
    cases pending
  · intro value ready
    cases ready

theorem inv_initialize (ocamlRuntime : R) :
    Inv ocamlRuntime 0 (initializeEnvironment ocamlRuntime : OCamlEnvironment R T) := by
  refine ⟨rfl, rfl, ?_, ?_, fun _ _ => waits_fresh, ?_, fun _ _ => rfl⟩
  · intro task running
    cases running
  · intro task stored
    cases stored
  · intro i below
    exact absurd below (Nat.not_lt_zero i)

/-- A task is sent. -/
theorem Inv.spawn (inv : Inv ocamlRuntime k env) (op : Op R T) : Inv ocamlRuntime k
    { env with
      readyTasks := env.readyTasks ++ [⟨op, env.spawned.length⟩]
      spawned := env.spawned ++ [op] } := by
  refine ⟨?_, ?_, inv.held, inv.current, inv.waits, ?_, ?_⟩
  · simp only [List.take_append_of_le_length inv.le, inv.runtime]
  · have more := inv.left.append op
    unfold unfinished at more ⊢
    dsimp only at more ⊢
    split at more <;> exact more
  · intro i below
    obtain ⟨value, hvalue, stores⟩ := inv.stores i below
    refine ⟨value, ?_, stores⟩
    rw [valueOf_append ocamlRuntime (Nat.lt_of_lt_of_le below inv.le)]
    exact hvalue
  · intro i beyond
    rw [List.length_append] at beyond
    exact inv.beyond i (by omega)

/-- One future changes, and the executor stays. -/
theorem Inv.setCall (inv : Inv ocamlRuntime k env) (known : i < env.spawned.length)
    {call : OCamlCallResult T}
    (held : ∀ task, env.executor = .running task → task.call = i → call.poller ≠ .looking)
    (waits : k ≤ i → Waits call)
    (stores : ∀ value, Stores value (env.Notifies i) (env.calls i) →
      Stores value (env.Notifies i) call) : Inv ocamlRuntime k (env.setCall i call) := by
  refine ⟨inv.runtime, inv.left, ?_, inv.current, ?_, ?_, ?_⟩
  · intro task running
    rcases eq_or_ne task.call i with same | ne
    · rw [same, setCall_self]
      exact held task running same
    · rw [setCall_of_ne env call ne]
      exact inv.held task running
  · intro j above
    rcases eq_or_ne j i with rfl | ne
    · rw [setCall_self]
      exact waits above
    · rw [setCall_of_ne env call ne]
      exact inv.waits j above
  · intro j below
    obtain ⟨value, hvalue, stored⟩ := inv.stores j below
    refine ⟨value, hvalue, ?_⟩
    rcases eq_or_ne j i with rfl | ne
    · rw [setCall_self]
      exact stores value stored
    · rw [setCall_of_ne env call ne]
      exact stored
  · intro j beyond
    have ne : j ≠ i := by
      rintro rfl
      exact absurd known (Nat.not_lt.mpr beyond)
    rw [setCall_of_ne env call ne]
    exact inv.beyond j beyond

/-- A future is looked at. -/
theorem Inv.lookAt (inv : Inv ocamlRuntime k env) (known : i < env.spawned.length)
    (unread : ∀ value, (env.calls i).poller ≠ .ready value) (step : env.lookAt i = some env') :
    Inv ocamlRuntime k env' := by
  simp only [OCamlEnvironment.lookAt] at step
  split at step
  next => cases step
  next free =>
    have unheld : ∀ task, env.executor = .running task → task.call ≠ i := by
      intro task running same
      exact free (by simp [holds, running, same])
    split at step
    next value found =>
      cases step
      refine inv.setCall known (fun task running same => absurd same (unheld task running)) ?_ ?_
      · intro above
        rw [(inv.waits i above).none] at found
        cases found
      · intro stored stores
        obtain ⟨there, -⟩ | ⟨gone, -⟩ := stores.value
        · rw [there] at found
          cases found
          refine ⟨.inr ⟨rfl, rfl⟩, ?_⟩
          intro pending
          cases pending
        · rw [gone] at found
          cases found
    next none =>
      cases step
      refine inv.setCall known (fun task running same => absurd same (unheld task running)) ?_ ?_
      · intro above
        refine ⟨none, ?_, ?_⟩
        · intro pending
          cases pending
        · intro value ready
          cases ready
      · intro value stores
        obtain ⟨there, -⟩ | ⟨-, ready⟩ := stores.value
        · rw [there] at none
          cases none
        · exact absurd ready (unread value)

/-- A call whose thread has polled is one that was spawned. -/
theorem Inv.known (inv : Inv ocamlRuntime k env) (polled : (env.calls i).poller ≠ .idle) :
    i < env.spawned.length := by
  by_contra beyond
  rw [inv.beyond i (Nat.le_of_not_lt beyond)] at polled
  exact polled rfl

/-- The waker is stored, while `result` is still held. -/
theorem Inv.store (inv : Inv ocamlRuntime k env) (looking : (env.calls i).poller = .looking) :
    Inv ocamlRuntime k (env.setCall i
      { env.calls i with
        waker := true
        poller := .pending }) := by
  have known : i < env.spawned.length := inv.known (by simp [looking])
  refine inv.setCall known ?_ ?_ ?_
  · intro task _ _ same
    cases same
  · intro above
    refine ⟨(inv.waits i above).none, fun _ => rfl, ?_⟩
    intro value ready
    cases ready
  · intro value stores
    obtain ⟨-, idle | pending⟩ | ⟨-, ready⟩ := stores.value
    · rw [looking] at idle
      cases idle
    · rw [looking] at pending
      cases pending
    · rw [looking] at ready
      cases ready

/-- Unless the executor is about to wake somebody, all that wait for a result were woken. -/
theorem Inv.settled (inv : Inv ocamlRuntime k env) (quiet : ∀ task, env.executor ≠ .stored task)
    (below : i < k) : ∃ value, valueOf ocamlRuntime env.spawned i = some value ∧
      Stores value False (env.calls i) := by
  obtain ⟨value, hvalue, stores⟩ := inv.stores i below
  refine ⟨value, hvalue, stores.mono ?_⟩
  intro notifies
  obtain ⟨task, stored, -⟩ := notifies
  exact quiet task stored

/-- The executor takes the next task. -/
theorem Inv.receive (inv : Inv ocamlRuntime k env) {task : OCamlTask R T}
    {tasks : List (OCamlTask R T)} (idle : env.executor = .idle)
    (ready : env.readyTasks = task :: tasks) : Inv ocamlRuntime k
    { env with
      executor := .received task
      readyTasks := tasks } := by
  have left := inv.left
  simp only [unfinished, idle, ready] at left
  refine ⟨inv.runtime, left, ?_, ?_, inv.waits, ?_, inv.beyond⟩
  · intro task running
    cases running
  · intro task stored
    cases stored
  · intro i below
    obtain ⟨value, hvalue, stores⟩ := inv.settled (by simp [idle]) below
    exact ⟨value, hvalue, stores.mono False.elim⟩

/-- The executor takes `result`. -/
theorem Inv.start (inv : Inv ocamlRuntime k env) {task : OCamlTask R T}
    (received : env.executor = .received task)
    (free : (env.calls task.call).poller ≠ .looking) :
    Inv ocamlRuntime k { env with executor := .running task } := by
  have left := inv.left
  simp only [unfinished, received] at left
  refine ⟨inv.runtime, left, ?_, ?_, inv.waits, ?_, inv.beyond⟩
  · intro task' running
    cases running
    exact free
  · intro task stored
    cases stored
  · intro i below
    obtain ⟨value, hvalue, stores⟩ := inv.settled (by simp [received]) below
    exact ⟨value, hvalue, stores.mono False.elim⟩

/-- The next task has run. -/
theorem Inv.finish (inv : Inv ocamlRuntime k env) {task : OCamlTask R T}
    (running : env.executor = .running task) : Inv ocamlRuntime (k + 1)
    { env.setCall task.call
        { env.calls task.call with result := some (outcome (task.op env.ocamlRuntime).1) } with
      ocamlRuntime := (task.op env.ocamlRuntime).2
      executor := .stored task } := by
  have left := inv.left
  simp only [unfinished, running] at left
  obtain ⟨hcall, hop, left⟩ := left
  have held := inv.held task running
  rw [hcall] at held
  rw [hcall]
  have next : valueOf ocamlRuntime env.spawned k =
      some (outcome (task.op env.ocamlRuntime).1) := by
    rw [valueOf, hop, inv.runtime]
    rfl
  refine ⟨?_, left, ?_, ?_, ?_, ?_, ?_⟩
  · show _ = runtimeAfter ocamlRuntime (env.spawned.take (k + 1))
    rw [runtimeAfter_take_succ ocamlRuntime hop, inv.runtime]
  · intro task' running'
    cases running'
  · intro task' stored
    cases stored
    omega
  · intro i above
    show Waits ((env.setCall k _).calls i)
    rw [setCall_of_ne env _ (by omega)]
    exact inv.waits i (by omega)
  · intro i below
    rcases Nat.lt_succ_iff_lt_or_eq.mp below with before | rfl
    · obtain ⟨value, hvalue, stores⟩ := inv.settled (by simp [running]) before
      refine ⟨value, hvalue, ?_⟩
      show Stores value _ ((env.setCall k _).calls i)
      rw [setCall_of_ne env _ (by omega)]
      exact stores.mono False.elim
    · refine ⟨_, next, ?_⟩
      show Stores _ _ ((env.setCall i _).calls i)
      rw [setCall_self]
      have waits := inv.waits i le_rfl
      refine ⟨.inl ⟨rfl, ?_⟩, fun pending => .inr ⟨⟨task, rfl, hcall⟩, waits.waker pending⟩⟩
      cases poller : (env.calls i).poller with
      | idle => exact .inl rfl
      | looking => exact absurd poller held
      | pending => exact .inr rfl
      | ready value => exact absurd poller (waits.unread value)
  · intro i beyond
    have known : k < env.spawned.length := (List.getElem?_eq_some_iff.mp hop).1
    have ne : i ≠ k := by
      rintro rfl
      exact absurd known (Nat.not_lt.mpr beyond)
    show (env.setCall k _).calls i = _
    rw [setCall_of_ne env _ ne]
    exact inv.beyond i beyond

/-- Whoever waits is woken. -/
theorem Inv.notify (inv : Inv ocamlRuntime k env) {task : OCamlTask R T}
    (stored : env.executor = .stored task) : Inv ocamlRuntime k
    { env.setCall task.call
        { env.calls task.call with
          waker := false
          woken := (env.calls task.call).woken || (env.calls task.call).waker } with
      executor := .idle } := by
  have left := inv.left
  simp only [unfinished, stored] at left
  have below := inv.current task stored
  refine ⟨inv.runtime, left, ?_, ?_, ?_, ?_, ?_⟩
  · intro task' running
    cases running
  · intro task' stored'
    cases stored'
  · intro i above
    show Waits ((env.setCall task.call _).calls i)
    rw [setCall_of_ne env _ (by omega)]
    exact inv.waits i above
  · intro i before
    obtain ⟨value, hvalue, stores⟩ := inv.stores i before
    refine ⟨value, hvalue, ?_⟩
    show Stores value _ ((env.setCall task.call _).calls i)
    rcases eq_or_ne i task.call with rfl | ne
    · rw [setCall_self]
      refine ⟨stores.value, fun pending => .inl ?_⟩
      rcases stores.woken pending with woken | ⟨-, waker⟩
      · simp [woken]
      · simp [waker]
    · rw [setCall_of_ne env _ ne]
      refine stores.mono ?_
      intro notifies
      obtain ⟨other, stored', same⟩ := notifies
      rw [stored] at stored'
      cases stored'
      exact absurd same.symm ne
  · intro i (beyond : env.spawned.length ≤ i)
    have ne : i ≠ task.call := by
      have := inv.le
      omega
    show (env.setCall task.call _).calls i = _
    rw [setCall_of_ne env _ ne]
    exact inv.beyond i beyond

/-- What each step keeps. -/
theorem Inv.step (inv : Inv ocamlRuntime k env) {turn : Turn R T}
    (step : env.step turn = some env') : ∃ k', Inv ocamlRuntime k' env' := by
  cases turn with
  | spawn op =>
      cases step
      exact ⟨k, inv.spawn op⟩
  | shutdown =>
      cases step
      exact ⟨k, inv⟩
  | pollAgain i =>
      simp only [OCamlEnvironment.step] at step
      split at step
      next pending =>
        refine ⟨k, inv.lookAt (inv.known (by simp [pending])) ?_ step⟩
        simp [pending]
      next => cases step
  | poll i =>
      simp only [OCamlEnvironment.step] at step
      split at step
      next known =>
        split at step
        next idle => exact ⟨k, inv.lookAt known (by simp [idle]) step⟩
        next pending =>
          split at step
          next => exact ⟨k, inv.lookAt known (by simp [pending]) step⟩
          next => cases step
        next => cases step
      next => cases step
  | store i =>
      simp only [OCamlEnvironment.step] at step
      split at step
      next looking =>
        cases step
        exact ⟨k, inv.store looking⟩
      next => cases step
  | receive =>
      simp only [OCamlEnvironment.step] at step
      split at step
      next idle ready =>
        cases step
        exact ⟨k, inv.receive idle ready⟩
      next => cases step
  | start =>
      simp only [OCamlEnvironment.step] at step
      split at step
      next received =>
        split at step
        next => cases step
        next free =>
          cases step
          exact ⟨k, inv.start received free⟩
      next => cases step
  | finish =>
      simp only [OCamlEnvironment.step] at step
      split at step
      next running =>
        cases step
        exact ⟨k + 1, inv.finish running⟩
      next => cases step
  | notify =>
      simp only [OCamlEnvironment.step] at step
      split at step
      next stored =>
        cases step
        exact ⟨k, inv.notify stored⟩
      next => cases step

/-- Some tasks have stored their results, and nothing is lost. -/
def Sound (ocamlRuntime : R) (env : OCamlEnvironment R T) : Prop := ∃ k, Inv ocamlRuntime k env

theorem sound_step (env : OCamlEnvironment R T) (turn : Turn R T) (env' : OCamlEnvironment R T)
    (sound : Sound ocamlRuntime env) (step : env.step turn = some env') :
    Sound ocamlRuntime env' := by
  obtain ⟨k, inv⟩ := sound
  exact inv.step step

theorem sound_run {turns : List (Turn R T)}
    (run : (initializeEnvironment ocamlRuntime).run turns = some env) : Sound ocamlRuntime env :=
  Transition.run_keeps sound_step ⟨0, inv_initialize ocamlRuntime⟩ run

/-- A future only returns what its task has stored. -/
theorem Inv.value_of_ready (inv : Inv ocamlRuntime k env) {value : Except OCamlBlockPanic T}
    (ready : (env.calls i).poller = .ready value) :
    valueOf ocamlRuntime env.spawned i = some value := by
  rcases Nat.lt_or_ge i k with below | above
  · obtain ⟨value', hvalue, stores⟩ := inv.stores i below
    obtain ⟨-, idle | pending⟩ | ⟨-, ready'⟩ := stores.value
    · rw [ready] at idle
      cases idle
    · rw [ready] at pending
      cases pending
    · rw [ready] at ready'
      cases ready'
      exact hvalue
  · exact absurd ready ((inv.waits i above).unread value)

/-- Whatever the threads do, the tasks are run one at a time in the order in which they were sent,
and the value a future returns is the one its task has there. -/
theorem calls_sequential {turns : List (Turn R T)}
    (run : (initializeEnvironment ocamlRuntime).run turns = some env) :
    (∃ k ≤ env.spawned.length, env.ocamlRuntime = runtimeAfter ocamlRuntime (env.spawned.take k)) ∧
      ∀ i value, (env.calls i).poller = .ready value →
        valueOf ocamlRuntime env.spawned i = some value := by
  obtain ⟨k, inv⟩ := sound_run run
  exact ⟨⟨k, inv.le, inv.runtime⟩, fun i value ready => inv.value_of_ready ready⟩

/-! ## Every future returns -/

/-- What a thread that polls may still do: poll and store its waker, and once more when it was
woken. -/
def callWork (call : OCamlCallResult T) : Nat :=
  (match call.poller with
    | .idle => 2
    | .looking => 1
    | .pending => 0
    | .ready _ => 0) + if call.woken then 2 else 0

/-- What the executor may still do with the task in its hands, and what wakes a thread counts for
that thread. -/
def executorWork : Executor R T → Nat
  | .idle => 0
  | .received _ => 5
  | .running _ => 4
  | .stored _ => 3

/-- What is still to be done. -/
def work (env : OCamlEnvironment R T) : Nat :=
  (∑ i ∈ Finset.range env.spawned.length, callWork (env.calls i)) + executorWork env.executor +
    6 * env.readyTasks.length

theorem callWork_le (call : OCamlCallResult T) : callWork call ≤ 4 := by
  unfold callWork
  split <;> split <;> omega

/-- One future changes. -/
theorem work_setCall (env : OCamlEnvironment R T) (call : OCamlCallResult T)
    (known : i < env.spawned.length) :
    (env.setCall i call).work + callWork (env.calls i) = env.work + callWork call := by
  have mem : i ∈ Finset.range env.spawned.length := Finset.mem_range.mpr known
  have changed : ∀ j, callWork (Function.update env.calls i call j) =
      Function.update (fun j => callWork (env.calls j)) i (callWork call) j :=
    fun j => Function.apply_update (fun _ => callWork) env.calls i call j
  have sum := Finset.sum_eq_add_sum_sdiff_singleton_of_mem mem fun j => callWork (env.calls j)
  simp only [work, setCall, changed]
  rw [Finset.sum_update_of_mem mem, sum]
  omega

/-- So does the executor, and both have less to do together. -/
theorem turn_falls {call : OCamlCallResult T} {rt : R} {executor : Executor R T}
    (known : i < env.spawned.length) (less : callWork call + executorWork executor <
      callWork (env.calls i) + executorWork env.executor) :
    ({ env.setCall i call with
      ocamlRuntime := rt
      executor := executor } : OCamlEnvironment R T).work < env.work := by
  have moved := work_setCall env call known
  simp only [work, setCall] at moved ⊢
  omega

theorem lookAt_falls (known : i < env.spawned.length) (due : 2 ≤ callWork (env.calls i))
    (step : env.lookAt i = some env') : env'.work < env.work := by
  simp only [lookAt] at step
  split at step
  next => cases step
  next =>
    split at step <;> cases step
    all_goals
      refine turn_falls known (Nat.add_lt_add_right (lt_of_lt_of_le ?_ due) _)
      simp [callWork]

/-- Each turn that gets calls done leaves less to do. -/
theorem Inv.falls (inv : Inv ocamlRuntime k env) {turn : Turn R T} (works : turn.works = true)
    (step : env.step turn = some env') : env'.work < env.work := by
  cases turn with
  | spawn op => cases works
  | shutdown => cases works
  | pollAgain i => cases works
  | poll i =>
      simp only [OCamlEnvironment.step] at step
      split at step
      next known =>
        split at step
        next idle => exact lookAt_falls known (by simp [callWork, idle]) step
        next pending =>
          split at step
          next woken => exact lookAt_falls known (by simp [callWork, pending, woken]) step
          next => cases step
        next => cases step
      next => cases step
  | store i =>
      simp only [OCamlEnvironment.step] at step
      split at step
      next looking =>
        cases step
        refine turn_falls (inv.known (i := i) (by simp [looking])) (Nat.add_lt_add_right ?_ _)
        simp [callWork, looking]
      next => cases step
  | receive =>
      simp only [OCamlEnvironment.step] at step
      split at step
      next idle ready =>
        cases step
        simp only [work, idle, ready, executorWork, List.length_cons]
        omega
      next => cases step
  | start =>
      simp only [OCamlEnvironment.step] at step
      split at step
      next received =>
        split at step
        next => cases step
        next =>
          cases step
          simp only [work, received, executorWork]
          omega
      next => cases step
  | finish =>
      simp only [OCamlEnvironment.step] at step
      split at step
      next task running =>
        cases step
        have left := inv.left
        simp only [unfinished, running] at left
        have known : task.call < env.spawned.length := by
          rw [left.1]
          exact (List.getElem?_eq_some_iff.mp left.2.1).1
        refine turn_falls known ?_
        simp only [running, executorWork, callWork]
        omega
      next => cases step
  | notify =>
      simp only [OCamlEnvironment.step] at step
      split at step
      next task stored =>
        cases step
        have known := (inv.current task stored).trans_le inv.le
        refine turn_falls known ?_
        have most : ∀ b : Bool, (if b then 2 else 0) ≤ 2 := by decide
        have woken := most ((env.calls task.call).woken || (env.calls task.call).waker)
        simp only [stored, executorWork, callWork]
        omega
      next => cases step

/-- There is not more to do than ten steps for each task. -/
theorem Inv.work_le (inv : Inv ocamlRuntime k env) : env.work ≤ 10 * env.spawned.length := by
  have calls := Finset.sum_le_card_nsmul (Finset.range env.spawned.length)
    (fun i => callWork (env.calls i)) 4 fun i _ => callWork_le _
  rw [Finset.card_range, smul_eq_mul] at calls
  have length := inv.left.length
  unfold work
  cases executor : env.executor with
  | idle =>
      simp only [unfinished, executor] at length
      simp only [executorWork]
      omega
  | received task =>
      simp only [unfinished, executor, List.length_cons] at length
      simp only [executorWork]
      omega
  | running task =>
      simp only [unfinished, executor, List.length_cons] at length
      simp only [executorWork]
      omega
  | stored task =>
      have current := inv.current task executor
      simp only [unfinished, executor] at length
      simp only [executorWork]
      omega

/-- A future that is not in use can be looked at. -/
theorem lookAt_ne_none (free : env.holds i = false) : env.lookAt i ≠ none := by
  intro none
  simp only [lookAt, free, Bool.false_eq_true, if_false] at none
  split at none <;> cases none

/-- When nothing can move, every future has returned. -/
theorem Inv.returned (inv : Inv ocamlRuntime k env)
    (stuck : ∀ turn : Turn R T, turn.works = true → env.step turn = none)
    (known : i < env.spawned.length) : ∃ value, (env.calls i).poller = .ready value := by
  have unlooking : ∀ j, (env.calls j).poller ≠ .looking := by
    intro j looking
    have none := stuck (.store j) rfl
    simp [OCamlEnvironment.step, looking] at none
  have idle : env.executor = .idle := by
    cases executor : env.executor with
    | idle => rfl
    | received task =>
        have none := stuck .start rfl
        simp only [OCamlEnvironment.step, executor] at none
        split at none
        next looking => exact absurd looking (unlooking task.call)
        next => cases none
    | running task =>
        have none := stuck .finish rfl
        simp [OCamlEnvironment.step, executor] at none
    | stored task =>
        have none := stuck .notify rfl
        simp [OCamlEnvironment.step, executor] at none
  have empty : env.readyTasks = [] := by
    cases ready : env.readyTasks with
    | nil => rfl
    | cons task tasks =>
        have none := stuck .receive rfl
        simp [OCamlEnvironment.step, idle, ready] at none
  have all : env.spawned.length = k := by
    have length := inv.left.length
    simp only [unfinished, idle, empty, List.length_nil] at length
    omega
  rw [all] at known
  obtain ⟨value, -, stores⟩ := inv.settled (by simp [idle]) known
  have looks : env.lookAt i ≠ none := lookAt_ne_none (by simp [holds, idle])
  have none := stuck (.poll i) rfl
  cases poller : (env.calls i).poller with
  | idle =>
      simp only [OCamlEnvironment.step, all, known, poller, if_true] at none
      exact absurd none looks
  | looking => exact absurd poller (unlooking i)
  | pending =>
      -- Its result is there, so that it was woken.
      obtain woken | ⟨never, -⟩ := stores.woken poller
      · simp only [OCamlEnvironment.step, all, known, poller, woken, if_true] at none
        exact absurd none looks
      · exact never.elim
  | ready value => exact ⟨value, rfl⟩

/-- From wherever a run has come, turns that get calls done are at most ten for each task; when
no such turn is left every future has returned the value its task has when the tasks are run in
order.  This is so after a shutdown as before. -/
theorem calls_return {turns : List (Turn R T)}
    (run : (initializeEnvironment ocamlRuntime).run turns = some env) :
    (∀ more env', (∀ turn ∈ more, turn.works = true) → env.run more = some env' →
      more.length ≤ 10 * env.spawned.length) ∧
    ((∀ turn : Turn R T, turn.works = true → env.step turn = none) →
      ∀ i < env.spawned.length, ∃ value, (env.calls i).poller = .ready value ∧
        valueOf ocamlRuntime env.spawned i = some value) := by
  obtain ⟨k, inv⟩ := sound_run run
  constructor
  · intro more env' works more_run
    have falls : ∀ turn ∈ more, ∀ s t : OCamlEnvironment R T, Sound ocamlRuntime s →
        s.step turn = some t → t.work < s.work := by
      intro turn mem s t inv step
      obtain ⟨k, inv⟩ := inv
      exact inv.falls (works turn mem) step
    have bound := Transition.length_le_rank sound_step falls ⟨k, inv⟩ more_run
    exact (Nat.le_of_add_right_le bound).trans inv.work_le
  · intro stuck i known
    obtain ⟨value, ready⟩ := inv.returned stuck known
    exact ⟨value, ready, inv.value_of_ready ready⟩

/-! Two tasks, of which the second panics, and a thread that waits for it. -/

def countUp : Op Nat Nat := fun n => (some n, n + 1)

def crash : Op Nat Nat := fun n => (none, n)

def twoTasks : List (Turn Nat Nat) :=
  [.spawn countUp, .spawn crash, .poll 1, .receive, .start, .store 1, .finish, .notify, .shutdown,
    .receive, .start, .finish, .poll 0, .notify, .poll 1]

theorem calls_sequential_two : ∃ env, (initializeEnvironment 5).run twoTasks = some env ∧
    env.ocamlRuntime = 6 ∧ valueOf 5 env.spawned 0 = some (.ok 5) ∧
    valueOf 5 env.spawned 1 = some (.error .blockPanic) := by
  obtain ⟨env, run⟩ : ∃ env, (initializeEnvironment 5).run twoTasks = some env := ⟨_, rfl⟩
  have values := (calls_sequential run).2
  refine ⟨env, run, ?_, values 0 _ ?_, values 1 _ ?_⟩
  · cases run
    rfl
  · cases run
    rfl
  · cases run
    rfl

theorem calls_return_two : ∃ env, (initializeEnvironment 5).run twoTasks = some env ∧
    (∀ more env', (∀ turn ∈ more, turn.works = true) → env.run more = some env' →
      more.length ≤ 10 * env.spawned.length) ∧
    ∀ i < env.spawned.length, ∃ value, (env.calls i).poller = .ready value ∧
      valueOf 5 env.spawned i = some value := by
  obtain ⟨env, run⟩ : ∃ env, (initializeEnvironment 5).run twoTasks = some env := ⟨_, rfl⟩
  obtain ⟨bounded, returned⟩ := calls_return run
  obtain ⟨k, inv⟩ := sound_run run
  have length : env.spawned.length = 2 := by
    cases run
    rfl
  have beyond : ∀ i, env.calls (i + 2) = .fresh := fun i =>
    inv.beyond (i + 2) (by simp [length])
  refine ⟨env, run, bounded, returned ?_⟩
  intro turn works
  cases turn with
  | spawn | shutdown | pollAgain => cases works
  | receive | start | finish | notify =>
      cases run
      rfl
  | poll i =>
      rcases i with _ | _ | i
      · cases run
        rfl
      · cases run
        rfl
      · simp [OCamlEnvironment.step, length]
  | store i =>
      rcases i with _ | _ | i
      · cases run
        rfl
      · cases run
        rfl
      · simp [OCamlEnvironment.step, beyond, OCamlCallResult.fresh]

end OCamlEnvironment

end Interop

end NodeFuzzer
