import NodeFuzzer.Generator.Cache

/-!
# Fitness counts

`gen_fitness` takes the lock of the shared state twice, to count on and to read the count.
Clones of one state take their locks in any order, so that a clone can read behind the count
of another one.  `returned_nodup_iff` says which runs return all counts once: those in which
there is always a call that counts between two calls that read.

A count that overflows panics under the lock where overflows are checked, and every later lock
panics then.  It starts again at zero where they are not.
-/

namespace NodeFuzzer

/-! ## Callers -/

/-- Where a clone is in `gen_fitness`. -/
inductive Caller where
  /-- Between two calls. -/
  | idle
  /-- It has counted, and reads under the lock it takes next. -/
  | reads
  | panicked
deriving DecidableEq

/-- A state that is shared, and its clones. -/
structure Callers where
  /-- `none` once a clone has panicked under the lock. -/
  shared : Option RandomState
  callers : List Caller
  /-- What the calls have returned, the last one first. -/
  returned : List Nat
  /-- The calls that have counted. -/
  calls : Nat
  /-- A call has counted since the last one has read. -/
  unread : Bool

/-- `fitness_count += 1`, with or without a check for an overflow. -/
def RandomState.countOn (checks : Bool) (s : RandomState) : Option RandomState :=
  if checks = true ∧ 2 ^ 64 ≤ s.fitnessCount + 1 then none
  else some { s with fitnessCount := (s.fitnessCount + 1) % 2 ^ 64 }

namespace Callers

/-- A state with no clones. -/
def start (s : RandomState) : Callers := ⟨some s, [], [], 0, false⟩

/-- A clone counts on. -/
def counts (checks : Bool) (c : Callers) (i : Nat) (s : RandomState) : Callers :=
  match s.countOn checks with
  | some s' =>
      { c with
        shared := some s'
        callers := c.callers.set i .reads
        calls := c.calls + 1
        unread := true }
  | none => { c with shared := none, callers := c.callers.set i .panicked }

/-- A clone reads the count, and its call returns. -/
def reads (c : Callers) (i : Nat) (s : RandomState) : Callers :=
  { c with
    callers := c.callers.set i .idle
    returned := s.fitnessCount :: c.returned
    unread := false }

/-- The next state. -/
def act (checks : Bool) (c : Callers) : CloneMove → Callers
  | .clone => { c with callers := c.callers ++ [.idle] }
  | .step i =>
      match c.callers[i]?, c.shared with
      | none, _ | some .panicked, _ => c
      | some _, none => { c with callers := c.callers.set i .panicked }
      | some .idle, some s => c.counts checks i s
      | some .reads, some s => c.reads i s

/-- The state after some moves. -/
def after (checks : Bool) (c : Callers) (moves : List CloneMove) : Callers :=
  moves.foldl (act checks) c

/-- A clone that reads does so behind a count that no other one has read. -/
def Fresh (c : Callers) : CloneMove → Prop
  | .step i => c.callers[i]? = some .reads → c.shared.isSome = true → c.unread = true
  | .clone => True

instance (c : Callers) : (move : CloneMove) → Decidable (c.Fresh move)
  | .step i =>
      inferInstanceAs
        (Decidable (c.callers[i]? = some .reads → c.shared.isSome = true → c.unread = true))
  | .clone => isTrue trivial

/-- All moves of a run are fresh where they are made. -/
def Separated (checks : Bool) : List CloneMove → Callers → Prop
  | [], _ => True
  | move :: moves, c => c.Fresh move ∧ Separated checks moves (c.act checks move)

instance decidableSeparated (checks : Bool) :
    (moves : List CloneMove) → (c : Callers) → Decidable (Separated checks moves c)
  | [], _ => isTrue trivial
  | move :: moves, c =>
      have := decidableSeparated checks moves (c.act checks move)
      inferInstanceAs (Decidable (c.Fresh move ∧ Separated checks moves (c.act checks move)))

/-! ## What a move does -/

/-- What a move means to the count and to what was returned. -/
inductive Moved (checks : Bool) (c : Callers) : CloneMove → Callers → Prop
  | quiet {move : CloneMove} {c' : Callers} (shared : c'.shared = c.shared ∨ c'.shared = none)
      (callers : .reads ∈ c'.callers → .reads ∈ c.callers) (returned : c'.returned = c.returned)
      (calls : c'.calls = c.calls) (unread : c'.unread = c.unread) : Moved checks c move c'
  | counted {i : Nat} {s s' : RandomState} (here : c.shared = some s)
      (counted : s.countOn checks = some s') :
      Moved checks c (.step i) ⟨some s', c.callers.set i .reads, c.returned, c.calls + 1, true⟩
  | read {i : Nat} {s : RandomState} (here : c.shared = some s)
      (caller : c.callers[i]? = some .reads) : Moved checks c (.step i) (c.reads i s)

theorem reads_mem_set {callers : List Caller} {i : Nat} {caller : Caller} (ne : caller ≠ .reads)
    (mem : Caller.reads ∈ callers.set i caller) : Caller.reads ∈ callers := by
  rcases List.mem_or_eq_of_mem_set mem with old | eq
  · exact old
  · exact absurd eq.symm ne

theorem moved_act (checks : Bool) (c : Callers) (move : CloneMove) :
    Moved checks c move (c.act checks move) := by
  cases move with
  | clone =>
      refine .quiet (.inl rfl) ?_ rfl rfl rfl
      intro mem
      simpa [act] using mem
  | step i =>
      simp only [act]
      split
      next => exact .quiet (.inl rfl) id rfl rfl rfl
      next => exact .quiet (.inl rfl) id rfl rfl rfl
      next => exact .quiet (.inl rfl) (reads_mem_set (by simp)) rfl rfl rfl
      next s _ here =>
        rw [counts]
        cases counted : s.countOn checks with
        | some s' => exact .counted here counted
        | none => exact .quiet (.inr rfl) (reads_mem_set (by simp)) rfl rfl rfl
      next s hi here => exact .read here hi

theorem returned_suffix (checks : Bool) (c : Callers) (move : CloneMove) :
    c.returned <:+ (c.act checks move).returned := by
  have moved := moved_act checks c move
  generalize c.act checks move = c' at moved ⊢
  cases moved with
  | quiet _ _ returned => exact returned ▸ List.suffix_refl _
  | counted => exact List.suffix_refl _
  | read => exact List.suffix_cons _ _

theorem returned_suffix_after (checks : Bool) (c : Callers) (moves : List CloneMove) :
    c.returned <:+ (c.after checks moves).returned := by
  induction moves generalizing c with
  | nil => exact List.suffix_refl _
  | cons move moves ih => exact (returned_suffix checks c move).trans (ih _)

/-! ## Two clones between a count and its reading -/

/-- The value of a count after a number of calls. -/
def valueAfter (first calls : Nat) : Nat := (first + calls) % 2 ^ 64

/-- What holds in a separated run from a state with the count `first`. -/
structure Counted (first : Nat) (c : Callers) : Prop where
  count : ∀ s, c.shared = some s → s.fitnessCount % 2 ^ 64 = valueAfter first c.calls
  reduced : ∀ s, c.shared = some s → 0 < c.calls → s.fitnessCount < 2 ^ 64
  begun : .reads ∈ c.callers → 0 < c.calls
  /-- The calls that were returned, as the number of calls that had counted. -/
  marks : ∃ marks : List Nat, c.returned = marks.map (valueAfter first) ∧
    marks.Pairwise (· > ·) ∧ (∀ m ∈ marks, m ≤ c.calls) ∧
    (c.unread = true → ∀ m ∈ marks, m < c.calls) ∧
    (c.unread = false → 0 < c.calls → c.calls ∈ marks)

theorem counted_start (s : RandomState) : Counted s.fitnessCount (start s) := by
  constructor
  · intro s' h
    cases h
    rfl
  · intro _ _ h
    exact absurd h (lt_irrefl 0)
  · simp [start]
  · exact ⟨[], by simp [start]⟩

/-- The count that is read is the one of all calls. -/
theorem Counted.value {first : Nat} {c : Callers} (h : Counted first c) {s : RandomState}
    (here : c.shared = some s) (mem : .reads ∈ c.callers) :
    s.fitnessCount = valueAfter first c.calls := by
  rw [← h.count s here, Nat.mod_eq_of_lt (h.reduced s here (h.begun mem))]

theorem valueAfter_countOn {checks : Bool} {s s' : RandomState}
    (h : s.countOn checks = some s') : s'.fitnessCount = valueAfter s.fitnessCount 1 := by
  rw [RandomState.countOn] at h
  split at h
  next => cases h
  next =>
    cases h
    rfl

theorem Counted.act {first : Nat} {checks : Bool} {c : Callers} {move : CloneMove}
    (h : Counted first c) (fresh : c.Fresh move) : Counted first (c.act checks move) := by
  have moved := moved_act checks c move
  generalize c.act checks move = c' at moved ⊢
  obtain ⟨marks, hreturned, hsorted, hle, hlt, hlast⟩ := h.marks
  cases moved with
  | quiet shared callers returned calls unread =>
      have still : ∀ s, c'.shared = some s → c.shared = some s := by
        intro s hs
        rcases shared with same | gone
        · exact same ▸ hs
        · rw [gone] at hs
          cases hs
      constructor
      · intro s hs
        rw [calls]
        exact h.count s (still s hs)
      · intro s hs
        rw [calls]
        exact h.reduced s (still s hs)
      · intro mem
        rw [calls]
        exact h.begun (callers mem)
      · exact ⟨marks, by rw [returned, hreturned], hsorted, by rwa [calls], by rwa [calls, unread],
          by rwa [calls, unread]⟩
  | @counted i s s' here counted =>
      have hvalue : s'.fitnessCount = valueAfter first (c.calls + 1) := by
        have hcount := h.count s here
        unfold valueAfter at hcount
        rw [valueAfter_countOn counted, valueAfter, ← Nat.mod_add_mod, hcount, Nat.mod_add_mod,
          valueAfter, Nat.add_assoc]
      have hreduced : s'.fitnessCount < 2 ^ 64 := by
        rw [hvalue]
        exact Nat.mod_lt _ (by decide)
      constructor
      · intro _ hs
        cases hs
        rw [Nat.mod_eq_of_lt hreduced]
        exact hvalue
      · intro _ hs _
        cases hs
        exact hreduced
      · exact fun _ => Nat.succ_pos _
      · refine ⟨marks, hreturned, hsorted, ?_, ?_, ?_⟩
        · exact fun m hm => (hle m hm).trans (Nat.le_succ _)
        · exact fun _ m hm => Nat.lt_succ_of_le (hle m hm)
        · simp
  | @read i s here caller =>
      have mem := List.mem_of_getElem? caller
      have hunread : c.unread = true := fresh caller (by simp [here])
      constructor
      · exact h.count
      · exact h.reduced
      · intro _
        exact h.begun mem
      · refine ⟨c.calls :: marks, ?_, ?_, ?_, ?_, ?_⟩
        · rw [List.map_cons, ← h.value here mem, ← hreturned]
          rfl
        · exact List.pairwise_cons.mpr ⟨hlt hunread, hsorted⟩
        · intro m hm
          rcases List.mem_cons.mp hm with rfl | hm
          · exact le_rfl
          · exact hle m hm
        · simp [reads]
        · exact fun _ _ => List.mem_cons_self

/-- Fewer than 2⁶⁴ calls have counts of their own. -/
theorem Counted.nodup {first : Nat} {c : Callers} (h : Counted first c) (few : c.calls < 2 ^ 64) :
    c.returned.Nodup := by
  obtain ⟨marks, hreturned, hsorted, hle, _⟩ := h.marks
  rw [hreturned, List.Nodup, List.pairwise_map]
  refine hsorted.imp_of_mem ?_
  intro a b ha hb hgt heq
  have hlta := (hle a ha).trans_lt few
  have hltb := (hle b hb).trans_lt few
  unfold valueAfter at heq
  omega

/-- A read that is not fresh returns a count for the second time. -/
theorem Counted.stale {first : Nat} {checks : Bool} {c : Callers} {move : CloneMove}
    (h : Counted first c) (stale : ¬ c.Fresh move) : ¬ (c.act checks move).returned.Nodup := by
  cases move with
  | clone => exact absurd trivial stale
  | step i =>
      rw [Fresh, Classical.not_imp, Classical.not_imp, Bool.not_eq_true] at stale
      obtain ⟨caller, here, hunread⟩ := stale
      obtain ⟨s, here⟩ := Option.isSome_iff_exists.mp here
      have mem := List.mem_of_getElem? caller
      obtain ⟨marks, hreturned, _, _, _, hlast⟩ := h.marks
      have hagain : s.fitnessCount ∈ c.returned := by
        rw [hreturned, h.value here mem]
        exact List.mem_map_of_mem (hlast hunread (h.begun mem))
      simp only [Callers.act, caller, here, reads, List.nodup_cons]
      exact fun hnodup => hnodup.1 hagain

theorem Counted.nodup_iff {first : Nat} {checks : Bool} {c : Callers} {moves : List CloneMove}
    (h : Counted first c) (few : (c.after checks moves).calls < 2 ^ 64) :
    (c.after checks moves).returned.Nodup ↔ Separated checks moves c := by
  induction moves generalizing c with
  | nil => exact iff_of_true (h.nodup few) trivial
  | cons move moves ih =>
      by_cases fresh : c.Fresh move
      · exact (ih (h.act fresh) few).trans (and_iff_right fresh).symm
      · refine iff_of_false ?_ fun separated => fresh separated.1
        intro hnodup
        exact h.stale fresh (hnodup.sublist (returned_suffix_after checks _ moves).sublist)

/-- Whatever the count of the state is, and with or without checks for overflows, fewer than
2⁶⁴ calls of any number of clones return counts of their own exactly in the runs in which a
call has counted between any two that read. -/
theorem returned_nodup_iff (checks : Bool) (s : RandomState) {moves : List CloneMove}
    (few : ((start s).after checks moves).calls < 2 ^ 64) :
    ((start s).after checks moves).returned.Nodup ↔ Separated checks moves (start s) :=
  (counted_start s).nodup_iff few

/-- Two clones whose calls overlap, and a third one that counts before the second of them reads. -/
theorem returned_nodup_overlapping : ((start (.new ⟨fun n => n⟩ 10 100)).after false
    [.clone, .clone, .clone, .step 0, .step 1, .step 0, .step 2, .step 1]).returned.Nodup :=
  (returned_nodup_iff false (.new ⟨fun n => n⟩ 10 100) (by decide)).mpr (by decide)

/-- Two clones that count before both of them read. -/
theorem returned_twice : ¬ ∀ (checks : Bool) (s : RandomState) (moves : List CloneMove),
    ((start s).after checks moves).calls < 2 ^ 64 →
      ((start s).after checks moves).returned.Nodup := by
  intro h
  have hnodup := h false (.new ⟨fun n => n⟩ 10 100)
    [.clone, .clone, .step 0, .step 1, .step 0, .step 1] (by decide)
  exact absurd hnodup (by decide)

/-! ## One call -/

/-- With nobody in between, the two locks of a clone are the call as a whole. -/
theorem act_genFitness {s t : RandomState} {n i : Nat} {c : Callers} (here : c.shared = some s)
    (caller : c.callers[i]? = some .idle) (h : RandomState.genFitness s = (.ok n, t)) :
    (c.act true (.step i)).act true (.step i) =
      ⟨some t, c.callers, n :: c.returned, c.calls + 1, false⟩ := by
  obtain ⟨count, s₁, hcount, h⟩ := Exec.of_bind_ok h
  cases hcount
  obtain ⟨lt, hi⟩ := List.getElem?_eq_some_iff.mp caller
  have hset : (c.callers.set i .reads)[i]? = some .reads := List.getElem?_set_self lt
  have hback : (c.callers.set i .reads).set i .idle = c.callers := by
    rw [List.set_set, ← hi, List.set_getElem_self]
  split at h
  next small =>
    cases h
    have hcounts : s.countOn true = some { s with fitnessCount := s.fitnessCount + 1 } := by
      rw [RandomState.countOn, if_neg (by omega), Nat.mod_eq_of_lt small]
    simp only [act, caller, here, counts, hcounts, hset, reads, hback]
  next => cases h

end Callers

end NodeFuzzer
