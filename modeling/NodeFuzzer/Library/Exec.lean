import Mathlib.Order.Defs.Unbundled

/-!
# Stateful calls that may fail

A call of imperative code reads and writes a state and ends in one of three
ways: it returns a value, it returns an error, or it panics.  The state is kept
in all three cases, so an update made before an error is visible after it.

`Exec.wp` is the weakest precondition of such a call for two postconditions,
one for a returned value and one for the state left behind by an error or a
panic.  The rules below take a call apart along its binds.

`Exec.Steps` is a relation between the states before and after a call, however it
ends.  When the relation is a preorder, a call steps by it as soon as its parts do.
-/

namespace NodeFuzzer

/-- How a call ended. -/
inductive Outcome (ε α : Type) where
  /-- The call returned a value. -/
  | ok (a : α)
  /-- The call returned an error. -/
  | err (e : ε)
  /-- The call panicked, overflowed its stack or did not return. -/
  | panic
deriving DecidableEq, Repr

/-- The call returned a value. -/
def Outcome.isOk {ε α : Type} : Outcome ε α → Bool
  | .ok _ => true
  | _ => false

theorem Outcome.exists_of_isOk {ε α : Type} {o : Outcome ε α} (h : o.isOk = true) :
    ∃ a, o = .ok a := by
  cases o with
  | ok a => exact ⟨a, rfl⟩
  | err e => cases h
  | panic => cases h

namespace Outcome

variable {ε δ α β : Type}

/-- Translate the error. -/
def mapErr (f : δ → ε) : Outcome δ α → Outcome ε α
  | .ok a => .ok a
  | .err e => .err (f e)
  | .panic => .panic

/-- Go on with the value. -/
def bind (o : Outcome ε α) (f : α → Outcome ε β) : Outcome ε β :=
  match o with
  | .ok a => f a
  | .err e => .err e
  | .panic => .panic

/-- Change the value. -/
def map (f : α → β) (o : Outcome ε α) : Outcome ε β := o.bind fun a => .ok (f a)

/-- One outcome for each element in order, until one is no value. -/
def each (f : α → Outcome ε β) : List α → Outcome ε (List β)
  | [] => .ok []
  | a :: rest => (f a).bind fun b => (each f rest).bind fun bs => .ok (b :: bs)

theorem of_map_ok {g : α → β} {o : Outcome ε α} {b : β} (h : o.map g = .ok b) :
    ∃ a, o = .ok a ∧ b = g a := by
  cases o <;> cases h
  exact ⟨_, rfl, rfl⟩

theorem of_map_err {g : α → β} {o : Outcome ε α} {e : ε} (h : o.map g = .err e) : o = .err e := by
  cases o <;> cases h
  rfl

theorem mapErr_err_iff {g : δ → Unit} {o : Outcome δ α} :
    o.mapErr g = .err () ↔ ∃ e, o = .err e := by
  cases o <;> simp [mapErr]

variable {f : α → Outcome ε β} {l : List α}

/-- Values all along are collected. -/
theorem each_ok {g : α → β} (h : ∀ a ∈ l, f a = .ok (g a)) : each f l = .ok (l.map g) := by
  induction l with
  | nil => rfl
  | cons a rest ih =>
      rw [each, h a List.mem_cons_self, ih fun b mem => h b (List.mem_cons_of_mem a mem)]
      rfl

theorem each_ok_of_forall (h : ∀ a ∈ l, ∃ b, f a = .ok b) : ∃ bs, each f l = .ok bs := by
  induction l with
  | nil => exact ⟨[], rfl⟩
  | cons a rest ih =>
      obtain ⟨b, hb⟩ := h a List.mem_cons_self
      obtain ⟨bs, hbs⟩ := ih fun c hc => h c (List.mem_cons_of_mem a hc)
      exact ⟨b :: bs, by simp only [each, bind, hb, hbs]⟩

/-- Every element has its value among those collected. -/
theorem of_each_ok {bs : List β} (h : each f l = .ok bs) {a : α} (ha : a ∈ l) :
    ∃ b ∈ bs, f a = .ok b := by
  induction l generalizing bs with
  | nil => exact absurd ha List.not_mem_nil
  | cons c rest ih =>
      rw [each] at h
      cases hc : f c with
      | ok b =>
          cases hrest : each f rest with
          | ok bs' =>
              simp only [bind, hc, hrest] at h
              cases h
              rcases List.mem_cons.mp ha with rfl | ha
              · exact ⟨b, List.mem_cons_self, hc⟩
              · obtain ⟨b', mem, hb⟩ := ih hrest ha
                exact ⟨b', List.mem_cons_of_mem _ mem, hb⟩
          | err e => simp [bind, hc, hrest] at h
          | panic => simp [bind, hc, hrest] at h
      | err e => simp [bind, hc] at h
      | panic => simp [bind, hc] at h

/-- An error comes from the first element that is no value. -/
theorem each_err_iff {e : ε} : each f l = .err e ↔
    ∃ pre a post, l = pre ++ a :: post ∧ (∀ c ∈ pre, ∃ b, f c = .ok b) ∧ f a = .err e := by
  induction l with
  | nil => simp [each]
  | cons a rest ih =>
      rw [each]
      cases ha : f a with
      | ok b =>
          have later : each f (a :: rest) = .err e ↔ each f rest = .err e := by
            rw [each, ha]
            cases each f rest <;> simp [bind]
          rw [each, ha] at later
          rw [later, ih]
          constructor
          · rintro ⟨pre, c, post, rfl, hpre, hc⟩
            refine ⟨a :: pre, c, post, rfl, ?_, hc⟩
            intro d hd
            rcases List.mem_cons.mp hd with rfl | hd
            · exact ⟨b, ha⟩
            · exact hpre d hd
          · rintro ⟨_ | ⟨d, pre⟩, c, post, heq, hpre, hc⟩
            · cases heq
              rw [ha] at hc
              cases hc
            · cases heq
              exact ⟨pre, c, post, rfl, fun d hd => hpre d (List.mem_cons_of_mem _ hd), hc⟩
      | err e' =>
          constructor
          · intro h
            cases h
            exact ⟨[], a, rest, rfl, by simp, ha⟩
          · rintro ⟨_ | ⟨d, pre⟩, c, post, heq, hpre, hc⟩
            · cases heq
              rw [ha] at hc
              cases hc
              rfl
            · cases heq
              obtain ⟨b, hb⟩ := hpre a List.mem_cons_self
              rw [ha] at hb
              cases hb
      | panic =>
          constructor
          · intro h
            cases h
          · rintro ⟨_ | ⟨d, pre⟩, c, post, heq, hpre, hc⟩
            · cases heq
              rw [ha] at hc
              cases hc
            · cases heq
              obtain ⟨b, hb⟩ := hpre a List.mem_cons_self
              rw [ha] at hb
              cases hb

end Outcome

/-- A call over the state `σ` with errors `ε`. -/
def Exec (σ ε α : Type) : Type := σ → Outcome ε α × σ

namespace Exec

variable {σ τ ε δ α β : Type}

/-- Return a value and leave the state alone. -/
protected def pure (a : α) : Exec σ ε α := fun s => (.ok a, s)

/-- Run a call and hand its value to the next one. -/
protected def bind (x : Exec σ ε α) (f : α → Exec σ ε β) : Exec σ ε β := fun s =>
  match x s with
  | (.ok a, s') => f a s'
  | (.err e, s') => (.err e, s')
  | (.panic, s') => (.panic, s')

instance : Monad (Exec σ ε) where
  pure := Exec.pure
  bind := Exec.bind

/-- Return an error. -/
def fail (e : ε) : Exec σ ε α := fun s => (.err e, s)

/-- Panic. -/
def abort : Exec σ ε α := fun s => (.panic, s)

/-- Read a part of the state. -/
def gets (f : σ → α) : Exec σ ε α := fun s => (.ok (f s), s)

/-- Update the state. -/
def modify (f : σ → σ) : Exec σ ε Unit := fun s => (.ok (), f s)

/-- A call that reads the state and may fail. -/
def query (f : σ → Except ε α) : Exec σ ε α := fun s =>
  match f s with
  | .ok a => (.ok a, s)
  | .error e => (.err e, s)

/-- The value of an option, or the error `e`. -/
def orFail (e : ε) : Option α → Exec σ ε α
  | some a => pure a
  | none => fail e

/-- The value of an option, or a panic. -/
def orAbort : Option α → Exec σ ε α
  | some a => pure a
  | none => abort

/-- The value of a result, or a panic. -/
def unwrap : Except δ α → Exec σ ε α
  | .ok a => pure a
  | .error _ => abort

/-- Translate the error of a call, as `?` does through `From`. -/
def mapErr (f : δ → ε) (x : Exec σ δ α) : Exec σ ε α := fun s =>
  match x s with
  | (.ok a, s') => (.ok a, s')
  | (.err e, s') => (.err (f e), s')
  | (.panic, s') => (.panic, s')

/-- Go on from the error of a call. -/
def handle (f : δ → Exec σ ε α) (x : Exec σ δ α) : Exec σ ε α := fun s =>
  match x s with
  | (.ok a, s') => (.ok a, s')
  | (.err e, s') => f e s'
  | (.panic, s') => (.panic, s')

/-- Run a call on a component of a larger state. -/
def onPart (get : τ → σ) (put : σ → τ → τ) (x : Exec σ ε α) : Exec τ ε α := fun t =>
  ((x (get t)).1, put (x (get t)).2 t)

/-- Run a call on every element in order and collect the values. -/
def mapEach (f : α → Exec σ ε β) : List α → Exec σ ε (List β)
  | [] => pure []
  | a :: rest => do
      let b ← f a
      let bs ← mapEach f rest
      pure (b :: bs)

/-- Run a call on every element in order. -/
def forEach (f : α → Exec σ ε Unit) : List α → Exec σ ε Unit
  | [] => pure ()
  | a :: rest => do
      f a
      forEach f rest

/-- The value of a call is handed to the next one. -/
theorem bind_ok {x : Exec σ ε α} {f : α → Exec σ ε β} {s t : σ} {a : α} (h : x s = (.ok a, t)) :
    (x >>= f) s = f a t := by
  show Exec.bind x f s = _
  rw [Exec.bind, h]

/-- Computations that go the same way go on the same way. -/
theorem bind_congr_run {x y : Exec σ ε α} {f : α → Exec σ ε β} {s t : σ} (h : x s = y t) :
    (x >>= f) s = (y >>= f) t := by
  show Exec.bind x f s = Exec.bind y f t
  simp only [Exec.bind, h]

protected theorem bind_assoc {γ : Type} (x : Exec σ ε α) (f : α → Exec σ ε β)
    (g : β → Exec σ ε γ) : x >>= f >>= g = x >>= fun a => f a >>= g := by
  funext s
  show Exec.bind (Exec.bind x f) g s = Exec.bind x (fun a => Exec.bind (f a) g) s
  unfold Exec.bind
  rcases x s with ⟨a | e | _, s'⟩ <;> rfl

/-- What a sequence of two calls did that returned. -/
theorem of_bind_ok {x : Exec σ ε α} {f : α → Exec σ ε β} {s t : σ} {b : β}
    (h : (x >>= f) s = (.ok b, t)) : ∃ a s', x s = (.ok a, s') ∧ f a s' = (.ok b, t) := by
  change Exec.bind x f s = _ at h
  unfold Exec.bind at h
  split at h
  next a s' hx => exact ⟨a, s', hx, h⟩
  next => cases h
  next => cases h

theorem of_orAbort_ok {o : Option α} {s t : σ} {a : α}
    (h : (orAbort o : Exec σ ε α) s = (.ok a, t)) : o = some a ∧ t = s := by
  cases o with
  | none => cases h
  | some b =>
      cases h
      exact ⟨rfl, rfl⟩

theorem of_onPart_ok {get : τ → σ} {put : σ → τ → τ} {x : Exec σ ε α} {t t' : τ} {a : α}
    (h : onPart get put x t = (.ok a, t')) : ∃ s', x (get t) = (.ok a, s') ∧ t' = put s' t := by
  unfold onPart at h
  cases hx : x (get t) with
  | mk outcome s' =>
      rw [hx] at h
      cases h
      exact ⟨s', rfl, rfl⟩

/-! ## Weakest preconditions -/

/-- `Q` holds of the value and state `x` returns from `s`, and `E` of the state
it leaves when it returns none. -/
def wp (x : Exec σ ε α) (Q : α → σ → Prop) (E : σ → Prop) (s : σ) : Prop :=
  match x s with
  | (.ok a, s') => Q a s'
  | (.err _, s') => E s'
  | (.panic, s') => E s'

variable {x : Exec σ ε α} {f : α → Exec σ ε β} {s : σ}
variable {Q Q' : α → σ → Prop} {R : β → σ → Prop} {E E' : σ → Prop}

@[simp] theorem wp_pure (a : α) : wp (pure a : Exec σ ε α) Q E s ↔ Q a s := Iff.rfl

@[simp] theorem wp_bind : wp (x >>= f) R E s ↔ wp x (fun a t => wp (f a) R E t) E s := by
  change wp (Exec.bind x f) R E s ↔ _
  unfold wp Exec.bind
  rcases x s with ⟨_ | _ | _, s'⟩ <;> rfl

@[simp] theorem wp_fail (e : ε) : wp (fail e : Exec σ ε α) Q E s ↔ E s := Iff.rfl

@[simp] theorem wp_abort : wp (abort : Exec σ ε α) Q E s ↔ E s := Iff.rfl

@[simp] theorem wp_gets (g : σ → α) : wp (gets g : Exec σ ε α) Q E s ↔ Q (g s) s := Iff.rfl

@[simp] theorem wp_modify (g : σ → σ) {Q : Unit → σ → Prop} :
    wp (modify g : Exec σ ε Unit) Q E s ↔ Q () (g s) := Iff.rfl

theorem wp_query (g : σ → Except ε α) (ok : ∀ a, g s = .ok a → Q a s)
    (error : ∀ e, g s = .error e → E s) : wp (query g) Q E s := by
  unfold wp query
  cases h : g s with
  | ok a => exact ok a h
  | error e => exact error e h

theorem wp_orFail (e : ε) (o : Option α) (some : ∀ a, o = some a → Q a s)
    (none : o = none → E s) : wp (orFail e o) Q E s := by
  cases o with
  | none => exact none rfl
  | some a => exact some a rfl

theorem wp_orAbort (o : Option α) (some : ∀ a, o = some a → Q a s)
    (none : o = none → E s) : wp (orAbort o : Exec σ ε α) Q E s := by
  cases o with
  | none => exact none rfl
  | some a => exact some a rfl

@[simp] theorem wp_unwrap_ok (a : α) : wp (unwrap (.ok a : Except δ α) : Exec σ ε α) Q E s ↔ Q a s :=
  Iff.rfl

@[simp] theorem wp_mapErr (g : δ → ε) (y : Exec σ δ α) : wp (mapErr g y) Q E s ↔ wp y Q E s := by
  unfold wp mapErr
  rcases y s with ⟨_ | _ | _, s'⟩ <;> rfl

theorem wp_handle {y : Exec σ δ α} {g : δ → Exec σ ε α} {F : σ → Prop} (h : wp y Q F s)
    (err : ∀ e t, F t → wp (g e) Q E t) (panic : ∀ t, F t → E t) :
    wp (handle g y) Q E s := by
  unfold wp at h ⊢
  unfold handle
  rcases hy : y s with ⟨_ | e | _, s'⟩ <;> rw [hy] at h
  · exact h
  · exact err e s' h
  · exact panic s' h

@[simp] theorem wp_onPart (get : τ → σ) (put : σ → τ → τ) {t : τ}
    {Q : α → τ → Prop} {E : τ → Prop} :
    wp (onPart get put x) Q E t ↔
      wp x (fun a s' => Q a (put s' t)) (fun s' => E (put s' t)) (get t) := by
  unfold wp onPart
  rcases x (get t) with ⟨_ | _ | _, s'⟩ <;> rfl

/-- Postconditions may be weakened. -/
theorem wp_mono (h : wp x Q E s) (hQ : ∀ a t, Q a t → Q' a t) (hE : ∀ t, E t → E' t) :
    wp x Q' E' s := by
  unfold wp at h ⊢
  rcases hx : x s with ⟨a | e | _, s'⟩ <;> rw [hx] at h
  · exact hQ _ _ h
  · exact hE _ h
  · exact hE _ h

/-- A loop that collects values: `I` relates the elements done, their values and the
state. -/
theorem wp_mapEach {f : α → Exec σ ε β} {l : List α} {I : List α → List β → σ → Prop}
    {E : σ → Prop} {s : σ} (init : I [] [] s)
    (step : ∀ done a bs t, a ∈ l → I done bs t →
      wp (f a) (fun b t' => I (done ++ [a]) (bs ++ [b]) t') E t) :
    wp (mapEach f l) (fun bs t => I l bs t) E s := by
  have loop : ∀ rest done bs t, (∀ a ∈ rest, a ∈ l) → I done bs t →
      wp (mapEach f rest) (fun bs' t' => I (done ++ rest) (bs ++ bs') t') E t := by
    intro rest
    induction rest with
    | nil =>
        intro done bs t _ h
        show I (done ++ []) (bs ++ []) t
        rw [List.append_nil, List.append_nil]
        exact h
    | cons a rest ih =>
        intro done bs t hmem h
        rw [mapEach, wp_bind]
        refine wp_mono (step done a bs t (hmem a List.mem_cons_self) h) ?_ fun _ ht => ht
        intro b t' hb
        rw [wp_bind]
        refine wp_mono (ih _ _ t' (fun c hc => hmem c (List.mem_cons_of_mem _ hc)) hb) ?_
          fun _ ht => ht
        intro bs' t'' hbs
        rw [List.append_assoc, List.append_assoc] at hbs
        exact hbs
  exact loop l [] [] s (fun _ ha => ha) init

/-- A loop without values. -/
theorem wp_forEach {f : α → Exec σ ε Unit} {l : List α} {I : List α → σ → Prop}
    {E : σ → Prop} {s : σ} (init : I [] s)
    (step : ∀ done a t, a ∈ l → I done t → wp (f a) (fun _ t' => I (done ++ [a]) t') E t) :
    wp (forEach f l) (fun _ t => I l t) E s := by
  have loop : ∀ rest done t, (∀ a ∈ rest, a ∈ l) → I done t →
      wp (forEach f rest) (fun _ t' => I (done ++ rest) t') E t := by
    intro rest
    induction rest with
    | nil =>
        intro done t _ h
        show I (done ++ []) t
        rw [List.append_nil]
        exact h
    | cons a rest ih =>
        intro done t hmem h
        rw [forEach, wp_bind]
        refine wp_mono (step done a t (hmem a List.mem_cons_self) h) ?_ fun _ ht => ht
        intro _ t' ht'
        have := ih _ t' (fun c hc => hmem c (List.mem_cons_of_mem _ hc)) ht'
        rwa [List.append_assoc] at this
  exact loop l [] s (fun _ ha => ha) init

/-- A loop that goes nowhere until one element makes it panic. -/
theorem mapEach_panic {f : α → Exec σ ε β} {l : List α} {a : α} {b : β}
    (mem : a ∈ l) (panic : f a s = (.panic, s)) (ok : ∀ c, c ≠ a → f c s = (.ok b, s)) :
    Exec.mapEach f l s = (.panic, s) := by
  induction l with
  | nil => exact absurd mem List.not_mem_nil
  | cons c rest ih =>
      show Exec.bind _ _ _ = _
      by_cases hc : c = a
      · rw [Exec.bind, hc, panic]
      · have hrest : a ∈ rest := (List.mem_cons.mp mem).resolve_left fun h => hc h.symm
        have htail : Exec.bind (Exec.mapEach f rest) (fun bs => pure (b :: bs)) s = (.panic, s) := by
          rw [Exec.bind, ih hrest]
        rw [Exec.bind, ok c hc]
        exact htail

/-- Two facts about one call hold together. -/
theorem wp_and (h : wp x Q E s) (h' : wp x Q' E' s) :
    wp x (fun a t => Q a t ∧ Q' a t) (fun t => E t ∧ E' t) s := by
  unfold wp at h h' ⊢
  rcases hx : x s with ⟨a | e | _, s'⟩ <;> rw [hx] at h h' <;> exact ⟨h, h'⟩

/-- What `wp` says of a call that returned. -/
theorem wp_ok (h : wp x Q E s) {a : α} {s' : σ} (run : x s = (.ok a, s')) : Q a s' := by
  unfold wp at h
  rw [run] at h
  exact h

/-- What `wp` says of a call that did not return. -/
theorem wp_failed (h : wp x Q E s) {outcome : Outcome ε α} {s' : σ} (run : x s = (outcome, s'))
    (failed : outcome.isOk = false) : E s' := by
  unfold wp at h
  rw [run] at h
  cases outcome with
  | ok a => cases failed
  | err e => exact h
  | panic => exact h

/-- A run whose outcome is known. -/
theorem run_eq {run : Outcome ε α × σ} {outcome : Outcome ε α} (h : run.1 = outcome) :
    run = (outcome, run.2) := Prod.ext h rfl

/-- What `wp` says of a run, however it ended. -/
theorem wp_run (h : wp x Q E s) {outcome : Outcome ε α} {s' : σ} (run : x s = (outcome, s')) :
    (∀ a, outcome = .ok a → Q a s') ∧ (outcome.isOk = false → E s') := by
  refine ⟨fun a ok => ?_, wp_failed h run⟩
  subst ok
  exact wp_ok h run

/-- What holds however a call ends, from how it ends. -/
theorem wp_of_run (ok : ∀ a s', x s = (.ok a, s') → Q a s')
    (failed : ∀ outcome s', x s = (outcome, s') → outcome.isOk = false → E s') : wp x Q E s := by
  unfold wp
  rcases hx : x s with ⟨a | e | _, s'⟩
  · exact ok a s' hx
  · exact failed _ s' hx rfl
  · exact failed _ s' hx rfl

/-- A call returns a value, or what is known of failures holds. -/
theorem wp_outcome (h : wp x Q E s) : (∃ a, (x s).1 = .ok a ∧ Q a (x s).2) ∨ E (x s).2 := by
  unfold wp at h
  revert h
  rcases x s with ⟨a | e | _, s'⟩
  · exact fun h => Or.inl ⟨a, rfl, h⟩
  · exact fun h => Or.inr h
  · exact fun h => Or.inr h

/-- The state after a call, however it ended. -/
theorem wp_state {P : σ → Prop} (h : wp x (fun _ => P) P s) : P (x s).2 := by
  unfold wp at h
  rcases hx : x s with ⟨a | e | _, s'⟩ <;> rw [hx] at h <;> exact h

/-- A call that can neither fail nor panic returns. -/
theorem wp_returns (h : wp x Q (fun _ => False) s) : ∃ a s', x s = (.ok a, s') ∧ Q a s' := by
  unfold wp at h
  rcases hx : x s with ⟨a | e | _, s'⟩ <;> rw [hx] at h
  · exact ⟨a, s', rfl, h⟩
  · exact h.elim
  · exact h.elim

/-! ## Steps -/

section Steps

variable {S : σ → σ → Prop}

/-- However the call ends, the state it leaves is related to the one before. -/
def Steps (S : σ → σ → Prop) (x : Exec σ ε α) : Prop := ∀ s, S s (x s).2

theorem steps_of_wp (h : ∀ s, wp x (fun _ t => S s t) (S s) s) : Steps S x := fun s => wp_state (h s)

theorem Steps.wp (h : Steps S x) (s : σ) : wp x (fun _ t => S s t) (S s) s := by
  have step := h s
  unfold Exec.wp
  rcases hx : x s with ⟨_ | _ | _, s'⟩ <;> rw [hx] at step <;> exact step

theorem Steps.mono {S' : σ → σ → Prop} (h : Steps S x) (le : ∀ s t, S s t → S' s t) : Steps S' x :=
  fun s => le _ _ (h s)

theorem steps_modify {g : σ → σ} (h : ∀ s, S s (g s)) : Steps S (modify g : Exec σ ε Unit) := h

theorem Steps.mapErr {g : δ → ε} {y : Exec σ δ α} (h : Steps S y) : Steps S (mapErr g y) :=
  steps_of_wp fun s => (wp_mapErr g y).mpr (h.wp s)

section Refl

variable [Std.Refl S]

@[simp] theorem steps_pure (a : α) : Steps S (pure a : Exec σ ε α) := fun s => Std.Refl.refl s

@[simp] theorem steps_fail (e : ε) : Steps S (fail e : Exec σ ε α) := fun s => Std.Refl.refl s

@[simp] theorem steps_abort : Steps S (abort : Exec σ ε α) := fun s => Std.Refl.refl s

@[simp] theorem steps_gets (g : σ → α) : Steps S (gets g : Exec σ ε α) := fun s => Std.Refl.refl s

@[simp] theorem steps_query (g : σ → Except ε α) : Steps S (query g) :=
  steps_of_wp fun s => wp_query g (fun _ _ => Std.Refl.refl s) fun _ _ => Std.Refl.refl s

@[simp] theorem steps_orFail (e : ε) (o : Option α) : Steps S (orFail e o : Exec σ ε α) := by
  cases o <;> exact fun s => Std.Refl.refl s

@[simp] theorem steps_orAbort (o : Option α) : Steps S (orAbort o : Exec σ ε α) := by
  cases o <;> exact fun s => Std.Refl.refl s

end Refl

variable [IsTrans σ S]

theorem Steps.bind (hx : Steps S x) (hf : ∀ a, Steps S (f a)) : Steps S (x >>= f) := by
  refine steps_of_wp fun s => wp_bind.mpr (wp_mono (hx.wp s) ?_ fun _ h => h)
  intro a t step
  exact wp_mono ((hf a).wp t) (fun _ u step' => IsTrans.trans _ _ _ step step')
    fun u step' => IsTrans.trans _ _ _ step step'

theorem Steps.handle {y : Exec σ δ α} {g : δ → Exec σ ε α} (hy : Steps S y)
    (hg : ∀ e, Steps S (g e)) : Steps S (handle g y) := by
  refine steps_of_wp fun s => wp_handle (hy.wp s) ?_ fun _ h => h
  intro e t step
  exact wp_mono ((hg e).wp t) (fun _ u step' => IsTrans.trans _ _ _ step step')
    fun u step' => IsTrans.trans _ _ _ step step'

theorem Steps.mapEach [Std.Refl S] {f : α → Exec σ ε β} {l : List α}
    (h : ∀ a ∈ l, Steps S (f a)) : Steps S (mapEach f l) := by
  induction l with
  | nil => exact steps_pure []
  | cons a rest ih =>
      have here := h a List.mem_cons_self
      have later := ih fun b mem => h b (List.mem_cons_of_mem a mem)
      exact here.bind fun b => later.bind fun bs => steps_pure (b :: bs)

end Steps

end Exec

end NodeFuzzer
