import NodeFuzzer.Library.Exec

/-!
# Calls that append to a buffer

A call over a buffer appends when it leaves what is already there alone, however
it ends.  `Exec.Appends x w` says so, and that `x` ends as `w` does: with a value
and the items it has appended, with an error, or with a panic.
-/

namespace NodeFuzzer

variable {ε δ α β γ : Type}

/-- One call after another: the second appends behind what the first has appended. -/
def Outcome.followedBy (w : Outcome ε (α × List γ)) (v : α → Outcome ε (β × List γ)) :
    Outcome ε (β × List γ) :=
  match w with
  | .ok (a, items) =>
      match v a with
      | .ok (b, items') => .ok (b, items ++ items')
      | .err e => .err e
      | .panic => .panic
  | .err e => .err e
  | .panic => .panic

/-- How a call ended, and the buffer it has left, when it started from `data`. -/
def Outcome.AppendedTo (w : Outcome ε (α × List γ)) (data : List γ)
    (r : Outcome ε α × List γ) : Prop :=
  match w with
  | .ok (a, items) => r = (.ok a, data ++ items)
  | .err e => r.1 = .err e ∧ data <+: r.2
  | .panic => r.1 = .panic ∧ data <+: r.2

/-- The buffer was larger at the start. -/
theorem Outcome.AppendedTo.behind {v : Outcome ε (α × List γ)} {data items : List γ}
    {r : Outcome ε α × List γ} (h : v.AppendedTo (data ++ items) r) :
    ((Outcome.ok ((), items)).followedBy fun _ => v).AppendedTo data r := by
  have hstart := List.prefix_append data items
  match v with
  | .ok (a, items') => simpa [followedBy, AppendedTo] using h
  | .err e => exact ⟨h.1, hstart.trans h.2⟩
  | .panic => exact ⟨h.1, hstart.trans h.2⟩

namespace Exec

/-- The call ends as `w` does, and only appends. -/
def Appends (x : Exec (List γ) ε α) (w : Outcome ε (α × List γ)) : Prop :=
  ∀ data : List γ, w.AppendedTo data (x data)

variable {x : Exec (List γ) ε α} {w w' : Outcome ε (α × List γ)}

theorem Appends.congr (h : Appends x w) (heq : w = w') : Appends x w' := heq ▸ h

/-- What was in the buffer stands at its start. -/
theorem Appends.isPrefix (h : Appends x w) (data : List γ) : data <+: (x data).2 := by
  have hdata := h data
  match w with
  | .ok (a, items) =>
      rw [hdata]
      exact List.prefix_append data items
  | .err e => exact hdata.2
  | .panic => exact hdata.2

/-- A value was returned with the items that were appended. -/
theorem Appends.of_ok (h : Appends x w) {data : List γ} {a : α} (hok : (x data).1 = .ok a) :
    ∃ items, w = .ok (a, items) ∧ (x data).2 = data ++ items := by
  have hdata := h data
  match w with
  | .ok (a', items) =>
      have hx : x data = (.ok a', data ++ items) := hdata
      rw [hx] at hok
      cases hok
      exact ⟨items, rfl, by rw [hx]⟩
  | .err e => cases hok.symm.trans hdata.1
  | .panic => cases hok.symm.trans hdata.1

theorem appends_pure (a : α) : Appends (pure a : Exec (List γ) ε α) (.ok (a, [])) := by
  intro data
  show (Outcome.ok a, data) = _
  rw [List.append_nil]

theorem appends_put (items : List γ) :
    Appends (modify (· ++ items) : Exec (List γ) ε Unit) (.ok ((), items)) := fun _ => rfl

theorem appends_fail (e : ε) : Appends (fail e : Exec (List γ) ε α) (.err e) := fun data =>
  ⟨rfl, List.prefix_refl data⟩

theorem appends_abort : Appends (abort : Exec (List γ) ε α) .panic := fun data =>
  ⟨rfl, List.prefix_refl data⟩

/-- A call that does not return ends the sequence. -/
theorem bind_not_ok {f : α → Exec (List γ) ε β} {data : List γ} :
    (∀ e, (x data).1 = .err e → (x >>= f) data = (.err e, (x data).2)) ∧
      ((x data).1 = .panic → (x >>= f) data = (.panic, (x data).2)) := by
  have hbind : (x >>= f) data = Exec.bind x f data := rfl
  rw [hbind, Exec.bind]
  rcases x data with ⟨a | e | _, data'⟩ <;> simp

/-- The rule for a sequence of calls, at one buffer. -/
theorem appendedTo_bind {f : α → Exec (List γ) ε β} {v : α → Outcome ε (β × List γ)}
    {data : List γ} (hx : w.AppendedTo data (x data))
    (hf : ∀ a items, w = .ok (a, items) → (v a).AppendedTo (data ++ items) (f a (data ++ items))) :
    (w.followedBy v).AppendedTo data ((x >>= f) data) := by
  match w with
  | .ok (a, items) =>
      have hrest := hf a items rfl
      rw [bind_ok hx]
      have hbehind := hrest.behind
      cases hv : v a <;> simpa [Outcome.followedBy, hv] using hbehind
  | .err e =>
      rw [Outcome.followedBy, bind_not_ok.1 e hx.1]
      exact ⟨rfl, hx.2⟩
  | .panic =>
      rw [Outcome.followedBy, bind_not_ok.2 hx.1]
      exact ⟨rfl, hx.2⟩

theorem Appends.bind {f : α → Exec (List γ) ε β} {v : α → Outcome ε (β × List γ)}
    (hx : Appends x w) (hf : ∀ a items, w = .ok (a, items) → Appends (f a) (v a)) :
    Appends (x >>= f) (w.followedBy v) := fun data =>
  appendedTo_bind (hx data) fun a items h => hf a items h (data ++ items)

theorem Appends.mapErr {y : Exec (List γ) δ α} {u : Outcome δ (α × List γ)} (h : Appends y u)
    (g : δ → ε) : Appends (Exec.mapErr g y) (u.mapErr g) := by
  intro data
  have hdata := h data
  match u with
  | .ok (a, items) =>
      have hy : y data = (.ok a, data ++ items) := hdata
      simp [Exec.mapErr, Outcome.mapErr, Outcome.AppendedTo, hy]
  | .err e =>
      obtain ⟨hend, hstart⟩ := hdata
      rcases hy : y data with ⟨_ | _ | _, data'⟩ <;> rw [hy] at hend hstart <;> cases hend
      simpa [Exec.mapErr, Outcome.mapErr, Outcome.AppendedTo, hy] using hstart
  | .panic =>
      obtain ⟨hend, hstart⟩ := hdata
      rcases hy : y data with ⟨_ | _ | _, data'⟩ <;> rw [hy] at hend hstart <;> cases hend
      simpa [Exec.mapErr, Outcome.mapErr, Outcome.AppendedTo, hy] using hstart

end Exec

end NodeFuzzer
