import Mathlib.Order.Basic

/-!
# Transition systems

A system is a partial step function: what a turn does to a state, and nothing when the turn is not
possible there.  A run takes turns one after the other.  What each step keeps a run keeps
(`run_keeps`), and a run whose turns all make a rank smaller is no longer than the rank
(`length_le_rank`).
-/

namespace NodeFuzzer

namespace Transition

variable {σ τ : Type} {step : σ → τ → Option σ} {s t : σ}

/-- The states and turns of a run. -/
def run (step : σ → τ → Option σ) (s : σ) : List τ → Option σ
  | [] => some s
  | turn :: turns => (step s turn).bind fun t => run step t turns

@[simp] theorem run_nil : run step s [] = some s := rfl

@[simp] theorem run_cons {turn : τ} {turns : List τ} :
    run step s (turn :: turns) = (step s turn).bind fun t => run step t turns := rfl

/-- What each step keeps a run keeps. -/
theorem run_keeps {I : σ → Prop} (keeps : ∀ s turn t, I s → step s turn = some t → I t)
    {turns : List τ} (start : I s) (took : run step s turns = some t) : I t := by
  induction turns generalizing s with
  | nil =>
      cases took
      exact start
  | cons turn turns ih =>
      obtain ⟨next, hstep, hrun⟩ := Option.bind_eq_some_iff.mp took
      exact ih (keeps s turn next start hstep) hrun

/-- Turns that make a rank smaller are no more than it. -/
theorem length_le_rank {I : σ → Prop} (keeps : ∀ s turn t, I s → step s turn = some t → I t)
    {rank : σ → Nat} {turns : List τ}
    (falls : ∀ turn ∈ turns, ∀ s t, I s → step s turn = some t → rank t < rank s) (start : I s)
    (took : run step s turns = some t) : turns.length + rank t ≤ rank s := by
  induction turns generalizing s with
  | nil =>
      cases took
      exact Nat.le_of_eq (Nat.zero_add _)
  | cons turn turns ih =>
      obtain ⟨next, hstep, hrun⟩ := Option.bind_eq_some_iff.mp took
      have first := falls turn List.mem_cons_self s next start hstep
      have rest := ih (fun other mem => falls other (List.mem_cons_of_mem _ mem))
        (keeps s turn next start hstep) hrun
      rw [List.length_cons]
      omega

end Transition

end NodeFuzzer
