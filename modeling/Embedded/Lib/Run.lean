import Mathlib.Tactic.Common

/-! # Runs of a deterministic machine

A machine is a step function that takes a state and an event. `Reachable` are the states that runs
from the initial states pass through when every step meets a condition on the state before it and
the event; the induction rules below are what a proof about all runs uses. -/

namespace Embedded

variable {σ ε : Type}

/-- The states reached from `init` by steps that all meet `ok`. -/
inductive Reachable (step : σ → ε → σ) (ok : σ → ε → Prop) (init : σ → Prop) : σ → Prop
  | init {s : σ} (h : init s) : Reachable step ok init s
  | step {s : σ} (e : ε) (h : Reachable step ok init s) (hok : ok s e) :
      Reachable step ok init (step s e)

namespace Reachable

variable {step : σ → ε → σ} {ok ok' : σ → ε → Prop} {init : σ → Prop}

/-- What holds initially and is kept by every step that meets the condition holds in every state
    reached. -/
theorem invariant {I : σ → Prop} (h0 : ∀ s, init s → I s)
    (hstep : ∀ s e, ok s e → I s → I (step s e)) {s : σ} (h : Reachable step ok init s) : I s := by
  induction h with
  | init h => exact h0 _ h
  | step e _ hok ih => exact hstep _ e hok ih

/-- The same, for a step lemma that needs more of the state than the invariant says. -/
theorem invariant_of {I J : σ → Prop} (hJ : ∀ s, Reachable step ok init s → J s)
    (h0 : ∀ s, init s → I s) (hstep : ∀ s e, ok s e → J s → I s → I (step s e)) {s : σ}
    (h : Reachable step ok init s) : I s := by
  induction h with
  | init h => exact h0 _ h
  | step e h hok ih => exact hstep _ e hok (hJ _ h) ih

theorem mono (hok : ∀ s e, ok s e → ok' s e) {s : σ} (h : Reachable step ok init s) :
    Reachable step ok' init s := by
  induction h with
  | init h => exact .init h
  | step e _ hs ih => exact .step e ih (hok _ _ hs)

end Reachable

/-- The state after a list of events. -/
def runFrom (step : σ → ε → σ) : σ → List ε → σ
  | s, [] => s
  | s, e :: es => runFrom step (step s e) es

/-- A list of events whose steps all meet `ok`. -/
def AllOk (step : σ → ε → σ) (ok : σ → ε → Prop) : σ → List ε → Prop
  | _, [] => True
  | s, e :: es => ok s e ∧ AllOk step ok (step s e) es

theorem Reachable.runFrom {step : σ → ε → σ} {ok : σ → ε → Prop} {init : σ → Prop} {s : σ}
    (h : Reachable step ok init s) (es : List ε) (hes : AllOk step ok s es) :
    Reachable step ok init (runFrom step s es) := by
  induction es generalizing s with
  | nil => exact h
  | cons e es ih => exact ih (.step e h hes.1) hes.2

end Embedded
