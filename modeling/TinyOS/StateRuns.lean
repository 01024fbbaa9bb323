import Mathlib

set_option autoImplicit false

/-! Runs of a labelled machine whose steps may be restricted. -/
namespace TinyOS.StateRuns

variable {σ ι : Type*}

/-- The states of the runs from `start` in which every step is allowed. -/
inductive Reach (start : σ → Prop) (step : ι → σ → σ → Prop) (allow : σ → ι → Prop) : σ → Prop where
  | start {s : σ} (h : start s) : Reach start step allow s
  | step {s t : σ} {i : ι} (h : Reach start step allow s) (ok : allow s i) (go : step i s t) :
      Reach start step allow t

variable {start : σ → Prop} {step : ι → σ → σ → Prop} {allow allow' : σ → ι → Prop} {s : σ}

theorem Reach.invariant {I : σ → Prop} (h : Reach start step allow s)
    (base : ∀ s, start s → I s)
    (next : ∀ s t i, Reach start step allow s → I s → allow s i → step i s t → I t) : I s := by
  induction h with
  | start h => exact base _ h
  | step h ok go ih => exact next _ _ _ h ih ok go

theorem Reach.mono (h : Reach start step allow s)
    (le : ∀ s i, Reach start step allow s → allow s i → allow' s i) :
    Reach start step allow' s := by
  induction h with
  | start h => exact .start h
  | step h ok go ih => exact .step ih (le _ _ h ok) go

end TinyOS.StateRuns
