import Mathlib.Data.List.Basic

/-!
# Runs of a labelled step relation

`Run step s₀ ls s` says that the steps `ls`, in this order, lead from `s₀` to `s`.  An invariant of
the steps is an invariant of the runs, on states alone (`Run.invariant`) and on states together with
the steps taken so far (`Run.trace_invariant`).
-/

namespace Runs

variable {S L : Type*} {step : S → L → S → Prop}

/-- The steps `ls` lead from `s₀` to the state. -/
inductive Run (step : S → L → S → Prop) (s₀ : S) : List L → S → Prop where
  /-- No step has been taken. -/
  | nil : Run step s₀ [] s₀
  /-- One more step. -/
  | snoc {ls : List L} {s t : S} {l : L} (run : Run step s₀ ls s) (last : step s l t) :
      Run step s₀ (ls ++ [l]) t

namespace Run

theorem trace_invariant {I : List L → S → Prop} {s₀ s : S} {ls : List L}
    (h : Run step s₀ ls s) (h₀ : I [] s₀)
    (hstep : ∀ ls s l t, I ls s → step s l t → I (ls ++ [l]) t) : I ls s := by
  induction h with
  | nil => exact h₀
  | snoc _ hlast ih => exact hstep _ _ _ _ ih hlast

theorem invariant {I : S → Prop} {s₀ s : S} {ls : List L} (h : Run step s₀ ls s) (h₀ : I s₀)
    (hstep : ∀ s l t, I s → step s l t → I t) : I s :=
  h.trace_invariant (I := fun _ => I) h₀ fun _ => hstep

theorem single {s t : S} {l : L} (h : step s l t) : Run step s [l] t := .snoc .nil h

theorem append {s t u : S} {ls ls' : List L} (h : Run step s ls t) (h' : Run step t ls' u) :
    Run step s (ls ++ ls') u := by
  induction h' with
  | nil => rwa [List.append_nil]
  | snoc _ hlast ih =>
    rw [← List.append_assoc]
    exact .snoc ih hlast

end Run

end Runs
