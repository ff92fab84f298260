import Mathlib.Data.List.Basic

/-!
# Machines that answer calls

A machine takes a call to an answer and a next state.  `Refines R step step'` says that related
states give the same answer to every call and are related afterwards.  A run of calls is then
answered alike (`Refines.run`).
-/

namespace Machines

variable {S A C O : Type*}

/-- The answers to some calls, and the state after them. -/
def run (step : S → C → O × S) : S → List C → List O × S
  | s, [] => ([], s)
  | s, c :: calls =>
    let r := step s c
    let rest := run step r.2 calls
    (r.1 :: rest.1, rest.2)

/-- Related states give the same answer to every call, and are related afterwards. -/
structure Refines (R : S → A → Prop) (step : S → C → O × S) (step' : A → C → O × A) : Prop where
  answer : ∀ {s a}, R s a → ∀ c, (step s c).1 = (step' a c).1
  related : ∀ {s a}, R s a → ∀ c, R (step s c).2 (step' a c).2

/-- **Any calls are answered alike**, from related states on. -/
theorem Refines.run {R : S → A → Prop} {step : S → C → O × S} {step' : A → C → O × A}
    (h : Refines R step step') {s : S} {a : A} (hs : R s a) (calls : List C) :
    (Machines.run step s calls).1 = (Machines.run step' a calls).1 ∧
    R (Machines.run step s calls).2 (Machines.run step' a calls).2 := by
  induction calls generalizing s a with
  | nil => exact ⟨rfl, hs⟩
  | cons c calls ih =>
    obtain ⟨hanswers, hrelated⟩ := ih (h.related hs c)
    exact ⟨congrArg₂ List.cons (h.answer hs c) hanswers, hrelated⟩

end Machines
