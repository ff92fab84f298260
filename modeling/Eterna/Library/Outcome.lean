import Mathlib.Tactic.Common

/-!
# Computations that can stop

`Ends E P r` says of a computation that it stops only for reasons in `E`, and that its result, if it
has one, satisfies `P`.  Along a sequence of steps it is enough to know this of every step
(`Ends.bind`), and of both branches where the computation branches (`Ends.ite`).

A computation that need not end takes fuel, and stops with an error where it has none left.  If it
improves with every unit of fuel, it has one result at most (`ends_of_improves`).
-/

namespace Outcome

variable {ε : Type*} {α β : Type*}

/-- The reasons to stop are in `E`, the results in `P`. -/
def Ends (E : ε → Prop) (P : α → Prop) : Except ε α → Prop
  | .error e => E e
  | .ok a => P a

variable {E : ε → Prop} {P Q : α → Prop} {r : Except ε α}

theorem ends_ok {a : α} (h : P a) : Ends E P (.ok a : Except ε α) := h

theorem ends_self (r : Except ε α) : Ends (fun _ => True) (fun a => r = .ok a) r := by
  cases r with
  | error e => exact trivial
  | ok a => rfl

theorem Ends.of_ok (h : Ends E P r) {a : α} (hr : r = .ok a) : P a := by
  rwa [hr] at h

theorem Ends.of_error (h : Ends E P r) {e : ε} (hr : r = .error e) : E e := by
  rwa [hr] at h

theorem Ends.mono (h : Ends E P r) (hPQ : ∀ a, P a → Q a) : Ends E Q r := by
  cases r with
  | error e => exact h
  | ok a => exact hPQ a h

theorem Ends.imp {E' : ε → Prop} (h : Ends E P r) (hE : ∀ e, E e → E' e) (hP : ∀ a, P a → Q a) :
    Ends E' Q r := by
  cases r with
  | error e => exact hE e h
  | ok a => exact hP a h

theorem Ends.exists_ok (h : Ends E P r) (hE : ∀ e, ¬ E e) : ∃ a, r = .ok a ∧ P a := by
  cases r with
  | error e => exact absurd h (hE e)
  | ok a => exact ⟨a, rfl, h⟩

theorem Ends.bind {R : β → Prop} {f : α → Except ε β} (h : Ends E P r)
    (hf : ∀ a, P a → Ends E R (f a)) : Ends E R (r.bind f) := by
  cases r with
  | error e => exact h
  | ok a => exact hf a h

theorem Ends.ite {c : Prop} [Decidable c] {x y : Except ε α} (hx : c → Ends E P x)
    (hy : ¬ c → Ends E P y) : Ends E P (if c then x else y) := by
  split
  · exact hx ‹c›
  · exact hy ‹¬ c›

theorem bind_eq_ok {f : α → Except ε β} {b : β} :
    r.bind f = .ok b ↔ ∃ a, r = .ok a ∧ f a = .ok b := by
  constructor
  · intro h
    cases r with
    | error e => cases h
    | ok a => exact ⟨a, rfl, h⟩
  · rintro ⟨a, rfl, h⟩
    exact h

theorem bind_bind {γ : Type*} {f : α → Except ε β} {g : β → Except ε γ} :
    (r.bind f).bind g = r.bind fun a => (f a).bind g := by
  cases r <;> rfl

/-- `y` has the result of `x`, if `x` has one. -/
def Improves (x y : Except ε α) : Prop := ∀ a, x = .ok a → y = .ok a

namespace Improves

variable {x x' y y' : Except ε α}

theorem refl (x : Except ε α) : Improves x x := fun _ h => h

theorem error (e : ε) : Improves (.error e) x := fun _ h => by cases h

theorem ite {c : Prop} [Decidable c] (hx : Improves x x') (hy : Improves y y') :
    Improves (if c then x else y) (if c then x' else y') := by
  split
  · exact hx
  · exact hy

theorem bind {f f' : α → Except ε β} (hx : Improves x x') (hf : ∀ a, Improves (f a) (f' a)) :
    Improves (x.bind f) (x'.bind f') := fun b h => by
  obtain ⟨a, ha, hb⟩ := bind_eq_ok.1 h
  exact bind_eq_ok.2 ⟨a, hx a ha, hf a b hb⟩

end Improves

theorem eq_ok_of_le {f : ℕ → Except ε α} (hf : ∀ n, Improves (f n) (f (n + 1))) {m n : ℕ} {a : α}
    (hmn : m ≤ n) (ha : f m = .ok a) : f n = .ok a := by
  induction hmn with
  | refl => exact ha
  | step _ ih => exact hf _ a ih

theorem ends_of_improves {f : ℕ → Except ε α} (hf : ∀ n, Improves (f n) (f (n + 1))) {n : ℕ} {a : α}
    (ha : f n = .ok a) (m : ℕ) : Ends (fun _ => m ≤ n) (· = a) (f m) := by
  obtain hmn | hnm := Nat.le_total m n
  · cases h : f m with
    | error e => exact hmn
    | ok b => exact Except.ok.inj ((eq_ok_of_le hf hmn h).symm.trans ha)
  · rw [eq_ok_of_le hf hnm ha]
    exact rfl

end Outcome
