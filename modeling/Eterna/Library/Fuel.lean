import Mathlib.Data.Option.Basic
import Mathlib.Data.Nat.Notation
import Mathlib.Tactic.Common

/-!
# Fuel

A computation that need not end is modelled as a function `ℕ → Option α` of its fuel, which has no
result while there is too little.  `Improves x y` says that `y` has the result of `x`, if `x` has
one.  It is kept by everything such functions are built from, and a computation that improves with
every unit of fuel has one result at most (`eq_of_improves`).
-/

namespace Fuel

variable {α β : Type*} {x x' y y' : Option α}

/-- `y` has the result of `x`, if `x` has one. -/
def Improves (x y : Option α) : Prop := ∀ a, x = some a → y = some a

namespace Improves

theorem refl (x : Option α) : Improves x x := fun _ h => h

theorem trans {z : Option α} (hxy : Improves x y) (hyz : Improves y z) : Improves x z :=
  fun a h => hyz a (hxy a h)

theorem none (x : Option α) : Improves Option.none x := fun _ h => by cases h

theorem ite {c : Prop} [Decidable c] (hx : Improves x x') (hy : Improves y y') :
    Improves (if c then x else y) (if c then x' else y') := by
  split
  · exact hx
  · exact hy

theorem bind {f f' : α → Option β} (hx : Improves x x') (hf : ∀ a, Improves (f a) (f' a)) :
    Improves (x.bind f) (x'.bind f') := fun b h => by
  obtain ⟨a, ha, hb⟩ := Option.bind_eq_some_iff.mp h
  rw [hx a ha, Option.bind_some, hf a b hb]

theorem map {f : α → β} (hx : Improves x x') : Improves (x.map f) (x'.map f) := fun b h => by
  obtain ⟨a, ha, rfl⟩ := Option.map_eq_some_iff.mp h
  rw [hx a ha, Option.map_some]

end Improves

theorem improves_of_le {f : ℕ → Option α} (hf : ∀ n, Improves (f n) (f (n + 1))) {m n : ℕ}
    (hmn : m ≤ n) : Improves (f m) (f n) := by
  induction hmn with
  | refl => exact .refl _
  | step _ ih => exact ih.trans (hf _)

theorem eq_of_improves {f : ℕ → Option α} (hf : ∀ n, Improves (f n) (f (n + 1))) {m n : ℕ} {a b : α}
    (ha : f m = some a) (hb : f n = some b) : a = b := by
  obtain hmn | hnm := Nat.le_total m n
  · exact Option.some.inj ((improves_of_le hf hmn a ha).symm.trans hb)
  · exact Option.some.inj (ha.symm.trans (improves_of_le hf hnm b hb))

end Fuel
