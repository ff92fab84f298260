import Eterna.Library.Loops
import Mathlib.Data.Set.Basic
import Mathlib.Logic.Function.Basic

/-!
# Memory with a log of its accesses

A memory together with the addresses that have been read or written so far.  `Confined S t t'` says
that nothing outside of `S` has been touched on the way from `t` to `t'`.  It is reflexive and
transitive, a single access has it at its address, and a loop has it when each iteration does.
-/

namespace AccessLog

variable {α β : Type*}

/-- A memory and the addresses accessed so far, the last one first. -/
structure Logged (α β : Type*) where
  /-- The contents. -/
  mem : α → β
  /-- The addresses accessed so far. -/
  accessed : List α

namespace Logged

/-- Read what is at an address. -/
def read (t : Logged α β) (a : α) : β × Logged α β :=
  (t.mem a, { t with accessed := a :: t.accessed })

/-- Write to an address. -/
def write [DecidableEq α] (t : Logged α β) (a : α) (b : β) : Logged α β where
  mem := Function.update t.mem a b
  accessed := a :: t.accessed

@[simp] theorem read_fst (t : Logged α β) (a : α) : (t.read a).1 = t.mem a := rfl

@[simp] theorem mem_read (t : Logged α β) (a : α) : (t.read a).2.mem = t.mem := rfl

theorem mem_write [DecidableEq α] (t : Logged α β) (a x : α) (b : β) :
    (t.write a b).mem x = if x = a then b else t.mem x := Function.update_apply t.mem a b x

end Logged

/-- From one to the other, only addresses in `S` have been accessed, and the rest is as it was. -/
structure Confined (S : Set α) (t t' : Logged α β) : Prop where
  accessed : ∀ a ∈ t'.accessed, a ∈ t.accessed ∨ a ∈ S
  kept : ∀ a ∉ S, t'.mem a = t.mem a

namespace Confined

variable {S S' : Set α} {t t' t'' : Logged α β} {a : α}

theorem refl (S : Set α) (t : Logged α β) : Confined S t t where
  accessed _ ha := Or.inl ha
  kept _ _ := rfl

theorem trans (h : Confined S t t') (h' : Confined S t' t'') : Confined S t t'' where
  accessed a ha := by
    obtain ha | ha := h'.accessed a ha
    · exact h.accessed a ha
    · exact Or.inr ha
  kept a ha := (h'.kept a ha).trans (h.kept a ha)

theorem mono (h : Confined S t t') (hS : S ⊆ S') : Confined S' t t' where
  accessed a ha := (h.accessed a ha).imp_right fun h => hS h
  kept a ha := h.kept a fun h => ha (hS h)

theorem read (t : Logged α β) (ha : a ∈ S) : Confined S t (t.read a).2 where
  accessed x hx := by
    obtain rfl | hx := List.mem_cons.1 hx
    · exact Or.inr ha
    · exact Or.inl hx
  kept _ _ := rfl

theorem write [DecidableEq α] (t : Logged α β) (b : β) (ha : a ∈ S) :
    Confined S t (t.write a b) where
  accessed x hx := by
    obtain rfl | hx := List.mem_cons.1 hx
    · exact Or.inr ha
    · exact Or.inl hx
  kept x hx := by
    rw [Logged.mem_write, if_neg]
    rintro rfl
    exact hx ha

theorem forRange {n : ℕ} {body : ℕ → Logged α β → Logged α β}
    (hbody : ∀ i < n, ∀ t, Confined S t (body i t)) (t : Logged α β) :
    Confined S t (Loops.forRange 0 n body t) :=
  Loops.forRange_invariant (fun _ t' => Confined S t t') (refl S t) fun i hi t' h =>
    h.trans (hbody i hi t')

end Confined

end AccessLog
