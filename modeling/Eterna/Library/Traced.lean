import Eterna.Library.Outcome

/-!
# Computations that leave a trace

A computation that can stop, together with what it has done until then.  The trace stays when the
computation stops, and forgetting it (`result`) leaves the computation as it was (`result_bind`).
-/

/-- A computation with its trace, the first entry first. -/
def Traced (ι ε α : Type*) := List ι × Except ε α

namespace Traced

universe u

variable {ι ε : Type*} {α β : Type u}

/-- The computation with this trace. -/
def mk (l : List ι) (r : Except ε α) : Traced ι ε α := (l, r)

/-- What has been done. -/
def trace (x : Traced ι ε α) : List ι := x.1

/-- The computation without its trace. -/
def result (x : Traced ι ε α) : Except ε α := x.2

/-- A computation that leaves no trace. -/
def lift (r : Except ε α) : Traced ι ε α := mk [] r

/-- One computation after the other. -/
def bind (x : Traced ι ε α) (f : α → Traced ι ε β) : Traced ι ε β :=
  match x.result with
  | .ok a => mk (x.trace ++ (f a).trace) (f a).result
  | .error e => mk x.trace (.error e)

instance : Monad (Traced ι ε) where
  pure a := lift (.ok a)
  bind := bind

variable {f : α → Traced ι ε β} {l : List ι} {a : α} {e : ε}

theorem result_lift (r : Except ε α) : (lift r : Traced ι ε α).result = r := rfl

theorem result_pure (a : α) : (pure a : Traced ι ε α).result = pure a := rfl

theorem result_bind {x : Traced ι ε α} {r : Except ε α} {g : α → Except ε β} (hx : x.result = r)
    (hf : ∀ a, (f a).result = g a) : (x >>= f).result = r >>= g := by
  obtain ⟨l, r'⟩ := x
  obtain rfl : r' = r := hx
  cases r' with
  | error e => rfl
  | ok a => exact hf a

theorem result_bind_of_pure {x : Traced ι ε α} {r : Except ε β} (hx : x.result = pure a)
    (hf : (f a).result = r) : (x >>= f).result = r := by
  obtain ⟨l, r'⟩ := x
  obtain rfl : r' = pure a := hx
  exact hf

@[simp] theorem mk_ok_bind : mk l (.ok a) >>= f = mk (l ++ (f a).trace) (f a).result := rfl

@[simp] theorem mk_error_bind : mk l (.error e) >>= f = mk l (.error e) := rfl

@[simp] theorem lift_ok_bind : lift (.ok a) >>= f = f a := rfl

@[simp] theorem lift_error_bind : lift (.error e) >>= f = mk [] (.error e) := rfl

end Traced
