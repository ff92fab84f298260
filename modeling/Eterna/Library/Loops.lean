import Mathlib.Data.List.Range
import Mathlib.Tactic.Common

/-!
# Counting loops

`forRange lo hi body` is the loop `for (i = lo; i < hi; i++) body`.  What such a loop does to a part
of the state that each iteration keeps or changes by itself, read off by `read`:

* `read_forRange_of_kept` : a part that no iteration changes is kept;
* `read_forRange_of_once` : a part that one iteration changes and all others keep is changed once.

* `forRange_invariant` : what each iteration passes on to the next.

For a loop in the body, the rules are used at both levels.  A loop that moves a pointer along is
turned into one that computes it from the index (`forRange_pointer`).
-/

namespace Loops

variable {S V : Type*} {lo hi k : ℕ} {body : ℕ → S → S}

/-- `for (i = lo; i < hi; i++) body`. -/
def forRange (lo hi : ℕ) (body : ℕ → S → S) (s : S) : S :=
  (List.range' lo (hi - lo)).foldl (fun s i => body i s) s

theorem read_foldl_of_kept (read : S → V) {is : List ℕ}
    (hkept : ∀ i ∈ is, ∀ s, read (body i s) = read s) (s : S) :
    read (is.foldl (fun s i => body i s) s) = read s := by
  induction is generalizing s with
  | nil => rfl
  | cons i is ih =>
    rw [List.foldl_cons, ih fun j hj => hkept j (List.mem_cons_of_mem i hj)]
    exact hkept i List.mem_cons_self s

theorem read_foldl_of_once (read : S → V) (f : V → V) {is : List ℕ} (hnodup : is.Nodup)
    (hk : k ∈ is)
    (hchange : ∀ s, read (body k s) = f (read s))
    (hkept : ∀ i ∈ is, i ≠ k → ∀ s, read (body i s) = read s) (s : S) :
    read (is.foldl (fun s i => body i s) s) = f (read s) := by
  induction is generalizing s with
  | nil => cases hk
  | cons i is ih =>
    obtain ⟨hi, hnodup⟩ := List.nodup_cons.1 hnodup
    have hkept' := fun j hj => hkept j (List.mem_cons_of_mem i hj)
    rw [List.foldl_cons]
    obtain rfl | hk := List.mem_cons.1 hk
    · rw [read_foldl_of_kept read fun j hj => hkept' j hj fun e => hi (e ▸ hj)]
      exact hchange s
    · rw [ih hnodup hk hkept']
      exact congrArg f (hkept i List.mem_cons_self (fun e => hi (e ▸ hk)) s)

theorem mem_range_iff {i : ℕ} : i ∈ List.range' lo (hi - lo) ↔ lo ≤ i ∧ i < hi := by
  rw [List.mem_range'_1]
  omega

theorem read_forRange_of_kept (read : S → V)
    (hkept : ∀ i, lo ≤ i → i < hi → ∀ s, read (body i s) = read s)
    (s : S) : read (forRange lo hi body s) = read s := by
  refine read_foldl_of_kept read (fun i hmem => ?_) s
  obtain ⟨hlo, hhi⟩ := mem_range_iff.1 hmem
  exact hkept i hlo hhi

/-- **A part that one iteration changes** and all others keep is changed once. -/
theorem read_forRange_of_once (read : S → V) (f : V → V) (hlo : lo ≤ k) (hhi : k < hi)
    (hchange : ∀ s, read (body k s) = f (read s))
    (hkept : ∀ i, lo ≤ i → i < hi → i ≠ k → ∀ s, read (body i s) = read s) (s : S) :
    read (forRange lo hi body s) = f (read s) := by
  refine read_foldl_of_once read f List.nodup_range' (mem_range_iff.2 ⟨hlo, hhi⟩) hchange
    (fun i hmem => ?_) s
  obtain ⟨hlo, hhi⟩ := mem_range_iff.1 hmem
  exact hkept i hlo hhi

theorem forRange_succ {n : ℕ} (s : S) :
    forRange 0 (n + 1) body s = body n (forRange 0 n body s) := by
  rw [forRange, forRange, Nat.sub_zero, Nat.sub_zero, List.range'_1_concat, List.foldl_append,
    Nat.zero_add]
  rfl

/-- **The invariant rule**: what holds before the first iteration, and is passed on by each. -/
theorem forRange_invariant {n : ℕ} (P : ℕ → S → Prop) {s : S} (hinit : P 0 s)
    (hstep : ∀ i < n, ∀ s, P i s → P (i + 1) (body i s)) : P n (forRange 0 n body s) := by
  induction n with
  | zero => exact hinit
  | succ n ih =>
    rw [forRange_succ]
    exact hstep n (Nat.lt_succ_self n) _ (ih fun i hi => hstep i (Nat.lt_succ_of_lt hi))

theorem forRange_congr {body' : ℕ → S → S}
    (h : ∀ i, lo ≤ i → i < hi → ∀ s, body i s = body' i s) (s : S) :
    forRange lo hi body s = forRange lo hi body' s := by
  refine List.foldl_ext _ _ _ fun s i hmem => ?_
  obtain ⟨hlo, hhi⟩ := mem_range_iff.1 hmem
  exact h i hlo hhi s

/-- **A view of the state** on which each iteration acts by itself. -/
theorem map_forRange {T : Type*} (f : S → T) {body' : ℕ → T → T}
    (h : ∀ i, lo ≤ i → i < hi → ∀ s, f (body i s) = body' i (f s)) (s : S) :
    f (forRange lo hi body s) = forRange lo hi body' (f s) := by
  have hfold (is : List ℕ) (his : ∀ i ∈ is, lo ≤ i ∧ i < hi) (s : S) :
      f (is.foldl (fun s i => body i s) s) = is.foldl (fun t i => body' i t) (f s) := by
    induction is generalizing s with
    | nil => rfl
    | cons i is ih =>
      obtain ⟨hlo, hhi⟩ := his i List.mem_cons_self
      rw [List.foldl_cons, List.foldl_cons, ih fun j hj => his j (List.mem_cons_of_mem i hj),
        h i hlo hhi]
  exact hfold _ (fun i hi => mem_range_iff.1 hi) s

theorem foldl_pointer {P : Type*} (f : S → P → S) (g : P → P) (lo n : ℕ) (s : S) (p : P) :
    ((List.range' lo n).foldl (fun s _ => (f s.1 s.2, g s.2)) (s, p)).1 =
      (List.range' lo n).foldl (fun s i => f s (g^[i - lo] p)) s := by
  induction n generalizing lo s p with
  | zero => rfl
  | succ n ih =>
    rw [List.range'_succ, List.foldl_cons, List.foldl_cons, ih, Nat.sub_self]
    refine List.foldl_ext _ _ _ fun s i hi => ?_
    have hle := (List.mem_range'_1.1 hi).1
    have hsucc : i - lo = (i - (lo + 1)).succ := by omega
    rw [hsucc, Function.iterate_succ_apply]

/-- **A loop that moves a pointer along**, the index of which it does not use otherwise. -/
theorem forRange_pointer {P : Type*} (f : S → P → S) (g : P → P) (n : ℕ) (s : S) (p : P) :
    (forRange 0 n (fun _ s => (f s.1 s.2, g s.2)) (s, p)).1 =
      forRange 0 n (fun i s => f s (g^[i] p)) s :=
  foldl_pointer f g 0 n s p

end Loops
