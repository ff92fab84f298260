import Mathlib.Data.List.Induction
import Mathlib.Tactic.SplitIfs

/-!
# The last write

A cell is written by some of the steps of a run, each of which leaves in it a value of its own, and
kept by the others.  What it holds in the end is the value of the last step that has written it.

* `last_concat` : the last write after one more step;
* `read_foldl` : what the cell holds after all steps;
* `read_foldl_of_none` : a cell that no step has written;
* `read_foldl_value` : what it holds when the steps carry the values that they write.
-/

namespace LastWrite

variable {S L V W : Type*} {writes : L → Prop} [DecidablePred writes]

/-- The last of the steps that writes the cell. -/
def last (writes : L → Prop) [DecidablePred writes] (ls : List L) : Option L :=
  ls.reverse.find? fun l => decide (writes l)

theorem last_concat (ls : List L) (l : L) :
    last writes (ls ++ [l]) = if writes l then some l else last writes ls := by
  rw [last, List.reverse_append, List.reverse_singleton, List.singleton_append, List.find?_cons]
  split_ifs with h <;> simp [h, last]

/-- **The cell holds what the last step that writes it has left**, or what it held before. -/
theorem read_foldl (read : S → V) {step : S → L → S} {written : L → V}
    (hstep : ∀ s l, read (step s l) = if writes l then written l else read s) (s : S)
    (ls : List L) : read (ls.foldl step s) = (last writes ls).elim (read s) written := by
  induction ls using List.reverseRecOn with
  | nil => rfl
  | append_singleton ls l ih =>
    rw [List.foldl_append, List.foldl_cons, List.foldl_nil, hstep, last_concat]
    split_ifs
    · rfl
    · exact ih

theorem last_eq_none_iff {ls : List L} : last writes ls = none ↔ ∀ l ∈ ls, ¬ writes l := by
  simp [last]

/-- A cell that no step writes is kept. -/
theorem read_foldl_of_none (read : S → V) {step : S → L → S} {ls : List L}
    (hkept : ∀ s l, ¬ writes l → read (step s l) = read s) (hnone : last writes ls = none) (s : S) :
    read (ls.foldl step s) = read s := by
  rw [last_eq_none_iff] at hnone
  induction ls generalizing s with
  | nil => rfl
  | cons l ls ih =>
    obtain ⟨hl, hls⟩ := List.forall_mem_cons.1 hnone
    rw [List.foldl_cons, ih hls, hkept s l hl]

/-- The value of the last step that carries one. -/
def lastValue (value : L → Option W) (ls : List L) : Option W := ls.reverse.findSome? value

theorem lastValue_concat (value : L → Option W) (ls : List L) (l : L) :
    lastValue value (ls ++ [l]) = (value l).or (lastValue value ls) := by
  rw [lastValue, List.reverse_append, List.reverse_singleton, List.singleton_append,
    List.findSome?_cons]
  cases value l <;> rfl

/-- **The cell holds what the last value carried by a step has left**, or what it held before. -/
theorem read_foldl_value (read : S → V) {step : S → L → S} {value : L → Option W} {written : W → V}
    (hstep : ∀ s l, read (step s l) = (value l).elim (read s) written) (s : S) (ls : List L) :
    read (ls.foldl step s) = (lastValue value ls).elim (read s) written := by
  induction ls using List.reverseRecOn with
  | nil => rfl
  | append_singleton ls l ih =>
    rw [List.foldl_append, List.foldl_cons, List.foldl_nil, hstep, lastValue_concat]
    cases value l with
    | none => exact ih
    | some v => rfl

end LastWrite
