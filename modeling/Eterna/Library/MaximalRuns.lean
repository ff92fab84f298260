import Mathlib.Data.List.SplitBy
import Mathlib.Data.List.TakeWhile
import Mathlib.Tactic.Common

/-!
# Maximal runs

`runs f l` cuts a list where the key `f` of two neighbours differs.  A loop that walks over a list,
and starts anew where the key changes, finds the runs one by one (`runs_cons`).  The last run is a
single element when the last two elements differ, or there is only one (`length_last_eq_one_iff`).
-/

namespace MaximalRuns

variable {α κ : Type*} [DecidableEq κ] {f : α → κ} {l run : List α} {rs : List (List α)}

/-- The maximal runs of neighbours with one key. -/
def runs (f : α → κ) (l : List α) : List (List α) := l.splitBy fun a b => decide (f a = f b)

theorem flatten_runs (f : α → κ) (l : List α) : (runs f l).flatten = l := List.flatten_splitBy _ l

theorem runs_ne_nil (hl : l ≠ []) : runs f l ≠ [] := List.splitBy_ne_nil.2 hl

theorem ne_nil_of_mem_runs (h : run ∈ runs f l) : run ≠ [] := List.ne_nil_of_mem_splitBy h

/-- **The first run** ends in front of the first element with another key. -/
theorem runs_cons (f : α → κ) (a : α) (l : List α) :
    runs f (a :: l) = (a :: l.takeWhile fun b => decide (f b = f a)) ::
      runs f (l.dropWhile fun b => decide (f b = f a)) := by
  have hkey : ∀ b ∈ a :: l.takeWhile (fun b => decide (f b = f a)), f b = f a := by
    intro b hb
    obtain rfl | hb := List.mem_cons.1 hb
    · rfl
    · simpa using List.mem_takeWhile_imp hb
  have hcut : a :: l = (a :: l.takeWhile fun b => decide (f b = f a)) ++
      l.dropWhile fun b => decide (f b = f a) := by simp
  conv_lhs => rw [hcut, runs]
  rw [List.splitBy_append, List.splitBy_of_isChain (List.cons_ne_nil _ _)]
  · rfl
  · refine List.Pairwise.isChain (List.pairwise_of_forall_mem_list fun b hb c hc => ?_)
    simp [hkey b hb, hkey c hc]
  · intro x hx y hy
    have hy' := List.head?_dropWhile_not (fun b => decide (f b = f a)) l
    rw [Option.mem_def.1 hy] at hy'
    simpa [hkey x (List.mem_of_mem_getLast? hx), eq_comm] using hy'

theorem key_eq_of_mem_runs {a b : α} (h : a :: run ∈ runs f l) (hb : b ∈ a :: run) : f b = f a := by
  have hchain : (a :: run).IsChain fun a b => decide (f a = f b) = true :=
    List.isChain_of_mem_splitBy h
  have htrans : IsTrans α fun a b => decide (f a = f b) = true :=
    ⟨fun a b c hab hbc => by simpa using (of_decide_eq_true hab).trans (of_decide_eq_true hbc)⟩
  obtain rfl | hb := List.mem_cons.1 hb
  · rfl
  · exact (of_decide_eq_true ((List.pairwise_cons.1 hchain.pairwise).1 b hb)).symm

theorem length_last_eq_one_iff (h : runs f l = rs ++ [run]) :
    run.length = 1 ↔ ∀ pre a b, l = pre ++ [a, b] → f a ≠ f b := by
  have hflat : l = rs.flatten ++ run := by rw [← flatten_runs f l, h]; simp
  have hne : run ≠ [] := ne_nil_of_mem_runs (f := f) (l := l) (by simp [h])
  constructor
  · intro hone pre a b heq
    obtain ⟨t, rfl⟩ := List.length_eq_one_iff.1 hone
    have hsplit : rs.flatten ++ [t] = (pre ++ [a]) ++ [b] := by rw [← hflat, heq]; simp
    obtain ⟨hpre, hlast⟩ := List.append_inj' hsplit rfl
    obtain rfl : t = b := by simpa using hlast
    -- the run before the last one ends with `a`
    obtain rfl | ⟨rs', q, rfl⟩ := List.eq_nil_or_concat' rs
    · simp at hpre
    · have hq : q ≠ [] := ne_nil_of_mem_runs (f := f) (l := l) (by simp [h])
      obtain ⟨q', c, rfl⟩ := (List.eq_nil_or_concat' q).resolve_left hq
      have hca : c = a := by
        have hpre' : (rs'.flatten ++ q') ++ [c] = pre ++ [a] := by simpa using hpre
        simpa using (List.append_inj' hpre' rfl).2
      have hchain := List.isChain_getLast_head_splitBy (fun a b => decide (f a = f b)) l
      change (runs f l).IsChain _ at hchain
      rw [h, List.isChain_append] at hchain
      obtain ⟨_, _, hne⟩ := hchain.2.2 (q' ++ [c]) (by simp) [t] (by simp)
      simpa [hca] using hne
  · intro hdiffer
    obtain ⟨q, b, rfl⟩ := (List.eq_nil_or_concat' run).resolve_left hne
    obtain rfl | ⟨q, a, rfl⟩ := List.eq_nil_or_concat' q
    · rfl
    · exfalso
      refine hdiffer (rs.flatten ++ q) a b (by simp [hflat]) ?_
      have hchain : (q ++ [a] ++ [b]).IsChain fun a b => decide (f a = f b) = true :=
        List.isChain_of_mem_splitBy (l := l) (by change _ ∈ runs f l; simp [h])
      rw [List.isChain_append] at hchain
      simpa using hchain.2.2 a (by simp) b (by simp)

end MaximalRuns
