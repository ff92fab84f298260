import Eterna.Library.Fuel
import Eterna.Memory.HeapRuns

/-!
# `malloc` with its diagnostics

As the file compiles it, with `DEBUG_HEAP` defined, every `malloc` that has found a segment prints
the heap before it returns, and the star chart of `heap_print_debug` allocates its buffer with
`malloc`.

* `malloc_improves`, `malloc_result_eq` : a call that returns has its result from some fuel on, and
  no other;
* `malloc_debug_eq_none` : no fuel is enough for `malloc` with its diagnostics;
* `malloc_debug_never_returns` : it does not return, from any heap, for any request.
-/

namespace Eterna

open ByteMemory SegmentChain Fuel

namespace Heap

/-! ### More fuel -/

theorem search_improves (n fuel : ℕ) (h : Heap) (current : ℕ) :
    Improves (search n fuel h current) (search n (fuel + 1) h current) := by
  induction fuel generalizing h current with
  | zero => exact .none _
  | succ fuel ih =>
    have honward : ∀ g : Heap, Improves
        (if g.next current = 0 then some (g, 0) else search n fuel g (g.next current))
        (if g.next current = 0 then some (g, 0) else search n (fuel + 1) g (g.next current)) :=
      fun g => .ite (.refl _) (ih g _)
    exact .ite (.ite (.ite (.refl _) (honward _)) (.ite (.refl _) (honward h))) (honward h)

theorem countRegions_improves (h : Heap) (fuel i it : ℕ) :
    Improves (h.countRegions fuel i it) (h.countRegions (fuel + 1) i it) := by
  induction fuel generalizing i it with
  | zero => exact .none _
  | succ fuel ih => exact .ite (.refl _) (ih _ _)

theorem chartLoop_improves (out totalChars fuel : ℕ) (h : Heap) (c : Chart) (it : ℕ) :
    Improves (chartLoop out totalChars fuel h c it)
      (chartLoop out totalChars (fuel + 1) h c it) := by
  induction fuel generalizing h c it with
  | zero => exact .none _
  | succ fuel ih => exact .ite (.refl _) (.ite (.refl _) (ih _ _ _))

theorem strlen_improves (h : Heap) (fuel a : ℕ) :
    Improves (h.strlen fuel a) (h.strlen (fuel + 1) a) := by
  induction fuel generalizing a with
  | zero => exact .none _
  | succ fuel ih => exact .ite (.refl _) (ih _).map

theorem printDebug_improves {new new' : Heap → ℕ → Option (Heap × ℕ)}
    (hnew : ∀ h n, Improves (new h n) (new' h n)) (fuel : ℕ) (h : Heap) :
    Improves (h.printDebug new fuel) (h.printDebug new' (fuel + 1)) := by
  refine .bind (countRegions_improves h fuel 0 _) fun _ => ?_
  refine .bind (hnew h _) fun (h, out) => ?_
  refine .bind (chartLoop_improves out _ fuel _ _ _) fun h => ?_
  refine .bind (strlen_improves h fuel out) fun length => ?_
  exact .bind (hnew h _) fun _ => .refl _

/-- **More fuel does not change what `malloc` returns.** -/
theorem malloc_improves (debugHeap : Bool) (fuel : ℕ) (h : Heap) (n : ℕ) :
    Improves (h.malloc debugHeap fuel n) (h.malloc debugHeap (fuel + 1) n) := by
  induction fuel generalizing h n with
  | zero => exact .none _
  | succ fuel ih =>
    refine .ite (.refl _) (.bind (search_improves _ fuel h _) fun (g, segment) => ?_)
    exact .ite (ih _ _) (.ite (.bind (printDebug_improves ih fuel g) fun _ => .refl _) (.refl _))

theorem malloc_result_eq {debugHeap : Bool} {h : Heap} {n k m : ℕ} {r r' : Heap × ℕ}
    (hr : h.malloc debugHeap k n = some r) (hr' : h.malloc debugHeap m n = some r') : r = r' :=
  eq_of_improves (f := fun fuel => h.malloc debugHeap fuel n)
    (fun fuel => malloc_improves debugHeap fuel h n) hr hr'

/-! ### The diagnostics never come to an end -/

theorem totalChars_le (h : Heap) :
    sub64 h.sHeapEnd h.sHeapStart / characterGranularity + 1 ≤ 2 ^ 60 := by
  have hlt := sub64_lt h.sHeapEnd h.sHeapStart
  unfold characterGranularity
  omega

theorem roundRequest_pos (hpos : 0 < n) (hle : n ≤ 2 ^ 60) :
    0 < roundRequest n ∧ roundRequest n ≤ 2 ^ 60 := by
  unfold roundRequest add64
  split <;> omega

theorem printDebug_eq_none {new : Heap → ℕ → Option (Heap × ℕ)}
    (hnew : ∀ h n, 0 < n → n ≤ 2 ^ 60 → new h n = none) (fuel : ℕ) (h : Heap) :
    h.printDebug new fuel = none := by
  refine Option.bind_eq_none_iff.mpr fun _ _ => ?_
  rw [starchart, hnew h _ (Nat.succ_pos _) (totalChars_le h)]
  rfl

/-- **No fuel is enough for `malloc` with its diagnostics**: by induction on the fuel, since every
request leads to another one, for a longer heap or for the buffer of the star chart. -/
theorem malloc_debug_eq_none (fuel : ℕ) (h : Heap) (hpos : 0 < n) (hle : n ≤ 2 ^ 60) :
    h.malloc true fuel n = none := by
  induction fuel generalizing h n with
  | zero => rfl
  | succ fuel ih =>
    obtain ⟨hpos', hle'⟩ := roundRequest_pos hpos hle
    rw [malloc, if_neg (Nat.ne_of_gt hpos)]
    refine Option.bind_eq_none_iff.mpr fun r _ => ?_
    obtain ⟨g, segment⟩ := r
    dsimp only
    split
    next => exact ih _ hpos' hle'
    next =>
      rw [if_pos rfl, printDebug_eq_none fun h n => ih h]
      rfl

end Heap

/-- **`malloc` with its diagnostics never returns**: from no heap, well-formed or not, and for no
request of at least one byte. -/
theorem malloc_debug_never_returns (h : Heap) {n : ℕ} (hpos : 0 < n) (hle : n ≤ 2 ^ 32) :
    ¬∃ fuel r, h.malloc true fuel n = some r := by
  rintro ⟨fuel, r, hr⟩
  rw [Heap.malloc_debug_eq_none fuel h hpos (by omega)] at hr
  cases hr

theorem malloc_debug_never_returns_first :
    ¬∃ fuel r, Heap.unset.initHeap.malloc true fuel 8 = some r :=
  malloc_debug_never_returns _ (by decide) (by decide)

/-- On the heap that `init_heap` has set up, `malloc(8)` returns without the diagnostics, and does
not return with them. -/
theorem malloc_debug_loops :
    (∃ r, Heap.unset.initHeap.malloc false 2 8 = some r) ∧
    ¬∀ (h : Heap) (segs : List Segment) (n : ℕ), h.Chain segs → 0 < n → n ≤ 2 ^ 32 →
      ∃ fuel r, h.malloc true fuel n = some r := by
  refine ⟨⟨_, (Heap.unset.initHeap_chain.malloc_of_find (t := Heap.firstSegment) (by decide)
    (Nat.le_refl 1) (by decide)).1⟩, fun hclaim => ?_⟩
  obtain ⟨fuel, r, hr⟩ := hclaim _ _ 8 Heap.unset.initHeap_chain (by decide) (by decide)
  rw [Heap.malloc_debug_eq_none fuel _ (by decide) (by decide)] at hr
  cases hr

end Eterna
