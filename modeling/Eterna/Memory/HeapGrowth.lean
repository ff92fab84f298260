import Eterna.Memory.HeapDebug

/-!
# How far the heap grows

`malloc` expands the heap when no segment fits, and then starts over.  It is taken apart here into
the expansions and the segment that is taken at last, and the number of expansions is determined.

* `Chain.malloc_grows` : `malloc` is some expansions, and then a segment that fits;
* `Chain.expanded_iff` : one call expands the heap not at all, once or twice;
* `Chain.neverWraps_iff`, `heap_never_wraps_iff` : exactly when no address and no count of bytes
  wraps.
-/

namespace Eterna

open ByteMemory SegmentChain Runs Fuel

namespace Heap

variable {h h' g g' : Heap} {segs segs' gs gs' pre post : List Segment} {s t : Segment}
    {m n j p : ℕ}

/-! ### `malloc` as expansions and a segment -/

/-- The heap `g` with the segments `gs` is `h` with `segs` after `j` calls of `expand_heap(m)`, none
of which leaves the address space. -/
inductive Grows (m : ℕ) (h : Heap) (segs : List Segment) : ℕ → Heap → List Segment → Prop where
  /-- No call. -/
  | refl : Grows m h segs 0 h segs
  /-- One more call. -/
  | expand {j : ℕ} {g : Heap} {gs : List Segment} (grown : Grows m h segs j g gs)
      (hfit : g.expandedEnd m < 2 ^ 64) :
      Grows m h segs (j + 1) (g.expandHeap m) (absorbBack gs [g.extension m])

namespace Grows

theorem head (hfit : h.expandedEnd m < 2 ^ 64)
    (hg : Grows m (h.expandHeap m) (absorbBack segs [h.extension m]) j g gs) :
    Grows m h segs (j + 1) g gs := by
  induction hg with
  | refl => exact .expand .refl hfit
  | expand _ hfit' ih => exact .expand ih hfit'

theorem invariant {I : Heap → List Segment → Prop} (hg : Grows m h segs j g gs) (h₀ : I h segs)
    (hstep : ∀ g gs, I g gs → g.expandedEnd m < 2 ^ 64 →
      I (g.expandHeap m) (absorbBack gs [g.extension m])) : I g gs := by
  induction hg with
  | refl => exact h₀
  | expand _ hfit ih => exact hstep _ _ ih hfit

theorem chain (hg : Grows m h segs j g gs) (hc : h.Chain segs) : g.Chain gs :=
  hg.invariant hc fun _ _ hc hfit => hc.expandHeap hfit

theorem bounds (hg : Grows m h segs j g gs) (hc : h.Chain segs) :
    g.sHeapStart = h.sHeapStart ∧ h.sHeapEnd + j * pageSize ≤ g.sHeapEnd := by
  induction hg with
  | refl => exact ⟨rfl, by omega⟩
  | expand hg hfit ih =>
    obtain ⟨hstart, hend⟩ := expandHeap_bounds (hg.chain hc) hfit
    rw [hstart, hend, expandedEnd]
    unfold pageSize at ih ⊢
    exact ⟨ih.1, by omega⟩

end Grows

theorem roundRequest_idem (n : ℕ) : roundRequest (roundRequest n) = roundRequest n := by
  have hmod : roundRequest n % 8 = 0 := by
    unfold roundRequest add64
    split <;> omega
  rw [roundRequest, hmod, if_neg (Nat.lt_irrefl 0)]

/-- The result of `malloc(n)`, which works on the rounded request `m` and has expanded `h` to `g`:
the first segment that fits is taken; only a request that is rounded to zero ends with `nullptr`. -/
def TakesFrom (m : ℕ) (g : Heap) (gs : List Segment) (h' : Heap) (p : ℕ) : Prop :=
  (m = 0 ∧ h' = g ∧ p = 0) ∨ ∃ t, gs.find? (Fits m ·) = some t ∧
    h' = g.take m t ∧ p = add64 t.addr headerSize

/-- When nothing fits, `malloc` expands the heap and starts over. -/
theorem Chain.malloc_of_none {fuel : ℕ} (hc : h.Chain segs) (hn : n ≠ 0)
    (hfuel : segs.length ≤ fuel)
    (hfind : segs.find? (Fits (roundRequest n) ·) = none) :
    search (roundRequest n) fuel h h.sHeapStart = some (h, 0) ∧
      h.malloc false (fuel + 1) n =
        (h.expandHeap (roundRequest n)).malloc false fuel (roundRequest n) := by
  have hr := hc.search_start (n := roundRequest n) hfuel
  rw [hfind] at hr
  refine ⟨hr, ?_⟩
  rw [Heap.malloc, if_neg hn]
  simp only [hr, Option.bind_eq_bind, Option.bind_some, if_true]

/-! ### The expansions of one call -/

/-- The calls of `expand_heap` that `malloc(numBytes)` makes, down to the depth `fuel`: the heap
before the call, and its argument. -/
def expansions : ℕ → Heap → ℕ → List (Heap × ℕ)
  | 0, _, _ => []
  | fuel + 1, h, numBytes =>
    if numBytes = 0 then []
    else match search (roundRequest numBytes) fuel h h.sHeapStart with
      | none => []
      | some r =>
        if r.2 = 0 then
          (r.1, roundRequest numBytes) ::
            expansions fuel (r.1.expandHeap (roundRequest numBytes)) (roundRequest numBytes)
        else []

/-- `expand_heap(numBytes)` wraps nowhere: not the count of bytes it maps and not `sHeapEnd`, which
stays above `sHeapStart`; and it maps no page outside the window above `HEAP_VIRTUAL_BASE`. -/
structure StaysInRange (h : Heap) (numBytes : ℕ) : Prop where
  bytes : mul64 (numBytes / pageSize + 1) pageSize = (numBytes / pageSize + 1) * pageSize
  stop : (h.expandHeap numBytes).sHeapEnd = h.sHeapEnd + (numBytes / pageSize + 1) * pageSize
  above : h.sHeapStart < (h.expandHeap numBytes).sHeapEnd
  /-- Iteration `i` maps the page where the heap ends after `i` iterations. -/
  pages : ∀ i < numBytes / pageSize + 1,
    (mapPages i h).sHeapEnd ∈ Set.Ico heapVirtualBase (2 ^ 64)

/-- `malloc(numBytes)` wraps nowhere: not where the request is rounded, and not where it expands the
heap. -/
structure NeverWraps (h : Heap) (numBytes : ℕ) : Prop where
  rounded : numBytes ≤ roundRequest numBytes
  expanded : ∀ fuel, ∀ e ∈ expansions fuel h numBytes, e.1.StaysInRange e.2

/-- Every page that is mapped moves the end of the heap by one page, modulo `2 ^ 64`. -/
theorem mapPages_sHeapEnd (k : ℕ) (h : Heap) (hlt : h.sHeapEnd < 2 ^ 64) :
    (mapPages k h).sHeapEnd = (h.sHeapEnd + k * pageSize) % 2 ^ 64 := by
  induction k generalizing h with
  | zero => rw [mapPages, Nat.zero_mul, Nat.add_zero, Nat.mod_eq_of_lt hlt]
  | succ k ih =>
    rw [mapPages, ih _ (add64_lt _ _), Nat.succ_mul]
    show (add64 h.sHeapEnd pageSize + k * pageSize) % 2 ^ 64 = _
    unfold add64
    omega

theorem expandHeap_sameArena (h : Heap) (n : ℕ) :
    SameArena (mapPages (n / pageSize + 1) h) (h.expandHeap n) := by
  unfold expandHeap
  extract_lets numPages numBytes extension h₁ h₂ h₃ h₄ h₅ h₆ h₇
  have hedits : SameArena h₁ h₇ := ⟨rfl, rfl, rfl⟩
  exact hedits.trans (combineBackward_sameArena _ _)

theorem expandHeap_sHeapEnd (h : Heap) (n : ℕ) :
    (h.expandHeap n).sHeapEnd = (mapPages (n / pageSize + 1) h).sHeapEnd :=
  (expandHeap_sameArena h n).stop

theorem expandHeap_sHeapEnd_lt (h : Heap) (n : ℕ) : (h.expandHeap n).sHeapEnd < 2 ^ 64 := by
  rw [expandHeap_sHeapEnd, mapPages, mapPages_sHeapEnd _ _ (add64_lt _ _)]
  exact Nat.mod_lt _ (by decide)

theorem Chain.start_lt (hc : h.Chain segs) : h.sHeapStart < h.sHeapEnd := by
  obtain ⟨s, post, rfl⟩ := List.exists_cons_of_ne_nil hc.ne_nil
  have hle := hc.tiles.mem_le (s := s) (by simp)
  have hlong := hc.long s (by simp)
  omega

/-- **One expansion** wraps nowhere exactly if it ends below the top of the address space. -/
theorem staysInRange_iff (hbase : heapVirtualBase ≤ h.sHeapStart)
    (hstart : h.sHeapStart < h.sHeapEnd)
    (hlt : h.sHeapEnd < 2 ^ 64) : h.StaysInRange n ↔ h.expandedEnd n < 2 ^ 64 := by
  unfold expandedEnd
  constructor
  · intro hrange
    rw [← hrange.stop, expandHeap_sHeapEnd, mapPages_sHeapEnd _ _ hlt]
    exact Nat.mod_lt _ (by decide)
  · intro hfit
    have hstop : (h.expandHeap n).sHeapEnd = h.sHeapEnd + (n / pageSize + 1) * pageSize := by
      rw [expandHeap_sHeapEnd, mapPages_sHeapEnd _ _ hlt, Nat.mod_eq_of_lt hfit]
    refine ⟨mul64_of_lt (by omega), hstop, by omega, fun i hi => ?_⟩
    have hle : i * pageSize ≤ (n / pageSize + 1) * pageSize := Nat.mul_le_mul_right _ hi.le
    rw [mapPages_sHeapEnd _ _ hlt, Nat.mod_eq_of_lt (by omega)]
    exact ⟨by omega, by omega⟩

theorem staysBelow_of_expansions {fuel : ℕ}
    (hall : ∀ e ∈ expansions fuel h n, e.1.expandedEnd e.2 < 2 ^ 64) : StaysBelow fuel h n := by
  induction fuel generalizing h n with
  | zero => trivial
  | succ fuel ih =>
    intro hn r hr hnull
    rw [expansions, if_neg hn, hr] at hall
    dsimp only at hall
    rw [if_pos hnull, List.forall_mem_cons] at hall
    exact ⟨hall.1, ih hall.2⟩

theorem expansions_of_find {fuel : ℕ} (hc : h.Chain segs) (hm : roundRequest n = m)
    (hfind : segs.find? (Fits m ·) = some t) : expansions fuel h n = [] := by
  subst hm
  have hpos := hc.addr_pos (List.mem_of_find?_eq_some hfind)
  cases fuel with
  | zero => rfl
  | succ fuel =>
    rw [expansions]
    split
    · rfl
    · cases hr : search (roundRequest n) fuel h h.sHeapStart with
      | none => rfl
      | some r =>
        have heq := hc.search_start_eq hr
        rw [hfind] at heq
        subst heq
        exact if_neg (Nat.ne_of_gt hpos)

/-- The heap after some calls of `expand_heap`. -/
def expandedBy (h : Heap) (calls : List (Heap × ℕ)) : Heap :=
  calls.foldl (fun g e => g.expandHeap e.2) h

theorem expandedBy_cons (h : Heap) (e : Heap × ℕ) (calls : List (Heap × ℕ)) :
    h.expandedBy (e :: calls) = (h.expandHeap e.2).expandedBy calls := by
  rw [expandedBy, expandedBy, List.foldl_cons]

@[simp] theorem expandedBy_nil (h : Heap) : h.expandedBy [] = h := by
  rw [expandedBy, List.foldl_nil]

/-- **What `malloc` comes to**: the calls of `expand_heap` that it makes, and then the first segment
that fits. -/
theorem Chain.malloc_expansions {fuel : ℕ} (hc : h.Chain segs) (hn : n ≠ 0)
    (hbelow : StaysBelow fuel h n) (hm : h.malloc false fuel n = some (h', p)) :
    ∃ gs, Grows (roundRequest n) h segs (expansions fuel h n).length
        (h.expandedBy (expansions fuel h n)) gs ∧
      TakesFrom (roundRequest n) (h.expandedBy (expansions fuel h n)) gs h' p := by
  induction fuel generalizing h segs n with
  | zero => cases hm
  | succ fuel ih =>
    obtain ⟨t, hfind, rfl, rfl⟩ | ⟨hsearch, hm⟩ := hc.malloc_cases hn hm
    · rw [expansions_of_find hc rfl hfind, expandedBy_nil]
      exact ⟨segs, .refl, .inr ⟨t, hfind, rfl, rfl⟩⟩
    · obtain ⟨hfit, hbelow⟩ := hbelow hn _ hsearch rfl
      have hcalls : expansions (fuel + 1) h n = (h, roundRequest n) ::
          expansions fuel (h.expandHeap (roundRequest n)) (roundRequest n) := by
        rw [expansions, if_neg hn, hsearch]
        exact if_pos rfl
      rw [hcalls, List.length_cons, expandedBy_cons]
      by_cases hzero : roundRequest n = 0
      · have hnone : ∀ g, expansions fuel g (roundRequest n) = [] := fun g => by
          cases fuel with
          | zero => rfl
          | succ fuel => exact if_pos hzero
        rw [hnone, List.length_nil, expandedBy_nil]
        dsimp only
        generalize roundRequest n = m at hzero hm hfit ⊢
        subst hzero
        obtain ⟨hh, hp⟩ := malloc_zero hm
        exact ⟨_, .expand .refl hfit, .inl ⟨rfl, hh, hp⟩⟩
      · obtain ⟨gs, hg, htake⟩ := ih (hc.expandHeap hfit) hzero hbelow hm
        rw [roundRequest_idem] at hg htake
        exact ⟨gs, hg.head hfit, htake⟩

theorem Chain.malloc_grows {fuel : ℕ} (hc : h.Chain segs) (hn : n ≠ 0)
    (hbelow : StaysBelow fuel h n)
    (hm : h.malloc false fuel n = some (h', p)) :
    ∃ j g gs, Grows (roundRequest n) h segs j g gs ∧ TakesFrom (roundRequest n) g gs h' p :=
  ⟨_, _, hc.malloc_expansions hn hbelow hm⟩

theorem mem_expansions_succ {fuel : ℕ} {e : Heap × ℕ} (he : e ∈ expansions fuel h n) :
    e ∈ expansions (fuel + 1) h n := by
  induction fuel generalizing h n with
  | zero => cases he
  | succ fuel ih =>
    rw [expansions] at he ⊢
    split at he
    · cases he
    next hn =>
      rw [if_neg hn]
      cases hr : search (roundRequest n) fuel h h.sHeapStart with
      | none =>
        rw [hr] at he
        cases he
      | some r =>
        rw [hr] at he
        rw [search_improves _ _ _ _ r hr]
        dsimp only at he ⊢
        split at he
        next hnull =>
          rw [if_pos hnull]
          obtain rfl | he := List.mem_cons.mp he
          · exact .head _
          · exact .tail _ (ih he)
        · cases he

theorem mem_expansions_of_le {k l : ℕ} {e : Heap × ℕ} (hkl : k ≤ l) (he : e ∈ expansions k h n) :
    e ∈ expansions l h n := by
  induction hkl with
  | refl => exact he
  | step _ ih => exact mem_expansions_succ ih

/-- When nothing fits, the heap is expanded, and then as by the same request once more. -/
theorem expansions_of_none (hc : h.Chain segs) (hn : n ≠ 0) (hm : roundRequest n = m)
    (hfind : segs.find? (Fits m ·) = none) {P : Heap × ℕ → Prop} :
    (∀ fuel, ∀ e ∈ expansions fuel h n, P e) ↔ P (h, m) ∧
      ∀ fuel, ∀ e ∈ expansions fuel (h.expandHeap m) m, P e := by
  subst hm
  have hsucc : ∀ fuel, segs.length ≤ fuel → expansions (fuel + 1) h n = (h, roundRequest n) ::
      expansions fuel (h.expandHeap (roundRequest n)) (roundRequest n) := by
    intro fuel hfuel
    rw [expansions, if_neg hn, (hc.malloc_of_none hn hfuel hfind).1]
    exact if_pos rfl
  constructor
  · intro hall
    refine ⟨hall (segs.length + 1) _ ?_, fun fuel e he => hall (max segs.length fuel + 1) e ?_⟩
    · rw [hsucc _ le_rfl]
      exact .head _
    · rw [hsucc _ (le_max_left _ _)]
      exact .tail _ (mem_expansions_of_le (le_max_right _ _) he)
  · rintro ⟨hfirst, hrest⟩ fuel e he
    have hmore := mem_expansions_of_le (Nat.le_succ_of_le (le_max_right segs.length fuel)) he
    rw [hsucc _ (le_max_left _ _)] at hmore
    obtain rfl | he := List.mem_cons.mp hmore
    · exact hfirst
    · exact hrest _ e he

/-! ### How many expansions there are -/

/-- The length of the last segment after `expand_heap(m)`. -/
def lastLength (segs : List Segment) (m : ℕ) : ℕ :=
  match segs.getLast? with
  | none => 0
  | some s =>
    if s.free then s.length + (m / pageSize + 1) * pageSize
    else (m / pageSize + 1) * pageSize - headerSize

/-- How often `malloc` expands the heap for a request that is rounded to `m`. -/
def expansionsNeeded (segs : List Segment) (m : ℕ) : ℕ :=
  if (segs.find? (Fits m ·)).isSome then 0
  else if m + headerSize + 8 ≤ lastLength segs m then 1
  else 2

theorem expansionsNeeded_le (segs : List Segment) (m : ℕ) : expansionsNeeded segs m ≤ 2 := by
  unfold expansionsNeeded
  split_ifs <;> decide

/-- A request of `n` bytes can be rounded up, and the heap can grow for it without reaching the top
of the address space. -/
def Room (h : Heap) (n : ℕ) : Prop :=
  n = 0 ∨ n ≤ 2 ^ 64 - 8 ∧ ∃ segs, h.Chain segs ∧
    h.sHeapEnd + expansionsNeeded segs (roundRequest n) *
      ((roundRequest n / pageSize + 1) * pageSize) < 2 ^ 64

/-- The last segment after an expansion is free. -/
theorem exists_last_expanded (hne : segs ≠ []) (m : ℕ) : ∃ pre l,
    absorbBack segs [h.extension m] = pre ++ [l] ∧ l.free = true ∧
      l.length = lastLength segs m ∧ ∀ t ∈ pre, t ∈ segs := by
  obtain rfl | ⟨pre, s, rfl⟩ := List.eq_nil_or_concat segs
  · exact absurd rfl hne
  · rw [List.concat_eq_append, absorbBack_concat, lastLength, List.getLast?_concat]
    dsimp only
    cases hs : s.free with
    | true =>
      refine ⟨pre, ⟨s.addr, s.length + headerSize + (h.extension m).length, s.free⟩, ?_, hs, ?_,
        fun t ht => by simp [ht]⟩
      · rw [if_pos rfl, absorb, if_pos (by rfl)]
      · have hheader := headerSize_lt_extension m
        rw [if_pos rfl, extension]
        dsimp only
        omega
    | false =>
      refine ⟨pre ++ [s], h.extension m, ?_, rfl, ?_, fun t ht => ht⟩
      · rw [if_neg (by decide), List.append_assoc]
        rfl
      · rw [if_neg (by decide), extension]

theorem find_concat {l : Segment} (hnone : ∀ t ∈ pre, ¬ Fits m t) :
    ((pre ++ [l]).find? (Fits m ·)).isSome ↔ Fits m l := by
  have hpre : pre.find? (Fits m ·) = none := List.find?_eq_none.mpr fun t ht => by
    simpa using hnone t ht
  rw [List.find?_append, hpre, Option.none_or, List.find?_cons]
  by_cases hl : Fits m l <;> simp [hl]

/-- When nothing has fitted, something fits after an expansion exactly if the last segment is long
enough to be split: it is never just as long as the request. -/
theorem Chain.find_expanded (hc : h.Chain segs) (hm : m % 8 = 0) (hpos : 8 ≤ m)
    (hfind : segs.find? (Fits m ·) = none) :
    ((absorbBack segs [h.extension m]).find? (Fits m ·)).isSome ↔
      m + headerSize + 8 ≤ lastLength segs m := by
  obtain ⟨pre, l, heq, hfree, hlen, hpre⟩ := exists_last_expanded (h := h) hc.ne_nil m
  have hnone : ∀ t ∈ pre, ¬ Fits m t := fun t ht => by
    simpa using List.find?_eq_none.mp hfind t (hpre t ht)
  have hne : lastLength segs m ≠ m := by
    obtain ⟨pre', s, rfl⟩ := hc.exists_concat
    rw [lastLength, List.getLast?_concat]
    dsimp only
    unfold pageSize headerSize
    split <;> omega
  rw [heq, find_concat hnone, Fits, hlen]
  constructor
  · rintro ⟨-, heq | ⟨-, hroom⟩⟩
    · exact absurd heq hne
    · exact hroom
  · exact fun hroom => ⟨hfree, .inr ⟨hpos, hroom⟩⟩

theorem lastLength_expanded (hne : segs ≠ []) (m : ℕ) :
    lastLength (absorbBack segs [h.extension m]) m =
      lastLength segs m + (m / pageSize + 1) * pageSize := by
  obtain ⟨pre, l, heq, hfree, hlen, -⟩ := exists_last_expanded (h := h) hne m
  rw [heq]
  conv_lhs => rw [lastLength, List.getLast?_concat]
  rw [← hlen]
  exact if_pos hfree

theorem Chain.room_twice (hc : h.Chain segs) (m : ℕ) :
    m + headerSize + 8 ≤ lastLength segs m + (m / pageSize + 1) * pageSize := by
  obtain ⟨pre, s, rfl⟩ := hc.exists_concat
  rw [lastLength, List.getLast?_concat]
  dsimp only
  unfold pageSize headerSize
  split <;> omega

theorem roundRequest_spec (hn : n ≠ 0) (hle : n ≤ 2 ^ 64 - 8) :
    n ≤ roundRequest n ∧ 8 ≤ roundRequest n ∧ roundRequest n % 8 = 0 ∧ roundRequest n < 2 ^ 64 := by
  unfold roundRequest add64
  split <;> omega

section Expanded

variable (hc : h.Chain segs) (hbase : heapVirtualBase ≤ h.sHeapStart) (hn : n ≠ 0)
  (hm : roundRequest n = m) (hmod : m % 8 = 0) (hpos : 8 ≤ m)
  (hfind : segs.find? (Fits m ·) = none)

include hc hbase hn hm hfind

theorem Chain.expanded_cons_iff : (∀ fuel, ∀ e ∈ expansions fuel h n, e.1.StaysInRange e.2) ↔
    h.expandedEnd m < 2 ^ 64 ∧
      ∀ fuel, ∀ e ∈ expansions fuel (h.expandHeap m) m, e.1.StaysInRange e.2 := by
  have hfirst : h.StaysInRange m ↔ h.expandedEnd m < 2 ^ 64 :=
    staysInRange_iff hbase hc.start_lt hc.end_lt
  rw [← hfirst]
  exact expansions_of_none hc hn hm hfind

include hmod hpos

theorem Chain.expanded_once_iff (hroom : m + headerSize + 8 ≤ lastLength segs m) :
    (∀ fuel, ∀ e ∈ expansions fuel h n, e.1.StaysInRange e.2) ↔ h.expandedEnd m < 2 ^ 64 := by
  rw [hc.expanded_cons_iff hbase hn hm hfind]
  refine and_iff_left_of_imp fun hfit fuel e he => ?_
  obtain ⟨t, ht⟩ := Option.isSome_iff_exists.mp ((hc.find_expanded hmod hpos hfind).mpr hroom)
  rw [expansions_of_find (hc.expandHeap hfit) (hm ▸ roundRequest_idem n) ht] at he
  cases he

/-- When nothing fits after an expansion, there is one more. -/
theorem Chain.expanded_twice_iff (hshort : ¬ m + headerSize + 8 ≤ lastLength segs m) :
    (∀ fuel, ∀ e ∈ expansions fuel h n, e.1.StaysInRange e.2) ↔
      h.expandedEnd m + (m / pageSize + 1) * pageSize < 2 ^ 64 := by
  rw [hc.expanded_cons_iff hbase hn hm hfind]
  have hsecond : h.expandedEnd m < 2 ^ 64 →
      ((∀ fuel, ∀ e ∈ expansions fuel (h.expandHeap m) m, e.1.StaysInRange e.2) ↔
        h.expandedEnd m + (m / pageSize + 1) * pageSize < 2 ^ 64) := by
    intro hfit
    obtain ⟨hstart, hend⟩ := expandHeap_bounds hc hfit
    have hnone : (absorbBack segs [h.extension m]).find? (Fits m ·) = none :=
      Option.not_isSome_iff_eq_none.mp fun hsome =>
        hshort ((hc.find_expanded hmod hpos hfind).mp hsome)
    have hroom : m + headerSize + 8 ≤ lastLength (absorbBack segs [h.extension m]) m := by
      rw [lastLength_expanded hc.ne_nil]
      exact hc.room_twice m
    rw [← hend]
    exact (hc.expandHeap hfit).expanded_once_iff (by rwa [hstart]) (by omega)
      (hm ▸ roundRequest_idem n) hmod hpos hnone hroom
  constructor
  · rintro ⟨hfit, hrest⟩
    exact (hsecond hfit).mp hrest
  · intro hfit
    have hfirst := Nat.lt_of_le_of_lt (Nat.le_add_right _ _) hfit
    exact ⟨hfirst, (hsecond hfirst).mpr hfit⟩

end Expanded

/-- **The expansions of one call** stay in range exactly if the heap has room for as many as are
needed. -/
theorem Chain.expanded_iff (hc : h.Chain segs) (hbase : heapVirtualBase ≤ h.sHeapStart) (hn : n ≠ 0)
    (hle : n ≤ 2 ^ 64 - 8) :
    (∀ fuel, ∀ e ∈ expansions fuel h n, e.1.StaysInRange e.2) ↔
      h.sHeapEnd + expansionsNeeded segs (roundRequest n) *
        ((roundRequest n / pageSize + 1) * pageSize) < 2 ^ 64 := by
  obtain ⟨-, hpos, hmod, -⟩ := roundRequest_spec hn hle
  rw [expansionsNeeded]
  cases hfind : segs.find? (Fits (roundRequest n) ·) with
  | some t =>
    rw [if_pos (by rfl), Nat.zero_mul, Nat.add_zero]
    refine iff_of_true (fun fuel e he => ?_) hc.end_lt
    rw [expansions_of_find hc rfl hfind] at he
    cases he
  | none =>
    rw [if_neg (by decide)]
    split
    next hroom =>
      rw [Nat.one_mul]
      exact hc.expanded_once_iff hbase hn rfl hmod hpos hfind hroom
    next hshort =>
      rw [Nat.two_mul, ← Nat.add_assoc]
      exact hc.expanded_twice_iff hbase hn rfl hmod hpos hfind hshort

/-- **One state**: `malloc(n)` wraps nowhere exactly if there is room. -/
theorem Chain.neverWraps_iff (hc : h.Chain segs) (hbase : heapVirtualBase ≤ h.sHeapStart)
    (hn : n < 2 ^ 64) : h.NeverWraps n ↔ h.Room n := by
  by_cases hzero : n = 0
  · subst hzero
    refine iff_of_true ⟨Nat.zero_le _, fun fuel e he => ?_⟩ (.inl rfl)
    cases fuel with
    | zero => cases he
    | succ fuel =>
      rw [expansions, if_pos rfl] at he
      cases he
  · constructor
    · rintro ⟨hrounded, hexpanded⟩
      have hle : n ≤ 2 ^ 64 - 8 := by
        unfold roundRequest add64 at hrounded
        split at hrounded <;> omega
      exact .inr ⟨hle, segs, hc, (hc.expanded_iff hbase hzero hle).mp hexpanded⟩
    · intro hroom
      obtain ⟨hle, segs', hc', hfit⟩ := hroom.resolve_left hzero
      exact ⟨(roundRequest_spec hzero hle).1, (hc'.expanded_iff hbase hzero hle).mpr hfit⟩

/-- A call for which nothing fits returns if the one after the expansion does. -/
theorem Chain.malloc_returns_of_none (hc : h.Chain segs) (hn : n ≠ 0) (hm : roundRequest n = m)
    (hfind : segs.find? (Fits m ·) = none)
    (hreturns : ∃ fuel r, (h.expandHeap m).malloc false fuel m = some r) :
    ∃ fuel r, h.malloc false fuel n = some r := by
  subst hm
  obtain ⟨fuel, r, hr⟩ := hreturns
  refine ⟨max segs.length fuel + 1, r, ?_⟩
  rw [(hc.malloc_of_none hn (le_max_left _ _) hfind).2]
  exact improves_of_le (fun fuel => malloc_improves false fuel _ _) (le_max_right _ _) r hr

/-- **A call that has room returns.** -/
theorem Room.malloc_returns (hroom : h.Room n) :
    ∃ fuel r, h.malloc false fuel n = some r := by
  by_cases hn : n = 0
  · exact ⟨1, _, by rw [Heap.malloc, if_pos hn]⟩
  obtain ⟨hle, segs, hc, hfit⟩ := hroom.resolve_left hn
  obtain ⟨-, hpos, hmod, -⟩ := roundRequest_spec hn hle
  have hround := roundRequest_idem n
  obtain ⟨m, hm⟩ : ∃ m, roundRequest n = m := ⟨_, rfl⟩
  rw [hm] at hpos hmod hround hfit
  have hfits : ∀ {g : Heap} {gs : List Segment} {k : ℕ}, g.Chain gs → k ≠ 0 → roundRequest k = m →
      (gs.find? (Fits m ·)).isSome → ∃ fuel r, g.malloc false fuel k = some r := by
    intro g gs k hg hk hkm hsome
    obtain ⟨t, ht⟩ := Option.isSome_iff_exists.mp hsome
    exact ⟨_, _, (hg.malloc_of_find hk le_rfl (hkm ▸ ht)).1⟩
  rw [expansionsNeeded] at hfit
  cases hfind : segs.find? (Fits m ·) with
  | some t => exact hfits hc hn hm (by rw [hfind]; rfl)
  | none =>
    rw [hfind, if_neg (by decide)] at hfit
    have hm0 : m ≠ 0 := by omega
    have hfit₁ : h.expandedEnd m < 2 ^ 64 := by
      unfold expandedEnd
      split at hfit <;> omega
    have hc₁ := hc.expandHeap hfit₁
    have hfind₁ := hc.find_expanded hmod hpos hfind
    refine hc.malloc_returns_of_none hn hm hfind ?_
    -- a second expansion is needed when the first has left the last segment too short
    by_cases hroom₁ : m + headerSize + 8 ≤ lastLength segs m
    · exact hfits hc₁ hm0 hround (hfind₁.mpr hroom₁)
    · rw [if_neg hroom₁, Nat.two_mul, ← Nat.add_assoc] at hfit
      have hnone₁ := Option.not_isSome_iff_eq_none.mp fun hsome => hroom₁ (hfind₁.mp hsome)
      have hfit₂ : (h.expandHeap m).expandedEnd m < 2 ^ 64 := by
        rwa [expandedEnd, (expandHeap_bounds hc hfit₁).2, expandedEnd]
      refine hc₁.malloc_returns_of_none hm0 hround hnone₁
        (hfits (hc₁.expandHeap hfit₂) hm0 hround ?_)
      rw [hc₁.find_expanded hmod hpos hnone₁, lastLength_expanded hc.ne_nil]
      exact hc.room_twice m

theorem Chain.unique (hc : h.Chain segs) (hc' : h.Chain segs') : segs = segs' :=
  Linked.unique (by decide) hc.linked hc'.linked hc.tiles hc'.tiles

theorem free_sameArena (h : Heap) (p : ℕ) : SameArena h (h.free p) :=
  ((SameArena.setField h _ _ _).trans (combineForward_sameArena _ _)).trans
    (combineBackward_sameArena _ _)

end Heap

/-! ### Runs -/

theorem HeapStep.start {c c' : HeapClient} {l : HeapCall} {segs : List Segment} (hs : c.Sound segs)
    (hstep : HeapStep c l c') : c'.heap.sHeapStart = c.heap.sHeapStart := by
  cases hstep with
  | malloc hn hbelow hm =>
    obtain ⟨segs', halloc⟩ := hs.chain.malloc hn hbelow hm
    exact halloc.start
  | free hp =>
    dsimp only
    exact (Heap.free_sameArena _ _).start
  | expandHeap hfit =>
    dsimp only
    exact (Heap.expandHeap_bounds hs.chain hfit).1
  | write hb hi => rfl

theorem heapRun_start {h : Heap} {calls : List HeapCall} {c : HeapClient}
    (hrun : Run HeapStep ⟨h.initHeap, []⟩ calls c) : c.heap.sHeapStart = heapVirtualBase := by
  have hinv : (∃ segs, c.Sound segs) ∧ c.heap.sHeapStart = heapVirtualBase := by
    refine hrun.invariant
      (I := fun c => (∃ segs, c.Sound segs) ∧ c.heap.sHeapStart = heapVirtualBase)
      ⟨⟨_, HeapClient.sound_init h⟩, rfl⟩ ?_
    rintro c l c' ⟨⟨segs, hs⟩, hstart⟩ hstep
    obtain ⟨segs', hs', -⟩ := hstep.sound hs
    exact ⟨⟨segs', hs'⟩, (hstep.start hs).trans hstart⟩
  exact hinv.2

/-- The calls a client may make whenever there is room for them in the address space. -/
inductive RoomStep : HeapClient → HeapCall → HeapClient → Prop where
  | malloc {c : HeapClient} {n p fuel : ℕ} {h : Heap} (hn : n < 2 ^ 64) (hroom : c.heap.Room n)
      (hm : c.heap.malloc false fuel n = some (h, p)) :
      RoomStep c (.malloc n p) ⟨h, if p = 0 then c.live else (p, n) :: c.live⟩
  | free {c : HeapClient} {p : ℕ} (hp : p ∈ c.live.map Prod.fst) :
      RoomStep c (.free p) ⟨c.heap.free p, c.live.filter fun b => b.1 ≠ p⟩
  | expandHeap {c : HeapClient} {n : ℕ} (hfit : c.heap.expandedEnd n < 2 ^ 64) :
      RoomStep c (.expandHeap n) ⟨c.heap.expandHeap n, c.live⟩
  | write {c : HeapClient} {b : ℕ × ℕ} {i : ℕ} {v : UInt8} (hb : b ∈ c.live) (hi : i < b.2) :
      RoomStep c (.write (b.1 + i) v)
        ⟨{ c.heap with mem := Function.update c.heap.mem (b.1 + i) v }, c.live⟩

/-- A heap that never wraps stays below the top of the address space. -/
theorem Heap.NeverWraps.staysBelow {h : Heap} {n : ℕ} (hnever : h.NeverWraps n) (fuel : ℕ) :
    Heap.StaysBelow fuel h n := by
  refine Heap.staysBelow_of_expansions fun e he => ?_
  have hstop := (hnever.expanded fuel e he).stop
  have hlt := Heap.expandHeap_sHeapEnd_lt e.1 e.2
  rw [hstop] at hlt
  exact hlt

/-- **One step**: a call for which there is room is a call that a client may make. -/
theorem RoomStep.heapStep {c c' : HeapClient} {l : HeapCall} {segs : List Segment}
    (hs : c.Sound segs) (hbase : heapVirtualBase ≤ c.heap.sHeapStart) (hstep : RoomStep c l c') :
    HeapStep c l c' := by
  cases hstep with
  | @malloc n p fuel h hn hroom hm =>
    exact .malloc hn (((hs.chain.neverWraps_iff hbase hn).mpr hroom).staysBelow fuel) hm
  | free hp => exact .free hp
  | expandHeap hfit => exact .expandHeap hfit
  | write hb hi => exact .write hb hi

/-- **The runs**: by induction on the calls, with the chain of the run so far. -/
theorem roomRun_heapRun {h : Heap} {calls : List HeapCall} {c : HeapClient}
    (hrun : Run RoomStep ⟨h.initHeap, []⟩ calls c) : Run HeapStep ⟨h.initHeap, []⟩ calls c := by
  refine hrun.trace_invariant (I := Run HeapStep ⟨h.initHeap, []⟩)
    .nil fun calls c l c' hrun hstep => ?_
  obtain ⟨segs, hs⟩ := heapRun_sound hrun
  exact hrun.snoc (hstep.heapStep hs (heapRun_start hrun).ge)

/-- **`malloc` wraps nowhere exactly if there is room**: in every state that a run reaches, a 64-bit
request is rounded without wrapping, and every expansion it leads to stays in range, exactly if the
heap has room for it, and then the call returns.  A run of calls that all have room, of whatever
length, keeps the heap between `HEAP_VIRTUAL_BASE` and the top of the address space. -/
theorem heap_never_wraps_iff (h : Heap) :
    (∀ calls c, Run HeapStep ⟨h.initHeap, []⟩ calls c → ∀ n < 2 ^ 64,
      (c.heap.NeverWraps n ↔ c.heap.Room n) ∧
        (c.heap.Room n → ∃ fuel r, c.heap.malloc false fuel n = some r)) ∧
    ∀ calls c, Run RoomStep ⟨h.initHeap, []⟩ calls c → Run HeapStep ⟨h.initHeap, []⟩ calls c ∧
      c.heap.sHeapStart = heapVirtualBase ∧ c.heap.sHeapStart < c.heap.sHeapEnd ∧
      c.heap.sHeapEnd < 2 ^ 64 := by
  refine ⟨fun calls c hrun n hn => ?_, fun calls c hrun => ?_⟩
  · obtain ⟨segs, hs⟩ := heapRun_sound hrun
    exact ⟨hs.chain.neverWraps_iff (heapRun_start hrun).ge hn, Heap.Room.malloc_returns⟩
  · have hrun' := roomRun_heapRun hrun
    obtain ⟨segs, hs⟩ := heapRun_sound hrun'
    exact ⟨hrun', heapRun_start hrun', hs.chain.start_lt, hs.chain.end_lt⟩

theorem Heap.initHeap_sHeapEnd (h : Heap) : h.initHeap.sHeapEnd = heapVirtualBase + pageSize := rfl

theorem Heap.room_first {n : ℕ} (hn : n ≤ 2 ^ 20) : HeapClient.first.heap.Room n := by
  refine .inr ⟨by omega, [firstSegment], Heap.unset.initHeap_chain, ?_⟩
  have hcount := expansionsNeeded_le [firstSegment] (roundRequest n)
  have hround : roundRequest n ≤ n + 8 := by
    unfold roundRequest add64
    split <;> omega
  have hgrown := Nat.mul_le_mul_right ((roundRequest n / pageSize + 1) * pageSize) hcount
  rw [HeapClient.first, Heap.initHeap_sHeapEnd]
  unfold heapVirtualBase pageSize at *
  omega

/-- The first page of the heap cannot hold 4080 bytes. -/
theorem heap_never_wraps_iff_expanded :
    HeapClient.first.heap.NeverWraps 4080 ∧ Heap.expansions 2 HeapClient.first.heap 4080 ≠ [] ∧
      ∃ p c, Run RoomStep .first [.malloc 4080 p] c ∧ c.heap.sHeapEnd < 2 ^ 64 := by
  obtain ⟨hcalls, hruns⟩ := heap_never_wraps_iff Heap.unset
  obtain ⟨hiff, hreturns⟩ := hcalls [] .first .nil 4080 (by decide)
  have hroom : HeapClient.first.heap.Room 4080 := Heap.room_first (by decide)
  obtain ⟨fuel, ⟨h', p⟩, hm⟩ := hreturns hroom
  have hrun : Run RoomStep .first [.malloc 4080 p] _ :=
    .single (.malloc (by decide) hroom hm)
  refine ⟨hiff.mpr hroom, ?_, p, _, hrun, (hruns _ _ hrun).2.2.2⟩
  have hsearch := (Heap.unset.initHeap_chain.malloc_of_none (n := 4080) (by decide)
    (Nat.le_refl 1) (by decide)).1
  rw [Heap.expansions, if_neg (by decide), HeapClient.first, hsearch]
  exact List.cons_ne_nil _ _

/-- On the heap that `init_heap` has set up, a request of 16 MiB leads past the top of the address
space. -/
theorem malloc_wraps : ¬∀ (h : Heap) (calls : List HeapCall) (c : HeapClient) (n : ℕ),
    Run HeapStep ⟨h.initHeap, []⟩ calls c → n < 2 ^ 64 → c.heap.NeverWraps n := by
  intro hclaim
  have hnever := hclaim Heap.unset [] .first (2 ^ 24) .nil (by decide)
  have hroom := (Heap.unset.initHeap_chain.neverWraps_iff (Nat.le_refl _) (by decide)).mp hnever
  obtain ⟨-, segs, hc, hfit⟩ := hroom.resolve_left (by decide)
  obtain rfl := hc.unique Heap.unset.initHeap_chain
  rw [Heap.initHeap_sHeapEnd] at hfit
  exact absurd hfit (by decide)

end Eterna
