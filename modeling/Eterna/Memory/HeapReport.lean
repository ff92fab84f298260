import Eterna.Memory.HeapAlign
import Eterna.Memory.HeapChart

/-!
# What the reports cost

`heap_print_debug` and `heap_print_debug_summed` walk over the regions and draw the star chart.
Here `malloc` is without its diagnostics.

* `HeapClient.report` : a report with the blocks that are allocated and not freed;
* `Unscathed.malloc_ne` : whatever the drawing has overwritten, the string of the chart does not get
  the buffer that it is copied from;
* `report_leaks` : so every report that returns leaves one block more than there was.
-/

namespace Eterna

open ByteMemory SegmentChain Runs Fuel

namespace Heap

/-! ### The reports -/

/-- The inner loop of `heap_print_debug_summed`, from the region `it` on, for at most `fuel`
regions: the index and the header of the next region that is not like the first, or `nullptr`. -/
def sumRun (h : Heap) (free : Bool) : ℕ → ℕ → ℕ → Option (ℕ × ℕ)
  | 0, _, _ => none
  | fuel + 1, i, it =>
    if h.next it = 0 then some (i, 0)
    else if h.isFree (h.next it) ≠ free then some (i + 1, h.next it)
    else h.sumRun free fuel (i + 1) (h.next it)

/-- The loop of `heap_print_debug_summed` over the runs of regions.  It counts the regions. -/
def countRuns (h : Heap) : ℕ → ℕ → ℕ → Option ℕ
  | 0, _, _ => none
  | fuel + 1, i, it =>
    if it = 0 then some i
    else (h.sumRun (h.isFree it) fuel i it).bind fun r => h.countRuns fuel r.1 r.2

/-- `heap_print_debug_summed`. -/
def printDebugSummed (new : Heap → ℕ → Option (Heap × ℕ)) (fuel : ℕ) (h : Heap) : Option Heap := do
  let _ ← h.countRuns fuel 0 h.sHeapStart
  h.starchart new fuel

variable {h h' g : Heap} {segs pre post : List Segment} {s t : Segment} {out x n fuel : ℕ}

/-! ### The walk over the regions -/

theorem countRegions_isSome (hc : h.Chain (pre ++ s :: post)) (i : ℕ)
    (hfuel : post.length + 1 < fuel) : (h.countRegions fuel i s.addr).isSome := by
  induction post generalizing pre s i fuel with
  | nil =>
    obtain ⟨fuel, rfl⟩ : ∃ k, fuel = k + 2 := ⟨fuel - 2, by omega⟩
    have hpos := hc.addr_pos (s := s) (by simp)
    rw [countRegions, if_neg hpos.ne', hc.next_eq]
    rfl
  | cons t post ih =>
    rw [List.length_cons] at hfuel
    obtain ⟨fuel, rfl⟩ : ∃ k, fuel = k + 1 := ⟨fuel - 1, by omega⟩
    have hpos := hc.addr_pos (s := s) (by simp)
    rw [countRegions, if_neg hpos.ne', hc.next_eq]
    exact ih hc.shift (i + 1) (by omega)

/-- A run of regions that are like the first one ends behind the last region, or in front of a later
one. -/
theorem sumRun_spec (hc : h.Chain (pre ++ s :: post)) (free : Bool) (i : ℕ)
    (hfuel : post.length < fuel) : ∃ j, h.sumRun free fuel i s.addr = some (j, 0) ∨
      ∃ pre' t post', pre' ++ t :: post' = pre ++ s :: post ∧ post'.length < post.length ∧
        h.sumRun free fuel i s.addr = some (j, t.addr) := by
  induction post generalizing pre s i fuel with
  | nil =>
    obtain ⟨fuel, rfl⟩ : ∃ k, fuel = k + 1 := ⟨fuel - 1, by omega⟩
    exact ⟨i, .inl (by rw [sumRun, hc.next_eq]; rfl)⟩
  | cons t post ih =>
    rw [List.length_cons] at hfuel
    obtain ⟨fuel, rfl⟩ : ∃ k, fuel = k + 1 := ⟨fuel - 1, by omega⟩
    have hnext : h.next s.addr = t.addr := hc.next_eq
    have hpos := hc.addr_pos (s := t) (by simp)
    rw [sumRun, hnext, if_neg hpos.ne']
    split
    next => exact ⟨_, .inr ⟨pre ++ [s], t, post, by simp, Nat.lt_succ_self _, rfl⟩⟩
    next =>
      obtain ⟨j, hj | ⟨pre', u, post', heq, hlt, hj⟩⟩ :=
        ih hc.shift (i + 1) (Nat.lt_of_succ_lt_succ hfuel)
      · exact ⟨j, .inl hj⟩
      · exact ⟨j, .inr ⟨pre', u, post', by simp [heq], Nat.lt_succ_of_lt hlt, hj⟩⟩

theorem countRuns_isSome (hc : h.Chain (pre ++ s :: post)) (i : ℕ)
    (hfuel : post.length + 1 < fuel) : (h.countRuns fuel i s.addr).isSome := by
  induction fuel generalizing pre s post i with
  | zero => exact absurd hfuel (Nat.not_lt_zero _)
  | succ fuel ih =>
    have hpos := hc.addr_pos (s := s) (by simp)
    rw [countRuns, if_neg hpos.ne']
    obtain ⟨j, hj | ⟨pre', u, post', heq, hlt, hj⟩⟩ :=
      sumRun_spec hc (h.isFree s.addr) i (Nat.lt_of_succ_lt_succ hfuel)
    · rw [hj, Option.bind_some]
      cases fuel with
      | zero => omega
      | succ fuel => rfl
    · rw [hj, Option.bind_some]
      exact ih (heq ▸ hc) j (by omega)

/-! ### The search, in any memory -/

theorem split_cases (h : Heap) (a n : ℕ) : h.split a n = (h, 0) ∨ (h.split a n).2 = a := by
  rw [split]
  split
  next => exact .inl rfl
  next =>
    split
    next => exact .inl rfl
    next =>
      dsimp only
      split
      next => exact .inl rfl
      next => exact .inr rfl

theorem next_lt (h : Heap) (a : ℕ) : h.next a < 2 ^ 64 := load_lt

/-- What the search finds is marked as free. -/
theorem search_free {current : ℕ} {r : Heap × ℕ} (hpos : current ≠ 0) (hlt : current < 2 ^ 64)
    (hr : search n fuel h current = some r) :
    r = (h, 0) ∨ r.2 ≠ 0 ∧ r.2 < 2 ^ 64 ∧ h.isFree r.2 = true := by
  induction fuel generalizing current with
  | zero => cases hr
  | succ fuel ih =>
    have honward : (if h.next current = 0 then some (h, 0)
        else search n fuel h (h.next current)) = some r →
        r = (h, 0) ∨ r.2 ≠ 0 ∧ r.2 < 2 ^ 64 ∧ h.isFree r.2 = true := by
      intro hr
      split at hr
      next => exact .inl (Option.some.inj hr).symm
      next hnext => exact ih hnext (next_lt h current) hr
    rw [search] at hr
    dsimp only at hr
    split at hr
    next hfree =>
      split at hr
      next =>
        obtain hsplit | hsplit := split_cases h current n
        · rw [hsplit, if_neg (fun hne => hne rfl)] at hr
          exact honward hr
        · rw [hsplit, if_pos hpos] at hr
          rw [← Option.some.inj hr]
          exact .inr ⟨hpos, hlt, hfree⟩
      next =>
        split at hr
        next =>
          rw [← Option.some.inj hr]
          exact .inr ⟨hpos, hlt, hfree⟩
        next => exact honward hr
    next => exact honward hr

/-! ### What the drawing cannot change -/

/-- `combine_forward` in front of the last header. -/
theorem combineForward_tail {a : ℕ} (hend : h.next (h.next a) = 0) :
    Writes [a] h (h.combineForward a) ∧
      ((h.combineForward a).sLastHeader = h.sLastHeader ∨
        (h.combineForward a).sLastHeader = a) := by
  have hnone : ∀ g : Heap, g.mem = h.mem → g.next (g.next a) = 0 := fun g hg => by
    have hnext : ∀ x, g.next x = h.next x := fun x => by
      rw [next, field, hg, next, field]
    rw [hnext, hnext, hend]
  rw [combineForward]
  split
  next => exact ⟨.refl _ h, .inl rfl⟩
  next =>
    split
    next => exact ⟨.refl _ h, .inl rfl⟩
    next =>
      dsimp only
      have hlast : (if h.next a = h.sLastHeader then h.setLastHeader a else h).mem = h.mem := by
        split <;> rfl
      rw [if_neg (fun hne => hne (hnone _ hlast))]
      refine ⟨?_, ?_⟩
      · have hsame : Writes [a] h (if h.next a = h.sLastHeader then h.setLastHeader a else h) :=
          fun x _ => congrFun hlast x
        exact (hsame.trans (.setField _ _ _ (by simp))).trans (.setField _ _ _ (by simp))
      · split
        next => exact .inr rfl
        next => exact .inl rfl

/-- The header at `a` is in use, and `sLastHeader` is this header or one behind it.  The drawing
keeps this, whatever it does to the headers behind its buffer. -/
structure Unscathed (h : Heap) (a : ℕ) : Prop where
  used : h.isFree a = false
  last : h.sLastHeader = a ∨ a + headerSize ≤ h.sLastHeader
  inside : h.sLastHeader + headerSize ≤ h.sHeapEnd
  start_pos : h.sHeapStart ≠ 0
  start_lt : h.sHeapStart < 2 ^ 64

namespace Unscathed

variable {a : ℕ}

theorem behind (hu : Unscathed h a) : a + headerSize ≤ h.sHeapEnd := by
  have hlast := hu.last
  have hinside := hu.inside
  omega

/-- Combining the last two segments keeps it. -/
theorem combineForward (hu : Unscathed h a) {b : ℕ} (hend : h.next (h.next b) = 0)
    (hapart : a + headerSize ≤ b) (hinside : b + headerSize ≤ h.sHeapEnd) :
    Unscathed (h.combineForward b) a := by
  obtain ⟨hw, hlast⟩ := combineForward_tail hend
  have hsame := combineForward_sameArena h b
  have hheader : (h.combineForward b).header a = h.header a := hw.header_eq (by simp [hapart])
  generalize h.combineForward b = g at hlast hsame hheader ⊢
  obtain ⟨-, hstart, hstop⟩ := hsame
  refine ⟨?_, ?_, ?_, hstart ▸ hu.start_pos, hstart ▸ hu.start_lt⟩
  · rw [← header_free, hheader]
    exact hu.used
  · obtain hlast | hlast := hlast
    · rw [hlast]
      exact hu.last
    · exact .inr (hlast ▸ hapart)
  · rw [hstop]
    obtain hlast | hlast := hlast
    · rw [hlast]
      exact hu.inside
    · rw [hlast]
      exact hinside

theorem extend (hu : Unscathed h a) (hfit : expandedEnd h n < 2 ^ 64) :
    Unscathed (h.extend n) a := by
  obtain ⟨hw, hstart, hend, hlast, -⟩ := extend_spec hfit hu.inside
  have hbehind := hu.behind
  have hlastHeader : (h.extend n).sLastHeader = h.sHeapEnd := rfl
  refine ⟨?_, ?_, ?_, hstart ▸ hu.start_pos, hstart ▸ hu.start_lt⟩
  · rw [← header_free]
    obtain rfl | hbefore := hu.last
    · rw [hlast]
      exact hu.used
    · have hapart : ∀ b ∈ [h.sLastHeader, h.sHeapEnd],
          b + headerSize ≤ a ∨ a + headerSize ≤ b := by simp [hbefore, hbehind]
      rw [hw.header_eq hapart]
      exact hu.used
  · exact .inr (hlastHeader ▸ hbehind)
  · rw [hlastHeader, hend, expandedEnd]
    have hheader := headerSize_lt_extension n
    omega

theorem expandHeap (hu : Unscathed h a) (hfit : expandedEnd h n < 2 ^ 64) :
    Unscathed (h.expandHeap n) a := by
  obtain ⟨-, -, hend, hlast, hext⟩ := extend_spec hfit hu.inside
  have hextend := hu.extend hfit
  have hinside := hu.inside
  have haddr : (extension h n).addr = h.sHeapEnd := rfl
  have hgrown : h.sHeapEnd ≤ expandedEnd h n := Nat.le_add_right _ _
  rw [expandHeap_eq hfit, haddr]
  generalize h.extend n = g at hend hlast hext hextend ⊢
  have hprev : g.last h.sHeapEnd = h.sLastHeader := by rw [← header_last, hext]
  rw [combineBackward, hprev]
  split
  next => exact hextend
  next =>
    split
    next => exact hextend
    next hfree =>
      have htail : g.next (g.next h.sLastHeader) = 0 := by
        rw [← header_next _ h.sLastHeader, hlast, ← header_next, hext]
      -- the last segment is free, so it is not the one at `a`
      have hne : h.sLastHeader ≠ a := by
        rintro rfl
        exact hfree hextend.used
      exact hextend.combineForward htail (hu.last.resolve_left hne) (by omega)

/-- **`malloc` does not hand out the block behind the header at `a` again**: by induction on the
depth of its calls. -/
theorem malloc_ne {p : ℕ} (hu : Unscathed h a) (hfit : a + headerSize < 2 ^ 64)
    (hbelow : StaysBelow fuel h n) (hm : h.malloc false fuel n = some (g, p)) :
    p ≠ a + headerSize := by
  induction fuel generalizing h n with
  | zero => cases hm
  | succ fuel ih =>
    by_cases hzero : n = 0
    · subst hzero
      rw [(malloc_zero hm).2]
      exact (Nat.add_pos_right a (by decide)).ne
    · rw [Heap.malloc, if_neg hzero] at hm
      obtain ⟨r, hsearch, hm⟩ := Option.bind_eq_some_iff.mp hm
      dsimp only at hm
      obtain rfl | ⟨hne, hlt, hfree⟩ := search_free hu.start_pos hu.start_lt hsearch
      · obtain ⟨hfit', hbelow⟩ := hbelow hzero _ hsearch rfl
        exact ih (hu.expandHeap hfit') hbelow hm
      · rw [if_neg hne] at hm
        obtain ⟨-, rfl⟩ := Prod.mk.inj (Option.some.inj hm)
        -- a free header is not the one at `a`
        intro heq
        have hsame : r.2 = a := by
          unfold add64 at heq
          omega
        rw [hsame, hu.used] at hfree
        cases hfree

end Unscathed

theorem Drawn.unscathed {T k : ℕ} (hg : g.Chain (pre ++ s :: post)) (hused : s.free = false)
    (hd : Drawn g (s.addr + headerSize) T h k) : Unscathed h s.addr := by
  have hstart := hg.start_lt.trans hg.end_lt
  obtain ⟨hmachine, hsame, hstop⟩ := hd.arena
  refine ⟨?_, ?_, ?_, hsame ▸ hg.start_pos.ne', hsame ▸ hstart⟩
  · have hfield : h.field .free s.addr = g.field .free s.addr :=
      load_congr fun i hi => hd.outside _ (.inl (by
        simp only [HeaderField.offset, HeaderField.bytes, headerSize] at hi ⊢
        omega))
    rw [isFree, hfield, ← isFree, hg.isFree_eq, hused]
  · rw [hd.lastHeader, hg.lastHeader_eq]
    obtain rfl | hpost := eq_or_ne post []
    · exact .inl rfl
    · obtain ⟨t, ht, heq⟩ := exists_mem_lastAddr hpost s.addr
      have hafter := hg.stop_le ht
      exact .inr (by omega)
  · obtain ⟨t, ht, heq⟩ := exists_mem_lastAddr hg.ne_nil 0
    have hle := (hg.tiles.mem_le ht).2
    rw [hd.lastHeader, hg.last_eq, heq, hstop]
    omega

/-- `length + 1`, the size of the buffer of a `String` that is made of `numBytes` bytes with their
terminator. -/
def stringSize (numBytes : ℕ) : ℕ := add64 (sub64 numBytes 1) 1

theorem stringSize_lt (k : ℕ) : stringSize k < 2 ^ 64 := add64_lt _ _

theorem stringSize_eq {k : ℕ} (hpos : 0 < k) (hlt : k < 2 ^ 64) : stringSize k = k := by
  rw [stringSize, sub64_of_le hpos hlt, add64_of_lt (by omega)]
  omega

/-- `memcpy` writes its destination. -/
theorem copyBytes_spec (src dest n : ℕ) (h : Heap) :
    SameArena h (copyBytes src dest n h) ∧ (copyBytes src dest n h).sLastHeader = h.sLastHeader ∧
      ∀ x, x < dest ∨ dest + n ≤ x → (copyBytes src dest n h).mem x = h.mem x := by
  induction n generalizing src dest h with
  | zero => exact ⟨.refl h, rfl, fun _ _ => rfl⟩
  | succ n ih =>
    obtain ⟨hsame, hlast, hmem⟩ := ih (src + 1) (dest + 1)
      { h with mem := store h.mem dest 1 (h.mem src).toNat }
    rw [copyBytes]
    refine ⟨⟨hsame.machine, hsame.start, hsame.stop⟩, hlast, fun x hx => ?_⟩
    exact (hmem x (by omega)).trans (store_of_notMem (by omega))

theorem memcpy_spec (h : Heap) (src dest n : ℕ) :
    SameArena h (h.memcpy src dest n) ∧ (h.memcpy src dest n).sLastHeader = h.sLastHeader ∧
      ∀ x, x < dest ∨ dest + n ≤ x → (h.memcpy src dest n).mem x = h.mem x := by
  rw [memcpy]
  split
  next => exact copyBytes_spec src dest n h
  next => exact ⟨.refl h, rfl, fun _ _ => rfl⟩

/-- The allocations of the star chart leave the heap below the top of the address space. -/
structure ChartStaysBelow (h : Heap) (fuel : ℕ) : Prop where
  buffer : StaysBelow fuel h h.totalChars
  string : ∀ g out h' k, h.malloc false fuel h.totalChars = some (g, out) →
    g.drawChart out h.totalChars fuel = some h' → h'.strlen fuel out = some k →
    StaysBelow fuel h' (stringSize k)

/-- If something fits the buffer, it is drawn on, and holds a string afterwards. -/
theorem Chain.exists_drawn (hc : h.Chain segs)
    (hfits : ∃ s ∈ segs, Fits (roundRequest h.totalChars) s) :
    ∃ N g out h' k j, 0 < k ∧ k ≤ h.totalChars ∧
      (∀ fuel, N ≤ fuel → h.malloc false fuel h.totalChars = some (g, out) ∧
        g.drawChart out h.totalChars fuel = some h' ∧ h'.strlen fuel out = some k) ∧
      (∃ gs, h'.Chain gs) ∧ Drawn g out h.totalChars h' j ∧ j ≤ h.totalChars := by
  obtain ⟨s, hmem, hsfits⟩ := hfits
  obtain ⟨t, hfind⟩ := exists_find hmem hsfits
  have hT : h.totalChars ≠ 0 := Nat.succ_ne_zero _
  have hle : h.totalChars ≤ 2 ^ 60 := totalChars_le h
  have hm := (hc.malloc_of_find hT le_rfl hfind).1
  obtain ⟨gs, h', j, hdraw, hd, hj, -, hchain⟩ := hc.chart_inside hfind hm
  have hzero := hd.rest (add64 t.addr headerSize + (h.totalChars - 1)) (by omega) (by omega)
  obtain ⟨N, k, hlength, hpos, hk⟩ := h'.strlen_le hzero (by omega)
  refine ⟨(segs.length + 1) + (gs.length + 1) + N, _, _, h', k, j, hpos, by omega,
    fun fuel hfuel => ⟨?_, ?_, ?_⟩, ⟨_, hchain⟩, hd, hj.le⟩
  · exact improves_of_le (fun fuel => malloc_improves false fuel h h.totalChars) (by omega) _ hm
  · exact improves_of_le (fun fuel => chartLoop_improves _ _ fuel _ _ _) (by omega) _ hdraw
  · exact improves_of_le (fun fuel => strlen_improves h' fuel _) (by omega) _ hlength

theorem totalChars_round (h : Heap) : h.totalChars < 2 ^ 64 ∧ roundRequest h.totalChars ≠ 0 := by
  have hle : h.totalChars ≤ 2 ^ 60 := totalChars_le h
  exact ⟨by omega, (roundRequest_pos (Nat.succ_pos _) hle).1.ne'⟩

/-- If something fits the buffer, the allocations stay below the top as soon as the heap does by
some pages. -/
theorem Chain.chartStaysBelow (hc : h.Chain segs) (hbase : heapVirtualBase ≤ h.sHeapStart)
    (hfits : ∃ s ∈ segs, Fits (roundRequest h.totalChars) s)
    (hroom : h.sHeapEnd + 2 * (h.totalChars + pageSize + 8) < 2 ^ 64) (fuel : ℕ) :
    h.ChartStaysBelow fuel := by
  obtain ⟨s, hmem, hsfits⟩ := hfits
  obtain ⟨t, hfind⟩ := exists_find hmem hsfits
  have hT : h.totalChars ≠ 0 := Nat.succ_ne_zero _
  have hle : h.totalChars ≤ 2 ^ 60 := totalChars_le h
  have hbelow := hc.staysBelow_of_find hT hfind
  refine ⟨hbelow fuel, fun g out h' k hm hdraw hlength => ?_⟩
  obtain ⟨gs, h'', j, hdraw', hd, hj, -, hchain⟩ := hc.chart_inside hfind hm
  obtain rfl := drawChart_eq hdraw' hdraw
  obtain ⟨-, -, -, hstart, hsame, -⟩ := hc.malloc_buffer hT (by omega) (hbelow fuel) hm
  have hstop := hd.arena.stop.trans (hsame (expansions_of_find hc rfl hfind))
  -- the string is no longer than the buffer
  obtain ⟨N, l, hl, hpos, hk⟩ := h''.strlen_le
    (hd.rest (out + (h.totalChars - 1)) (by omega) (by omega)) (by omega)
  obtain rfl : k = l := eq_of_improves (f := fun fuel => h''.strlen fuel out)
    (fun fuel => strlen_improves h'' fuel out) hlength hl
  have hsize : stringSize k = k := stringSize_eq hpos (by omega)
  have hround : roundRequest k ≤ k + 7 := by
    unfold roundRequest add64
    split <;> omega
  have hroom' : h''.Room k := by
    refine .inr ⟨by omega, gs, hchain, ?_⟩
    have hneeded := Nat.mul_le_mul_right ((roundRequest k / pageSize + 1) * pageSize)
      (expansionsNeeded_le gs (roundRequest k))
    unfold pageSize at hneeded hroom ⊢
    omega
  rw [hsize]
  exact ((hchain.neverWraps_iff (by rw [hd.arena.start, hstart]; exact hbase) (by omega)).mpr
    hroom').staysBelow fuel

end Heap

open Heap

/-! ### The reports of a client -/

/-- `heap_print_debug` and `heap_print_debug_summed`. -/
inductive HeapReport where
  | debug
  | summed

/-- What a report walks over before it draws the star chart. -/
def HeapReport.regions (f : HeapReport) (fuel : ℕ) (h : Heap) : Option ℕ :=
  match f with
  | .debug => h.countRegions fuel 0 h.sHeapStart
  | .summed => h.countRuns fuel 0 h.sHeapStart

/-- The report itself. -/
def HeapReport.print (f : HeapReport) (new : Heap → ℕ → Option (Heap × ℕ)) (fuel : ℕ) (h : Heap) :
    Option Heap :=
  match f with
  | .debug => h.printDebug new fuel
  | .summed => h.printDebugSummed new fuel

namespace HeapClient

/-- `operator new[]`. -/
def new (fuel : ℕ) (c : HeapClient) (n : ℕ) : Option (HeapClient × ℕ) :=
  (c.heap.malloc false fuel n).map fun r =>
    (⟨r.1, if r.2 = 0 then c.live else (r.2, n) :: c.live⟩, r.2)

/-- `operator delete[]`. -/
def delete (c : HeapClient) (p : ℕ) : HeapClient :=
  ⟨c.heap.free p, c.live.filter fun b => b.1 ≠ p⟩

/-- `heap_print_debug_starchart`, with the blocks that are allocated. -/
def starchart (fuel : ℕ) (c : HeapClient) : Option HeapClient := do
  let totalChars := c.heap.totalChars
  let (c, out) ← c.new fuel totalChars
  let h ← c.heap.drawChart out totalChars fuel
  let length := sub64 (← h.strlen fuel out) 1
  let (c, buffer) ← HeapClient.new fuel ⟨h, c.live⟩ (add64 length 1)
  return HeapClient.delete ⟨c.heap.memcpy out buffer (add64 length 1), c.live⟩ buffer

/-- A report, with the blocks that are allocated. -/
def report (f : HeapReport) (fuel : ℕ) (c : HeapClient) : Option HeapClient := do
  let _ ← f.regions fuel c.heap
  c.starchart fuel

variable {c c' : HeapClient} {segs : List Segment} {f : HeapReport} {fuel : ℕ}

/-- What is allocated after `new` has returned `p`. -/
def allocated (live : List (ℕ × ℕ)) (p n : ℕ) : List (ℕ × ℕ) :=
  if p = 0 then live else (p, n) :: live

theorem mem_allocated {live : List (ℕ × ℕ)} {d : ℕ × ℕ} (hd : d ∈ live) (p n : ℕ) :
    d ∈ allocated live p n := by
  rw [allocated]
  split
  next => exact hd
  next => exact .tail _ hd

theorem allocated_of_ne_zero {p : ℕ} (live : List (ℕ × ℕ)) (hp : p ≠ 0) (n : ℕ) :
    allocated live p n = (p, n) :: live := if_neg hp

theorem starchart_bind (fuel : ℕ) (c : HeapClient) : c.starchart fuel =
    (c.heap.malloc false fuel c.heap.totalChars).bind fun r =>
      (r.1.drawChart r.2 c.heap.totalChars fuel).bind fun h =>
        (h.strlen fuel r.2).bind fun length =>
          (h.malloc false fuel (stringSize length)).bind fun b =>
            some ⟨(b.1.memcpy r.2 b.2 (stringSize length)).free b.2,
              (allocated (allocated c.live r.2 c.heap.totalChars) b.2 (stringSize length)).filter
                fun d => d.1 ≠ b.2⟩ := by
  simp only [starchart, HeapClient.new, delete, allocated, stringSize, Option.bind_eq_bind,
    Option.bind_map, Function.comp_def, Option.pure_def]

theorem starchart_heap (fuel : ℕ) (c : HeapClient) :
    (c.starchart fuel).map HeapClient.heap = c.heap.starchart (malloc false fuel) fuel := by
  simp only [starchart_bind, starchart_eq, stringSize, Option.map_bind, Function.comp_def,
    Option.map_some]

theorem report_heap (f : HeapReport) (fuel : ℕ) (c : HeapClient) :
    (c.report f fuel).map HeapClient.heap = f.print (malloc false fuel) fuel c.heap := by
  rw [report, Option.bind_eq_bind, Option.map_bind, Function.comp_def]
  simp only [starchart_heap]
  cases f <;> rfl

/-- How a call of `heap_print_debug_starchart` comes to its end: `out` is drawn on, and the string
of `k` bytes that it then holds is copied to `p`. -/
structure Charts (fuel : ℕ) (c : HeapClient) (g : Heap) (out : ℕ) (h : Heap) (k : ℕ) (b : Heap)
    (p : ℕ) (c' : HeapClient) : Prop where
  buffer : c.heap.malloc false fuel c.heap.totalChars = some (g, out)
  drawn : g.drawChart out c.heap.totalChars fuel = some h
  length : h.strlen fuel out = some k
  string : h.malloc false fuel (stringSize k) = some (b, p)
  heap : c'.heap = (b.memcpy out p (stringSize k)).free p
  live : c'.live = (allocated (allocated c.live out c.heap.totalChars) p (stringSize k)).filter
    fun d => d.1 ≠ p

theorem starchart_eq_some : c.starchart fuel = some c' ↔
    ∃ g out h k b p, Charts fuel c g out h k b p c' := by
  rw [starchart_bind]
  constructor
  · intro hr
    obtain ⟨⟨g, out⟩, hbuffer, hr⟩ := Option.bind_eq_some_iff.mp hr
    obtain ⟨h, hdrawn, hr⟩ := Option.bind_eq_some_iff.mp hr
    obtain ⟨k, hlength, hr⟩ := Option.bind_eq_some_iff.mp hr
    obtain ⟨⟨b, p⟩, hstring, hr⟩ := Option.bind_eq_some_iff.mp hr
    dsimp only at hdrawn hlength hstring hr
    have hc := Option.some.inj hr
    refine ⟨g, out, h, k, b, p, hbuffer, hdrawn, hlength, hstring, ?_, ?_⟩
    · rw [← hc]
    · rw [← hc]
  · rintro ⟨g, out, h, k, b, p, hbuffer, hdrawn, hlength, hstring, hheap, hlive⟩
    simp only [hbuffer, hdrawn, hlength, hstring, Option.bind_some]
    rw [← hheap, ← hlive]

/-- **The buffer is still in use** when the star chart has been printed, and was not before. -/
theorem Charts.leaks {g h b : Heap} {out k p : ℕ} (hs : c.Sound segs)
    (hbelow : c.heap.ChartStaysBelow fuel) (hc : Charts fuel c g out h k b p c') :
    (out, c.heap.totalChars) ∈ c'.live ∧
      ∀ t ∈ segs, t.free = false → out ≠ t.addr + headerSize := by
  obtain ⟨hT, hround⟩ := totalChars_round c.heap
  obtain ⟨gs, halloc⟩ := hs.chain.malloc hT hbelow.buffer hc.buffer
  have hstep := HeapStep.malloc hT hbelow.buffer hc.buffer
  have hout : out ≠ 0 := mt (hstep.pointer_eq_zero_iff hs.chain).mp hround
  obtain ⟨s, hmem, hused, rfl, hlen, hfresh⟩ := halloc.block hout
  have hstop := halloc.chain.stop_lt hmem
  have hapart : ∀ u ∈ gs, u.addr + headerSize ≤ s.addr + headerSize ∨
      s.addr + headerSize + c.heap.totalChars ≤ u.addr := fun u hu => by
    obtain rfl | hsu := halloc.chain.tiles.eq_or_apart hmem hu
    · exact .inl le_rfl
    · omega
  obtain ⟨h', j, hdraw, hd, -⟩ := drawChart_spec halloc.chain hapart
  obtain rfl := drawChart_eq hdraw hc.drawn
  obtain ⟨pre, post, rfl⟩ := List.append_of_mem hmem
  have hne := (hd.unscathed halloc.chain hused).malloc_ne (by omega)
    (hbelow.string _ _ _ _ hc.buffer hc.drawn hc.length) hc.string
  refine ⟨?_, fun t ht htused heq => hfresh t ht htused (by omega)⟩
  rw [hc.live, List.mem_filter]
  refine ⟨mem_allocated ?_ _ _, decide_eq_true hne.symm⟩
  rw [allocated_of_ne_zero _ hout]
  exact .head _

theorem Charts.run {g h b : Heap} {out k p j : ℕ} (hs : c.Sound segs)
    (hbelow : c.heap.ChartStaysBelow fuel) (hc : Charts fuel c g out h k b p c')
    (hd : Drawn g out c.heap.totalChars h j) (hj : j ≤ c.heap.totalChars) (hp : p ≠ 0) :
    ∃ calls, Run HeapStep c calls c' ∧ c'.live = (out, c.heap.totalChars) :: c.live := by
  obtain ⟨hT, hround⟩ := totalChars_round c.heap
  have hfirst := HeapStep.malloc hT hbelow.buffer hc.buffer
  have hout : out ≠ 0 := mt (hfirst.pointer_eq_zero_iff hs.chain).mp hround
  rw [if_neg hout] at hfirst
  -- the buffer is drawn on
  obtain ⟨draw, hdraw⟩ := write_into (c := ⟨g, (out, c.heap.totalChars) :: c.live⟩) (.head _)
    hd.arena hd.lastHeader fun x hx => hd.outside x (by dsimp only at hx; omega)
  have hsecond := HeapStep.malloc (c := ⟨h, (out, c.heap.totalChars) :: c.live⟩)
    (stringSize_lt k) (hbelow.string _ _ _ _ hc.buffer hc.drawn hc.length) hc.string
  rw [if_neg hp] at hsecond
  -- the string is copied
  obtain ⟨hsame, hlast, hmem⟩ := memcpy_spec b out p (stringSize k)
  obtain ⟨copy, hcopy⟩ := write_into
    (c := ⟨b, (p, stringSize k) :: (out, c.heap.totalChars) :: c.live⟩) (.head _) hsame hlast hmem
  have hrun := (((Run.single hfirst).append hdraw).snoc hsecond).append hcopy
  obtain ⟨_, hs'⟩ := hs.run hrun
  have hthird := HeapStep.free (p := p) (c := ⟨b.memcpy out p (stringSize k),
    (p, stringSize k) :: (out, c.heap.totalChars) :: c.live⟩) (by simp)
  have hnodup := hs'.nodup
  rw [List.map_cons, List.nodup_cons] at hnodup
  have hlive : ((p, stringSize k) :: (out, c.heap.totalChars) :: c.live).filter
      (fun d => d.1 ≠ p) = (out, c.heap.totalChars) :: c.live := by
    rw [List.filter_cons_of_neg (by simp), List.filter_eq_self]
    refine fun d hd => decide_eq_true fun heq => hnodup.1 ?_
    exact List.mem_map.mpr ⟨d, hd, heq⟩
  have hc' : c' = ⟨(b.memcpy out p (stringSize k)).free p, (out, c.heap.totalChars) :: c.live⟩ := by
    obtain ⟨heap, live⟩ := c'
    have hheap : heap = _ := hc.heap
    have hlive' : live = _ := hc.live
    rw [allocated_of_ne_zero _ hout, allocated_of_ne_zero _ hp, hlive] at hlive'
    rw [hheap, hlive']
  dsimp only at hthird
  rw [hlive, ← hc'] at hthird
  exact ⟨_, hrun.snoc hthird, by rw [hc']⟩

/-- If something fits the buffer, the call comes to its end, and stays inside. -/
theorem exists_charts (hs : c.Sound segs) (hbelow : ∀ fuel, c.heap.ChartStaysBelow fuel)
    (hfits : ∃ s ∈ segs, Fits (roundRequest c.heap.totalChars) s) : ∃ N, ∀ fuel, N ≤ fuel →
      ∃ g out h k b p c', Charts fuel c g out h k b p c' ∧ p ≠ 0 ∧
        ∃ j ≤ c.heap.totalChars, Drawn g out c.heap.totalChars h j := by
  obtain ⟨N, g, out, h, k, j, hpos, hk, hdrawn, ⟨gs, hchain⟩, hd, hj⟩ :=
    hs.chain.exists_drawn hfits
  have hle : c.heap.totalChars ≤ 2 ^ 60 := totalChars_le c.heap
  have hsize : stringSize k = k := stringSize_eq hpos (by omega)
  have hstring : ∀ fuel, StaysBelow fuel h (stringSize k) := fun fuel => by
    obtain ⟨hbuffer, hdraw, hlength⟩ := hdrawn (max N fuel) (le_max_left _ _)
    have hstays := (hbelow (max N fuel)).string g out h k hbuffer hdraw hlength
    exact hstays.mono (le_max_right _ _)
  obtain ⟨M, b, p, hm, hp⟩ := hchain.malloc_returns (by omega) (by omega) hstring
  refine ⟨max N M, fun fuel hfuel => ?_⟩
  obtain ⟨hbuffer, hdraw, hlength⟩ := hdrawn fuel ((le_max_left _ _).trans hfuel)
  have hm' := improves_of_le (fun fuel => malloc_improves false fuel h (stringSize k))
    ((le_max_right _ _).trans hfuel) _ hm
  exact ⟨g, out, h, k, b, p, ⟨(b.memcpy out p (stringSize k)).free p,
    (allocated (allocated c.live out c.heap.totalChars) p (stringSize k)).filter fun d => d.1 ≠ p⟩,
    ⟨hbuffer, hdraw, hlength, hm', by dsimp only, by dsimp only⟩, hp, j, hj, hd⟩

theorem regions_isSome (hc : c.heap.Chain segs) (f : HeapReport) (hfuel : segs.length < fuel) :
    (f.regions fuel c.heap).isSome := by
  obtain ⟨s, post, rfl⟩ := List.exists_cons_of_ne_nil hc.ne_nil
  have hstart : c.heap.sHeapStart = s.addr := hc.tiles.1.symm
  have hc' : c.heap.Chain ([] ++ s :: post) := hc
  cases f with
  | debug =>
    rw [HeapReport.regions, hstart]
    exact countRegions_isSome hc' 0 hfuel
  | summed =>
    rw [HeapReport.regions, hstart]
    exact countRuns_isSome hc' 0 hfuel

theorem report_starchart (hr : c.report f fuel = some c') : c.starchart fuel = some c' := by
  obtain ⟨_, -, hr⟩ := Option.bind_eq_some_iff.mp hr
  exact hr

theorem Sound.report_keeps_buffer (hs : c.Sound segs) (hbelow : c.heap.ChartStaysBelow fuel)
    (hr : c.report f fuel = some c') : ∃ out, (out, c.heap.totalChars) ∈ c'.live ∧
      ∀ t ∈ segs, t.free = false → out ≠ t.addr + headerSize := by
  obtain ⟨g, out, h, k, b, p, hc⟩ := starchart_eq_some.mp (report_starchart hr)
  exact ⟨out, hc.leaks hs hbelow⟩

/-- If something fits the buffer, a report is a run of a client of the heap, and the buffer is all
that it leaves behind. -/
theorem Sound.report_run (hs : c.Sound segs) (hbelow : ∀ fuel, c.heap.ChartStaysBelow fuel)
    (hfits : ∃ s ∈ segs, Fits (roundRequest c.heap.totalChars) s) (f : HeapReport) :
    ∃ fuel c' out calls, c.report f fuel = some c' ∧ Run HeapStep c calls c' ∧
      c'.live = (out, c.heap.totalChars) :: c.live := by
  obtain ⟨N, hcharts⟩ := exists_charts hs hbelow hfits
  obtain ⟨g, out, h, k, b, p, c', hc, hp, j, hj, hd⟩ := hcharts (max N (segs.length + 1))
    (le_max_left _ _)
  obtain ⟨calls, hrun, hlive⟩ := hc.run hs (hbelow _) hd hj hp
  obtain ⟨_, hregions⟩ := Option.isSome_iff_exists.mp
    (regions_isSome hs.chain f (le_max_right N (segs.length + 1)))
  have hr : c.report f (max N (segs.length + 1)) = some c' := by
    rw [report, hregions]
    exact starchart_eq_some.mpr ⟨g, out, h, k, b, p, hc⟩
  exact ⟨_, c', out, calls, hr, hrun, hlive⟩

end HeapClient

open HeapClient

/-- **Every report leaves one block more.**  Whichever report returns, the buffer of the star chart
is in use afterwards and was not before.  If some segment fits the buffer, so that the drawing stays
inside it, the report does return, it is a run of a client of the heap, and the buffer is all that
it leaves behind. -/
theorem report_leaks {c : HeapClient} {segs : List Segment} (hs : c.Sound segs)
    (hbelow : ∀ fuel, c.heap.ChartStaysBelow fuel) (f : HeapReport) :
    (∀ fuel c', c.report f fuel = some c' → ¬ (∀ b, b ∈ c'.live ↔ b ∈ c.live) ∧
      ∃ out, (out, c.heap.totalChars) ∈ c'.live ∧
        ∀ t ∈ segs, t.free = false → out ≠ t.addr + headerSize) ∧
    ((∃ s ∈ segs, Fits (roundRequest c.heap.totalChars) s) → ∃ fuel c' out calls,
      c.report f fuel = some c' ∧ Run HeapStep c calls c' ∧
        c'.live = (out, c.heap.totalChars) :: c.live) := by
  refine ⟨fun fuel c' hr => ?_, fun hfits => hs.report_run hbelow hfits f⟩
  obtain ⟨out, hlive, hfresh⟩ := hs.report_keeps_buffer (hbelow fuel) hr
  refine ⟨fun hsame => ?_, out, hlive, hfresh⟩
  obtain ⟨t, ht, hused, hptr, -⟩ := hs.live _ ((hsame _).mp hlive)
  exact hfresh t ht hused hptr

theorem Heap.chartStaysBelow_first : ∀ fuel, HeapClient.first.heap.ChartStaysBelow fuel := by
  refine Heap.unset.initHeap_chain.chartStaysBelow (Nat.le_refl _) ⟨firstSegment, by simp, ?_⟩ ?_
  · rw [totalChars_first]
    decide
  · rw [totalChars_first, initHeap_sHeapEnd]
    decide

theorem report_leaks_first : ∃ fuel c' out calls, HeapClient.first.report .debug fuel = some c' ∧
    Run HeapStep .first calls c' ∧ c'.live = [(out, HeapClient.first.heap.totalChars)] := by
  refine (report_leaks (sound_init Heap.unset) Heap.chartStaysBelow_first .debug).2
    ⟨firstSegment, by simp, ?_⟩
  rw [totalChars_first]
  decide

/-- The first report on the heap that `init_heap` has set up allocates 65 bytes for good. -/
theorem report_consumes : ¬ ∀ (c : HeapClient) (segs : List Segment) (f : HeapReport),
    c.Sound segs → (∀ fuel, c.heap.ChartStaysBelow fuel) →
    ∀ fuel c', c.report f fuel = some c' → ∀ b, b ∈ c'.live ↔ b ∈ c.live := by
  intro hclaim
  have hs : HeapClient.first.Sound [firstSegment] := sound_init Heap.unset
  obtain ⟨fuel, c', out, -, hr, -, hlive⟩ := hs.report_run Heap.chartStaysBelow_first
    ⟨firstSegment, by simp, by rw [HeapClient.first, totalChars_first]; decide⟩ .summed
  have hsame := hclaim _ _ _ hs Heap.chartStaysBelow_first _ _ hr (out, 65)
  rw [hlive, HeapClient.first, totalChars_first] at hsame
  simp at hsame

end Eterna
