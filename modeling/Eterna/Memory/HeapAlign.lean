import Eterna.Memory.HeapCoalesce

/-!
# The alignment of blocks

`malloc` rounds requests up to a multiple of 8, but the packed header of a segment takes 25 bytes.
So where a block begins modulo 8 depends on how many segments there are in front of it, and how long
the free ones among them are.

* `Chain.malloc_pointer` : the block begins behind the segments in front of the first one that fits,
  or of the free one at the end that the heap is expanded by;
* `HeapStep.used_cases` : the segments in use were in use before, or are as long as the rounded
  request;
* `malloc_aligned_iff` : when a block is aligned, and that the first block of a run never is.
-/

namespace Eterna

open SegmentChain Runs

namespace Heap

variable {h h' g : Heap} {segs gs pre post : List Segment} {s t : Segment} {m n j p : ℕ}

/-! ### Where a block begins -/

/-- The segments in front of the free one at the end, which is the last one or an extension. -/
def ahead (segs : List Segment) : List Segment :=
  if segs.getLast?.any Segment.free then segs.dropLast else segs

/-- The segments in front of the one that `malloc` takes for a request that is rounded to `m`. -/
def front (m : ℕ) (segs : List Segment) : List Segment :=
  if (segs.find? (Fits m ·)).isSome then segs.takeWhile (¬ Fits m ·) else ahead segs

/-- The number of bytes that segments take, with their headers. -/
def extent (segs : List Segment) : ℕ := (segs.map fun s => headerSize + s.length).sum

/-- The number of bytes in the free ones. -/
def freeBytes (segs : List Segment) : ℕ := ((segs.filter Segment.free).map Segment.length).sum

theorem front_of_find (hfind : segs.find? (Fits m ·) = some t) :
    ∃ post, segs = front m segs ++ t :: post := by
  obtain ⟨ht, pre, post, rfl, hpre⟩ := List.find?_eq_some_iff_append.mp hfind
  refine ⟨post, ?_⟩
  rw [front, hfind, if_pos (by rfl),
    List.takeWhile_append_of_pos (fun s hs => by simpa using hpre s hs),
    List.takeWhile_cons_of_neg (by simpa using ht), List.append_nil]

theorem find_of_search_zero {fuel : ℕ} (hc : h.Chain segs)
    (hsearch : search m fuel h h.sHeapStart = some (h, 0)) : segs.find? (Fits m ·) = none := by
  have heq := hc.search_start_eq hsearch
  cases hfind : segs.find? (Fits m ·) with
  | none => rfl
  | some t =>
    rw [hfind] at heq
    have hpos := hc.addr_pos (List.mem_of_find?_eq_some hfind)
    exact absurd (congrArg Prod.snd heq) (Nat.ne_of_lt hpos)

theorem ahead_subset (segs : List Segment) : ahead segs ⊆ segs := by
  rw [ahead]
  split
  · exact List.dropLast_subset segs
  · exact List.Subset.refl segs

theorem absorbBack_extension (segs : List Segment) (m : ℕ) :
    ∃ l, absorbBack segs [h.extension m] = ahead segs ++ [l] ∧ l.free = true := by
  obtain rfl | ⟨pre, s, rfl⟩ := List.eq_nil_or_concat segs
  · exact ⟨h.extension m, rfl, rfl⟩
  · rw [List.concat_eq_append, absorbBack_concat, ahead, List.getLast?_concat, List.dropLast_concat]
    cases hs : s.free with
    | true =>
      rw [if_pos rfl, Option.any_some, if_pos hs, absorb, if_pos (by rfl)]
      exact ⟨_, rfl, hs⟩
    | false =>
      rw [if_neg (by decide), Option.any_some, if_neg (by rw [hs]; decide)]
      exact ⟨_, List.append_cons .., rfl⟩

theorem ahead_concat (hs : s.free = true) : ahead (pre ++ [s]) = pre := by
  rw [ahead, List.getLast?_concat, Option.any_some, if_pos hs, List.dropLast_concat]

theorem Chain.addr_eq (hc : h.Chain (pre ++ s :: post)) : s.addr = h.sHeapStart + extent pre :=
  hc.tiles.around.1.hi_eq

theorem Grows.ahead (hg : Grows m h (pre ++ [s]) j g gs) (hs : s.free = true) :
    ∃ l, gs = pre ++ [l] ∧ l.free = true := by
  refine hg.invariant (I := fun _ gs => ∃ l, gs = pre ++ [l] ∧ l.free = true) ⟨s, rfl, hs⟩ ?_
  rintro g gs ⟨l, rfl, hl⟩ -
  obtain ⟨l', heq, hl'⟩ := absorbBack_extension (h := g) (pre ++ [l]) m
  rw [ahead_concat hl] at heq
  exact ⟨l', heq, hl'⟩

theorem Grows.start (hg : Grows m h segs j g gs) (hc : h.Chain segs) :
    g.sHeapStart = h.sHeapStart := by
  have hinv : g.Chain gs ∧ g.sHeapStart = h.sHeapStart :=
    hg.invariant (I := fun g gs => g.Chain gs ∧ g.sHeapStart = h.sHeapStart) ⟨hc, rfl⟩
      fun _ _ ⟨hg, hstart⟩ hfit =>
        ⟨hg.expandHeap hfit, (expandHeap_bounds hg hfit).1.trans hstart⟩
  exact hinv.2

/-- **Where a block begins.** -/
theorem Chain.malloc_pointer {fuel : ℕ} (hc : h.Chain segs) (hbelow : StaysBelow fuel h n)
    (hm : h.malloc false fuel n = some (h', p)) :
    p = if roundRequest n = 0 then 0
      else h.sHeapStart + extent (front (roundRequest n) segs) + headerSize := by
  obtain ⟨m, hround⟩ : ∃ m, roundRequest n = m := ⟨_, rfl⟩
  have hidem := roundRequest_idem n
  rw [hround] at hidem ⊢
  by_cases hn : n = 0
  · subst hn
    obtain rfl : 0 = m := hround
    exact (malloc_zero hm).2
  have hpointer : ∀ {g : Heap} {pre post : List Segment} {t : Segment}, g.Chain (pre ++ t :: post) →
      add64 t.addr headerSize = g.sHeapStart + extent pre + headerSize := by
    intro g pre post t hg
    have hstop := hg.stop_lt (s := t) (by simp)
    rw [← hg.addr_eq]
    exact add64_of_lt (by omega)
  cases fuel with
  | zero => cases hm
  | succ fuel =>
    obtain ⟨t, hfind, -, rfl⟩ | ⟨hsearch, hm⟩ := hc.malloc_cases hn hm
    · -- a segment fits, and it is not of length zero
      rw [hround] at hfind
      rw [if_neg]
      · obtain ⟨post, hsegs⟩ := front_of_find hfind
        exact hpointer (hsegs ▸ hc)
      · rintro rfl
        exact hc.not_fits_zero (List.mem_of_find?_eq_some hfind) (fits_of_find hfind).1
    · obtain ⟨hfit, hbelow⟩ := hbelow hn _ hsearch rfl
      have hfind : segs.find? (Fits m ·) = none := by
        rw [← hround]
        exact find_of_search_zero hc hsearch
      dsimp only at hfit hbelow
      rw [hround] at hm hfit hbelow
      split
      next hzero =>
        rw [hzero] at hm
        exact (malloc_zero hm).2
      next hpos =>
        obtain ⟨l, heq, hl⟩ := absorbBack_extension (h := h) segs m
        have hc' := heq ▸ hc.expandHeap hfit
        obtain ⟨j, g, gs, hgrows, htakes⟩ := hc'.malloc_grows hpos hbelow hm
        rw [hidem] at hgrows htakes
        obtain ⟨t, ht, -, rfl⟩ := htakes.resolve_left fun h => hpos h.1
        obtain ⟨l', rfl, -⟩ := hgrows.ahead hl
        -- what did not fit before does not fit now
        obtain rfl : t = l' := by
          have hmem := List.mem_of_find?_eq_some ht
          refine List.mem_singleton.mp ((List.mem_append.mp hmem).resolve_left fun hmem => ?_)
          have hno := List.find?_eq_none.mp hfind t (ahead_subset segs hmem)
          exact hno (decide_eq_true (fits_of_find ht).1)
        rw [hpointer (hgrows.chain hc'), hgrows.start hc', (expandHeap_bounds hc hfit).1, front,
          hfind]
        rfl

theorem front_singleton (hs : s.free = true) (m : ℕ) : front m [s] = [] := by
  rw [front, List.find?_singleton]
  by_cases hfits : Fits m s
  · simp [hfits]
  · simp [hfits, ahead, hs]

theorem roundRequest_mod (n : ℕ) : roundRequest n % 8 = 0 := by
  unfold roundRequest add64
  split <;> omega

/-- Modulo 8, a header counts as one byte and a payload in use as none. -/
theorem extent_mod (hsegs : ∀ s ∈ segs, s.free = false → s.length % 8 = 0) :
    extent segs % 8 = (segs.length + freeBytes segs) % 8 := by
  induction segs with
  | nil => rfl
  | cons s segs ih =>
    have hrest := ih fun t ht => hsegs t (.tail _ ht)
    have hextent : extent (s :: segs) = headerSize + s.length + extent segs := List.sum_cons
    rw [hextent, List.length_cons]
    cases hs : s.free with
    | true =>
      have hbytes : freeBytes (s :: segs) = s.length + freeBytes segs := by
        rw [freeBytes, List.filter_cons_of_pos hs]
        exact List.sum_cons
      rw [hbytes]
      unfold headerSize
      omega
    | false =>
      have hbytes : freeBytes (s :: segs) = freeBytes segs := by
        rw [freeBytes, List.filter_cons_of_neg (by rw [hs]; decide)]
        rfl
      have hlen := hsegs s (.head _) hs
      rw [hbytes]
      unfold headerSize
      omega

theorem front_subset (m : ℕ) (segs : List Segment) : front m segs ⊆ segs := by
  rw [front]
  split
  · exact List.takeWhile_subset _
  · exact ahead_subset segs

end Heap

/-! ### The runs -/

open Heap

/-- **One step**: a segment in use was in use before, or has been taken by `malloc`. -/
theorem HeapStep.used_cases {c c' : HeapClient} {l : HeapCall} {segs segs' : List Segment}
    {s : Segment} (hsound : c.Sound segs) (hstep : HeapStep c l c') (hc' : c'.heap.Chain segs')
    (hs : s ∈ segs') (hused : s.free = false) : s ∈ segs ∨ s.length % 8 = 0 := by
  have hc := hsound.chain
  cases hstep with
  | @malloc n p fuel h hn hbelow hm =>
    dsimp only at hc'
    by_cases hzero : n = 0
    · subst hzero
      obtain ⟨rfl, -⟩ := malloc_zero hm
      exact .inl (hc'.unique hc ▸ hs)
    -- the expansions add free segments only, then one of the free ones is taken
    obtain ⟨j, g, gs, hgrows, htakes⟩ := hc.malloc_grows hzero hbelow hm
    have hgc := hgrows.chain hc
    have hold := hgrows.used hused
    obtain ⟨-, rfl, -⟩ | ⟨t, hfind, rfl, -⟩ := htakes
    · exact .inl (hold (hc'.unique hgc ▸ hs))
    · obtain ⟨hfits, pre, post, rfl⟩ := fits_of_find hfind
      have htake := (hgc.take hfits).1
      rw [hc'.unique htake] at hs
      obtain hs | ⟨-, hlen⟩ := used_of_mem_taken hfits.1 hs hused
      · exact .inl (hold hs)
      · exact .inr (hlen ▸ roundRequest_mod n)
  | @free p hp =>
    dsimp only at hc'
    obtain ⟨b, hb, rfl⟩ := List.mem_map.mp hp
    obtain ⟨t, hmem, -, hptr, -⟩ := hsound.live b hb
    obtain ⟨pre, post, rfl⟩ := List.append_of_mem hmem
    have hfree := hc.free
    rw [← hptr] at hfree
    rw [hc'.unique hfree] at hs
    have hold := used_of_mem_released hs hused
    simp only [List.mem_append, List.mem_cons] at hold ⊢
    tauto
  | @expandHeap n hfit =>
    dsimp only at hc'
    have hgrows : Grows n c.heap segs 1 _ _ := .expand .refl hfit
    exact .inl (hgrows.used hused (hc'.unique (hgrows.chain hc) ▸ hs))
  | @write b i v hb hi =>
    dsimp only at hc'
    obtain ⟨t, hmem, -, hptr, hlen⟩ := hsound.live b hb
    have hwrite := hc.write_payload hmem v (x := b.1 + i) (by omega) (by omega)
    exact .inl (hc'.unique hwrite ▸ hs)

/-- Segments in use are as long as requests, after rounding. -/
def RoundedSegments (segs : List Segment) : Prop := ∀ s ∈ segs, s.free = false → s.length % 8 = 0

theorem heapRun_rounded {h : Heap} {calls : List HeapCall} {c : HeapClient}
    (hrun : Run HeapStep ⟨h.initHeap, []⟩ calls c) :
    ∃ segs, c.Packed segs ∧ RoundedSegments segs := by
  refine hrun.invariant (I := fun c => ∃ segs, c.Packed segs ∧ RoundedSegments segs)
    ⟨_, HeapClient.packed_init h, by simp [RoundedSegments, firstSegment]⟩ ?_
  rintro c l c' ⟨segs, hpacked, hrounded⟩ hstep
  obtain ⟨segs', hpacked'⟩ := hstep.packed hpacked
  refine ⟨segs', hpacked', fun s hs hused => ?_⟩
  obtain hold | hlen := hstep.used_cases hpacked.sound hpacked'.sound.chain hs hused
  · exact hrounded s hold hused
  · exact hlen

variable {h : Heap} {calls : List HeapCall} {c c' : HeapClient} {segs : List Segment} {n p : ℕ}

theorem HeapStep.pointer_eq (hc : c.heap.Chain segs) (hstep : HeapStep c (.malloc n p) c') :
    p = if roundRequest n = 0 then 0
      else c.heap.sHeapStart + extent (front (roundRequest n) segs) + headerSize := by
  cases hstep with
  | malloc hn hbelow hm => exact hc.malloc_pointer hbelow hm

theorem HeapStep.pointer_eq_zero_iff (hc : c.heap.Chain segs)
    (hstep : HeapStep c (.malloc n p) c') : p = 0 ↔ roundRequest n = 0 := by
  rw [hstep.pointer_eq hc]
  split
  next hzero => exact iff_of_true rfl hzero
  next hpos => exact iff_of_false (by unfold headerSize; omega) hpos

/-- **One call**: the block is aligned if the segments in front of it, each counted as one byte, and
the free bytes in front of it are seven, modulo 8. -/
theorem HeapStep.aligned_iff (hc : c.heap.Chain segs) (hrounded : RoundedSegments segs)
    (hstart : c.heap.sHeapStart = heapVirtualBase) (hstep : HeapStep c (.malloc n p) c')
    (hp : p ≠ 0) : 8 ∣ p ↔ ((front (roundRequest n) segs).length +
      freeBytes (front (roundRequest n) segs)) % 8 = 7 := by
  have hpos := hp ∘ (hstep.pointer_eq_zero_iff hc).mpr
  have heq := hstep.pointer_eq hc
  have hmod := extent_mod fun s hs => hrounded s (front_subset (roundRequest n) segs hs)
  rw [if_neg hpos, hstart] at heq
  rw [heq, ← hmod]
  unfold heapVirtualBase headerSize
  omega

theorem HeapStep.first_block (hpacked : c.Packed segs) (hlive : c.live = [])
    (hstart : c.heap.sHeapStart = heapVirtualBase) (hstep : HeapStep c (.malloc n p) c')
    (hpos : roundRequest n ≠ 0) : p = heapVirtualBase + headerSize := by
  have hc := hpacked.sound.chain
  have hfree := hpacked.forall_free hlive
  obtain ⟨s, rfl⟩ := hpacked.coalesced.eq_singleton hc.ne_nil hfree
  rw [hstep.pointer_eq hc, if_neg hpos, hstart, front_singleton (hfree s (.head _))]
  rfl

theorem heapRun_no_block (hrun : Run HeapStep ⟨h.initHeap, []⟩ calls c)
    (haligned : ∀ n p, .malloc n p ∈ calls → p ≠ 0 → 8 ∣ p) :
    (∀ n p, .malloc n p ∈ calls → roundRequest n = 0) ∧ c.live = [] := by
  induction hrun with
  | nil => exact ⟨nofun, rfl⟩
  | @snoc calls c c' l hrun hstep ih =>
    obtain ⟨hzero, hlive⟩ := ih fun n p hmem => haligned n p (List.mem_append_left _ hmem)
    obtain ⟨segs, hpacked⟩ := heapRun_packed hrun
    have hc := hpacked.sound.chain
    have hlast : ∀ n p, l = .malloc n p → roundRequest n = 0 := by
      rintro n p rfl
      by_contra hpos
      have hp := hstep.first_block hpacked hlive (heapRun_start hrun) hpos
      have h8 := haligned n p (by simp) (by rw [hp]; decide)
      rw [hp] at h8
      exact absurd h8 (by decide)
    refine ⟨fun n p hmem => ?_, ?_⟩
    · obtain hmem | hmem := List.mem_append.mp hmem
      · exact hzero n p hmem
      · exact hlast n p (List.mem_singleton.mp hmem).symm
    · cases hstep with
      | malloc hn hbelow hm =>
        have hp := ((HeapStep.malloc hn hbelow hm).pointer_eq_zero_iff hc).mpr (hlast _ _ rfl)
        exact (if_pos hp).trans hlive
      | free hp => simp [hlive] at hp
      | expandHeap hfit => exact hlive
      | write hb hi => simp [hlive] at hb

/-- In every call of a run, the pointer is null exactly if the request is rounded to zero. -/
theorem heapRun_null_iff (hrun : Run HeapStep ⟨h.initHeap, []⟩ calls c)
    (hmem : .malloc n p ∈ calls) : p = 0 ↔ roundRequest n = 0 := by
  induction hrun with
  | nil => cases hmem
  | snoc hrun hstep ih =>
    obtain hmem | hmem := List.mem_append.mp hmem
    · exact ih hmem
    · obtain rfl := List.mem_singleton.mp hmem
      obtain ⟨segs, hs⟩ := heapRun_sound hrun
      exact hstep.pointer_eq_zero_iff hs.chain

/-- **Blocks are not aligned.**  In every run, all blocks that `malloc` returns are aligned only if
it returns none.  One block is aligned if the number of segments in front of it and of the free
bytes in them is seven modulo 8. -/
theorem malloc_aligned_iff (h : Heap) :
    (∀ calls c, Run HeapStep ⟨h.initHeap, []⟩ calls c →
      ((∀ n p, .malloc n p ∈ calls → p ≠ 0 → 8 ∣ p) ↔
        ∀ n p, .malloc n p ∈ calls → roundRequest n = 0)) ∧
    ∀ calls c, Run HeapStep ⟨h.initHeap, []⟩ calls c → ∃ segs, c.heap.Chain segs ∧
      ∀ n p c', HeapStep c (.malloc n p) c' → p ≠ 0 →
        (8 ∣ p ↔ ((front (roundRequest n) segs).length +
          freeBytes (front (roundRequest n) segs)) % 8 = 7) := by
  refine ⟨fun calls c hrun => ⟨fun haligned => (heapRun_no_block hrun haligned).1,
    fun hzero n p hmem hp => ?_⟩, fun calls c hrun => ?_⟩
  · exact absurd ((heapRun_null_iff hrun hmem).mpr (hzero n p hmem)) hp
  · obtain ⟨segs, hpacked, hrounded⟩ := heapRun_rounded hrun
    have hc := hpacked.sound.chain
    exact ⟨segs, hc, fun n p c' hstep => hstep.aligned_iff hc hrounded (heapRun_start hrun)⟩

theorem malloc_aligned_iff_first :
    (¬ ∀ n p, .malloc n p ∈ [HeapCall.malloc 24 (heapVirtualBase + headerSize)] → p ≠ 0 → 8 ∣ p) ∧
    ∃ segs, HeapClient.first.heap.Chain segs ∧
      ((front 24 segs).length + freeBytes (front 24 segs)) % 8 ≠ 7 := by
  obtain ⟨hruns, hcalls⟩ := malloc_aligned_iff Heap.unset
  refine ⟨fun haligned => ?_, ?_⟩
  · have hzero := (hruns _ .second (Run.single HeapStep.first_malloc)).mp haligned
    exact absurd (hzero 24 _ (.head _)) (by decide)
  · obtain ⟨segs, hc, hiff⟩ := hcalls [] .first .nil
    refine ⟨segs, hc, fun hseven => ?_⟩
    have h8 := (hiff 24 _ _ HeapStep.first_malloc (by decide)).mpr hseven
    exact absurd h8 (by decide)

/-- The first block of all begins behind a header at an aligned address. -/
theorem malloc_misaligned : ¬ ∀ (h : Heap) (calls : List HeapCall) (c : HeapClient) (n p : ℕ),
    Run HeapStep ⟨h.initHeap, []⟩ calls c → .malloc n p ∈ calls → p ≠ 0 → 8 ∣ p := by
  intro hclaim
  have h8 := hclaim Heap.unset _ .second 24 (heapVirtualBase + headerSize)
    (Run.single HeapStep.first_malloc) (.head _) (by decide)
  exact absurd h8 (by decide)

end Eterna
