import Eterna.Memory.HeapGrowth
import Eterna.Memory.InitVirtual
import Eterna.Memory.PageSupply

/-!
# The pages behind the heap

`init_heap` and `expand_heap` map the pages that `request_page` returns, without looking whether it
returned any.  As long as it does, every page of the heap has a frame of its own.

* `Machine.MapsPage` : what a call of `map(address, request_page(), ..)` does;
* `Backed` : the pages of the heap have frames that nobody else has;
* `SuppliedStep.sound` : the steps of the heap, with pages available, and of the rest of the kernel
  keep it so;
* `malloc_backed` : so a `malloc` for which pages are available returns a block on frames that
  `request_page` has handed out.
-/

namespace Eterna

open TableWalk SegmentChain Runs PhysicalMemoryManager
open PageDirectoryEntry (next)

/-! ### What `request_page` and `map` draw from the allocator -/

namespace PhysicalMemoryManager

/-- `m'` is `m` after some calls of `request_page`. -/
structure Draws (m m' : PhysicalMemoryManager) : Prop where
  fits : m'.Fits
  handedOut : m.handedOut <:+ m'.handedOut

variable {m m' m'' : PhysicalMemoryManager}

theorem Draws.refl (h : m.Fits) : Draws m m := ⟨h, List.suffix_rfl⟩

theorem Draws.trans (h : Draws m m') (h' : Draws m' m'') : Draws m m'' :=
  ⟨h'.fits, h.handedOut.trans h'.handedOut⟩

theorem requestPage_draws (h : m.Fits) : Draws m m.requestPage.1 := by
  obtain ⟨l, he, -⟩ := handedOut_call h .requestPage
  exact ⟨call_fits h .requestPage, l, he.symm⟩

end PhysicalMemoryManager

namespace Machine

variable {s t : Machine} {f v : ℕ}

theorem nextTable_draws (h : s.pmm.Fits) (table : ℕ) (i : Fin 512) (mf : BitVec 64) :
    Draws s.pmm (s.nextTable table i mf).1.pmm := by
  unfold nextTable
  dsimp only
  split_ifs
  · exact .refl h
  · exact requestPage_draws h

theorem map_draws (h : s.pmm.Fits) (pml4 v p : ℕ) (mf : BitVec 64) :
    Draws s.pmm (s.map pml4 v p mf).pmm := by
  unfold map
  split_ifs
  · exact .refl h
  · have hlevel : ∀ {t : Machine}, Draws s.pmm t.pmm → ∀ table i,
        Draws s.pmm (t.nextTable table i mf).1.pmm :=
      fun ht table i => ht.trans (nextTable_draws ht.fits table i mf)
    exact hlevel (hlevel (hlevel (.refl h) _ _) _ _) _ _

/-- The frame cannot be handed out, and it is no table of the active page map. -/
structure Owned (s : Machine) (f : ℕ) : Prop where
  not_free : ¬ s.pmm.Free f
  not_table : ¬ IsTableOf s.ram s.activePageMap f

theorem Owned.extends (h : s.Owned f) (hext : Extends s.activePageMap s t)
    (hact : t.activePageMap = s.activePageMap) : t.Owned f := by
  refine ⟨fun hfree => h.not_free (hext.free f hfree), fun htable => ?_⟩
  rw [hact] at htable
  exact (hext.tables f htable).elim h.not_table h.not_free

/-- `map(v, request_page(), Present | ReadWrite | Global)` finds every page it requests: the one it
maps, and those for the tables that are missing. -/
def PageSupplied (s : Machine) (v : ℕ) : Prop :=
  (∃ j, s.pmm.Free j) ∧ s.requestPage.1.MapSupplied s.activePageMap v presentWriteGlobal

/-- The call of `map` that leads from `s` to `t` has put the free frame `f` behind the page of
`v`. -/
structure MapsPage (s : Machine) (v f : ℕ) (t : Machine) : Prop where
  free : s.pmm.Free f
  grown : Extends s.activePageMap s t
  active : t.activePageMap = s.activePageMap
  owned : t.Owned f
  fits : t.pmm.Fits
  handedOut : (f :: s.pmm.handedOut) <:+ t.pmm.handedOut
  translate : ∀ w, Eterna.translate t.ram s.activePageMap w =
    if pageNumber w = pageNumber v then some f else Eterna.translate s.ram s.activePageMap w
  tables : (follow next t.ram (frameOf s.activePageMap) (PageMapIndexer.ofAddress v).tables).isSome

/-- **One page**: with pages available, `map` puts a frame of its own behind it. -/
theorem exists_mapsPage (hact : s.activePageMap ≠ 0) (hwf : WellFormed s.ram s.activePageMap)
    (hfresh : s.FreshFrames s.activePageMap) (hfits : s.pmm.Fits) (hsup : s.PageSupplied v) :
    ∃ f, s.MapsPage v f
      (s.requestPage.1.map s.activePageMap v s.requestPage.2 presentWriteGlobal) := by
  obtain ⟨⟨j, hj⟩, hsup⟩ := hsup
  obtain ⟨f, hf, -, he⟩ | ⟨hnone, -⟩ := requestPage_cases hfits.1
  · have hrequest : s.requestPage = ({ s with pmm := s.pmm.handOut f }, f * pageSize) := by
      rw [requestPage, he]
    rw [hrequest] at hsup ⊢
    dsimp only at hsup ⊢
    -- before `map` works on it, the page map is as it was, and one page less is free
    have hgone : ∀ g, (s.pmm.handOut f).Free g → s.pmm.Free g ∧ f < g :=
      fun g => (free_handOut hf.1).1
    have hfresh' : FreshFrames { s with pmm := s.pmm.handOut f } s.activePageMap :=
      ⟨(handOut_totalPages _ _).trans_le hfresh.fits, fun g hg => hfresh.fresh g (hgone g hg).1⟩
    have hfits' : (s.pmm.handOut f).Fits :=
      hfits.of_eq (handOut_totalPages _ _) (handOut_size _ _)
    have hlt : f * pageSize < 2 ^ 52 := by
      have h1 := hf.2.1
      have h2 := hfresh.fits
      unfold pageSize
      omega
    obtain ⟨hext, htr, htables, -⟩ := map_spec (s := { s with pmm := s.pmm.handOut f }) hact hwf
      hfresh' hsup (by decide) hlt
    have hfirst : Extends s.activePageMap s { s with pmm := s.pmm.handOut f } :=
      ⟨hwf, hfresh', fun g hg => (hgone g hg).1, fun g => .inl, fun g _ _ => rfl⟩
    have hdraws := map_draws (s := { s with pmm := s.pmm.handOut f }) hfits' s.activePageMap v
      (f * pageSize) presentWriteGlobal
    have hactive := map_activePageMap { s with pmm := s.pmm.handOut f } s.activePageMap v
      (f * pageSize) presentWriteGlobal
    refine ⟨f, hf, hfirst.trans hext, hactive, ⟨fun hfree => ?_, fun htable => ?_⟩, hdraws.fits,
      hdraws.handedOut, fun w => ?_, htables⟩
    · exact Nat.lt_irrefl f (hgone f (hext.free f hfree)).2
    · rw [hactive] at htable
      obtain htable | hfree := hext.tables f htable
      · exact hfresh.fresh f hf htable
      · exact Nat.lt_irrefl f (hgone f hfree).2
    · rw [htr, Nat.mul_div_cancel f (by decide)]
  · exact absurd hj (hnone j)

theorem Supply.requestPage {k : ℕ} (hT : s.pmm.totalPages ≤ 2 ^ 52) (h : s.Supply (k + 1)) :
    s.requestPage.1.Supply k := by
  obtain ⟨c, hc⟩ := h
  obtain ⟨n, hn, hmin, he⟩ | ⟨hnone, -⟩ := requestPage_cases hT
  · have hnc := hmin c (hc c le_rfl (by omega))
    rw [Machine.requestPage, he]
    exact ⟨c + 1, fun j h1 h2 => (free_handOut hn.1).2 ⟨hc j (by omega) (by omega), by omega⟩⟩
  · exact absurd (hc c le_rfl (by omega)) (hnone c)

theorem Supply.pageSupplied (hT : s.pmm.totalPages ≤ 2 ^ 40) (h : s.Supply 4) (v : ℕ) :
    s.PageSupplied v := by
  have hrest := h.requestPage (hT.trans (by decide))
  obtain ⟨c, hc⟩ := h
  exact ⟨⟨c, hc c le_rfl (by omega)⟩,
    hrest.mapSupplied ((s.pmm.requestPage_totalPages).trans_le hT) _ _ _⟩

end Machine

/-! ### The pages of the heap -/

/-- The frame behind a virtual address in the active page map. -/
def Machine.frame (s : Machine) (v : ℕ) : Option ℕ := translate s.ram s.activePageMap v

/-- The active page map is well formed, and `request_page` hands out neither its tables nor the
pages `held` that the rest of the kernel holds. -/
structure Paged (s : Machine) (held : List ℕ) : Prop where
  active : s.activePageMap ≠ 0
  wellFormed : WellFormed s.ram s.activePageMap
  freshFrames : s.FreshFrames s.activePageMap
  fits : s.pmm.Fits
  held_owned : ∀ f ∈ held, s.Owned f

/-- **The pages of the heap**, which ends at `stop`, have frames that nobody else has: they cannot
be handed out, are no tables, are not held by the rest of the kernel, and no two pages share one. -/
structure Backed (s : Machine) (stop : ℕ) (held : List ℕ) : Prop extends Paged s held where
  base_le : heapVirtualBase ≤ stop
  stop_lt : stop < 2 ^ 64
  aligned : pageSize ∣ stop
  frames : ∀ v ∈ Set.Ico heapVirtualBase stop, ∃ f, s.frame v = some f ∧ s.Owned f ∧ f ∉ held
  own : ∀ v ∈ Set.Ico heapVirtualBase stop, ∀ w ∈ Set.Ico heapVirtualBase stop,
    s.frame v = s.frame w → v / pageSize = w / pageSize

section Backed

variable {s t u : Machine} {stop stop' stop'' f v w : ℕ} {held : List ℕ}

theorem Paged.backed (h : Paged s held) : Backed s heapVirtualBase held where
  toPaged := h
  base_le := le_rfl
  stop_lt := by decide
  aligned := by decide
  frames v hv := absurd hv.2 (Nat.not_lt.2 hv.1)
  own v hv := absurd hv.2 (Nat.not_lt.2 hv.1)

theorem Paged.extend (h : Paged s held) (hext : Machine.Extends s.activePageMap s t)
    (hact : t.activePageMap = s.activePageMap) (hfits : t.pmm.Fits) : Paged t held where
  active := hact ▸ h.active
  wellFormed := hact ▸ hext.wellFormed
  freshFrames := hact ▸ hext.freshFrames
  fits := hfits
  held_owned f hf := (h.held_owned f hf).extends hext hact

/-- **Other work on the page map** that leaves the translations of the heap alone. -/
theorem Backed.extend (h : Backed s stop held) (hext : Machine.Extends s.activePageMap s t)
    (hact : t.activePageMap = s.activePageMap) (hfits : t.pmm.Fits)
    (hframe : ∀ v ∈ Set.Ico heapVirtualBase stop, t.frame v = s.frame v) : Backed t stop held where
  toPaged := h.toPaged.extend hext hact hfits
  base_le := h.base_le
  stop_lt := h.stop_lt
  aligned := h.aligned
  frames v hv := by
    obtain ⟨f, hf, howned, hnot⟩ := h.frames v hv
    exact ⟨f, (hframe v hv).trans hf, howned.extends hext hact, hnot⟩
  own v hv w hw heq := h.own v hv w hw (by rwa [hframe v hv, hframe w hw] at heq)

theorem pageNumber_window (hv : v ∈ Set.Ico heapVirtualBase (2 ^ 64))
    (hw : w ∈ Set.Ico heapVirtualBase (2 ^ 64)) :
    pageNumber v = pageNumber w ↔ v / pageSize = w / pageSize := by
  obtain ⟨hv, hv'⟩ := hv
  obtain ⟨hw, hw'⟩ := hw
  unfold heapVirtualBase at hv hw
  unfold pageNumber pageSize
  omega

theorem div_eq_iff (h : pageSize ∣ stop) :
    v / pageSize = stop / pageSize ↔ stop ≤ v ∧ v < stop + pageSize := by
  obtain ⟨k, rfl⟩ := h
  unfold pageSize
  omega

theorem Backed.frame_eq (h : Backed s stop held) (hm : s.MapsPage stop f t)
    (hlt : stop + pageSize < 2 ^ 64) (hv : v ∈ Set.Ico heapVirtualBase (stop + pageSize)) :
    t.frame v = if v < stop then s.frame v else some f := by
  have hiff : pageNumber v = pageNumber stop ↔ ¬ v < stop := by
    rw [pageNumber_window ⟨hv.1, hv.2.trans hlt⟩ ⟨h.base_le, h.stop_lt⟩, div_eq_iff h.aligned,
      and_iff_left hv.2, Nat.not_lt]
  rw [Machine.frame, hm.active, hm.translate, if_congr hiff rfl rfl, ite_not]
  rfl

/-- **One more page**: its frame was free, so nobody had it. -/
theorem Backed.mapsPage (h : Backed s stop held) (hm : s.MapsPage stop f t)
    (hlt : stop + pageSize < 2 ^ 64) : Backed t (stop + pageSize) held where
  toPaged := h.toPaged.extend hm.grown hm.active hm.fits
  base_le := h.base_le.trans (Nat.le_add_right _ _)
  stop_lt := hlt
  aligned := Nat.dvd_add h.aligned dvd_rfl
  frames v hv := by
    rw [h.frame_eq hm hlt hv]
    split
    next hold =>
      obtain ⟨g, hg, howned, hnot⟩ := h.frames v ⟨hv.1, hold⟩
      exact ⟨g, hg, howned.extends hm.grown hm.active, hnot⟩
    next => exact ⟨f, rfl, hm.owned, fun hheld => (h.held_owned f hheld).not_free hm.free⟩
  own v hv w hw heq := by
    -- an old page has another frame than the new one
    have hother : ∀ x ∈ Set.Ico heapVirtualBase stop, s.frame x ≠ some f := by
      intro x hx hxf
      obtain ⟨g, hg, howned, -⟩ := h.frames x hx
      obtain rfl := Option.some.inj (hg.symm.trans hxf)
      exact howned.not_free hm.free
    rw [h.frame_eq hm hlt hv, h.frame_eq hm hlt hw] at heq
    by_cases hvold : v < stop
    · rw [if_pos hvold] at heq
      by_cases hwold : w < stop
      · rw [if_pos hwold] at heq
        exact h.own v ⟨hv.1, hvold⟩ w ⟨hw.1, hwold⟩ heq
      · rw [if_neg hwold] at heq
        exact absurd heq (hother v ⟨hv.1, hvold⟩)
    · rw [if_neg hvold] at heq
      by_cases hwold : w < stop
      · rw [if_pos hwold] at heq
        exact absurd heq.symm (hother w ⟨hw.1, hwold⟩)
      · exact ((div_eq_iff h.aligned).2 ⟨Nat.not_lt.1 hvold, hv.2⟩).trans
          ((div_eq_iff h.aligned).2 ⟨Nat.not_lt.1 hwold, hw.2⟩).symm

/-- From `s` to `t` the heap has grown from `stop` to `stop'`, on pages that `request_page` has
handed out on the way. -/
structure Acquires (held : List ℕ) (s : Machine) (stop : ℕ) (t : Machine) (stop' : ℕ) : Prop where
  backed : Backed t stop' held
  le : stop ≤ stop'
  old : ∀ v ∈ Set.Ico heapVirtualBase stop, t.frame v = s.frame v
  fresh : ∃ l, t.pmm.handedOut = l ++ s.pmm.handedOut ∧
    ∀ v ∈ Set.Ico stop stop', ∃ f ∈ l, t.frame v = some f

theorem Acquires.refl (h : Backed s stop held) : Acquires held s stop s stop :=
  ⟨h, le_rfl, fun _ _ => rfl, [], rfl, fun _ hv => absurd hv.2 (Nat.not_lt.2 hv.1)⟩

theorem Acquires.trans (hbase : heapVirtualBase ≤ stop) (h : Acquires held s stop t stop')
    (h' : Acquires held t stop' u stop'') : Acquires held s stop u stop'' := by
  obtain ⟨l, hl, hfresh⟩ := h.fresh
  obtain ⟨l', hl', hfresh'⟩ := h'.fresh
  refine ⟨h'.backed, h.le.trans h'.le, fun v hv => ?_, l' ++ l, ?_, fun v hv => ?_⟩
  · rw [h'.old v ⟨hv.1, hv.2.trans_le h.le⟩, h.old v hv]
  · rw [hl', hl, List.append_assoc]
  · by_cases hold : v < stop'
    · obtain ⟨f, hf, hframe⟩ := hfresh v ⟨hv.1, hold⟩
      refine ⟨f, List.mem_append_right _ hf, ?_⟩
      rw [h'.old v ⟨hbase.trans hv.1, hold⟩, hframe]
    · obtain ⟨f, hf, hframe⟩ := hfresh' v ⟨Nat.not_lt.1 hold, hv.2⟩
      exact ⟨f, List.mem_append_left _ hf, hframe⟩

theorem Backed.acquires (h : Backed s stop held) (hm : s.MapsPage stop f t)
    (hlt : stop + pageSize < 2 ^ 64) : Acquires held s stop t (stop + pageSize) := by
  obtain ⟨l, hl⟩ := hm.handedOut
  refine ⟨h.mapsPage hm hlt, Nat.le_add_right _ _, fun v hv => ?_, l ++ [f], ?_, fun v hv => ?_⟩
  · rw [h.frame_eq hm hlt ⟨hv.1, Nat.lt_add_right _ hv.2⟩, if_pos hv.2]
  · rw [← hl, List.append_assoc]
    rfl
  · refine ⟨f, by simp, ?_⟩
    rw [h.frame_eq hm hlt ⟨h.base_le.trans hv.1, hv.2⟩, if_neg (Nat.not_lt.2 hv.1)]

/-- **A call of the page allocator** by the rest of the kernel, which frees only what it holds. -/
theorem Backed.call (h : Backed s stop held) {c : PmmCall} (hfreed : ∀ p ∈ c.freed, p ∈ held) :
    Backed { s with pmm := s.pmm.call c } stop
      ((newPages s.pmm (s.pmm.call c) ++ held).filter fun p => decide (p ∉ c.freed)) := by
  obtain ⟨l, hl, hnew⟩ := handedOut_call h.fits c
  rw [newPages_eq hl]
  have hheld : ∀ f, f ∈ (l ++ held).filter (fun p => decide (p ∉ c.freed)) →
      (f ∈ l ∨ f ∈ held) ∧ f ∉ c.freed := by
    intro f hf
    obtain ⟨hmem, hnot⟩ := List.mem_filter.1 hf
    exact ⟨List.mem_append.1 hmem, of_decide_eq_true hnot⟩
  have hfree : ∀ f, (s.pmm.call c).Free f → s.pmm.Free f ∨ f ∈ held := by
    intro f hf
    by_cases hmem : f ∈ c.freed
    · exact .inr (hfreed f hmem)
    · exact .inl (free_of_free_call h.fits.covered hf hmem)
  refine ⟨⟨h.active, h.wellFormed,
    ⟨(s.pmm.call_sum c).2.trans_le h.freshFrames.fits, fun f hf => ?_⟩,
    call_fits h.fits c, fun f hf => ?_⟩, h.base_le, h.stop_lt, h.aligned, fun v hv => ?_, h.own⟩
  · exact (hfree f hf).elim (h.freshFrames.fresh f) fun hmem => (h.held_owned f hmem).not_table
  · obtain ⟨hmem | hmem, hnot⟩ := hheld f hf
    · exact ⟨(hnew f hmem).2, h.freshFrames.fresh f (hnew f hmem).1⟩
    · refine ⟨fun hf => ?_, (h.held_owned f hmem).not_table⟩
      exact (h.held_owned f hmem).not_free (free_of_free_call h.fits.covered hf hnot)
  · obtain ⟨f, hf, howned, hnot⟩ := h.frames v hv
    refine ⟨f, hf, ⟨fun hf => (hfree f hf).elim howned.not_free hnot, howned.not_table⟩,
      fun hmem => ?_⟩
    exact (hheld f hmem).1.elim (fun hmem => howned.not_free (hnew f hmem).1) hnot

theorem le_pageNumber (hv : v ∈ Set.Ico heapVirtualBase (2 ^ 64)) :
    pageNumber heapVirtualBase ≤ pageNumber v := by
  obtain ⟨hv, hv'⟩ := hv
  unfold pageNumber
  unfold heapVirtualBase at hv ⊢
  omega

/-- **A call of `map`** by the rest of the kernel, for a page below the heap. -/
theorem Backed.map (h : Backed s stop held) {v p : ℕ} {mf : BitVec 64}
    (hv : pageNumber v < pageNumber heapVirtualBase) (hp : p < 2 ^ 52)
    (hmf : hasFlag mf .present = true) (hsup : s.MapSupplied s.activePageMap v mf) :
    Backed (s.map s.activePageMap v p mf) stop held := by
  obtain ⟨hext, htr, -⟩ := Machine.map_spec h.active h.wellFormed h.freshFrames hsup hmf hp
  have hact := Machine.map_activePageMap s s.activePageMap v p mf
  refine h.extend hext hact (Machine.map_draws h.fits _ _ _ _).fits fun w hw => ?_
  have hle := le_pageNumber ⟨hw.1, hw.2.trans h.stop_lt⟩
  rw [Machine.frame, hact, htr, if_neg (by omega)]
  rfl

end Backed

/-! ### The operations of the heap -/

namespace Heap

variable {h h' : Heap} {segs : List Segment} {held : List ℕ} {n p : ℕ}

/-- `request_page` finds every page that `n` iterations of the loop of `expand_heap` ask it for. -/
def PagesSupplied : ℕ → Heap → Prop
  | 0, _ => True
  | n + 1, h => h.machine.PageSupplied h.sHeapEnd ∧
      PagesSupplied n { h.mapPage h.sHeapEnd with sHeapEnd := add64 h.sHeapEnd pageSize }

/-- `request_page` finds every page that `malloc(numBytes)` asks it for. -/
def MallocSupplied (h : Heap) (numBytes : ℕ) : Prop :=
  ∀ fuel, ∀ e ∈ expansions fuel h numBytes, e.1.PagesSupplied (e.2 / pageSize + 1)

theorem mapPage_acquires {stop : ℕ} (hb : Backed h.machine stop held)
    (hsup : h.machine.PageSupplied stop) (hlt : stop + pageSize < 2 ^ 64) :
    Acquires held h.machine stop (h.mapPage stop).machine (stop + pageSize) := by
  obtain ⟨f, hm⟩ := Machine.exists_mapsPage hb.active hb.wellFormed hb.freshFrames hb.fits hsup
  exact hb.acquires hm hlt

/-- **The loop of `expand_heap`**: by induction on the pages. -/
theorem mapPages_acquires (n : ℕ) (hb : Backed h.machine h.sHeapEnd held)
    (hsup : PagesSupplied n h) (hfit : h.sHeapEnd + n * pageSize < 2 ^ 64) :
    Acquires held h.machine h.sHeapEnd (mapPages n h).machine (mapPages n h).sHeapEnd := by
  induction n generalizing h with
  | zero => exact .refl hb
  | succ n ih =>
    obtain ⟨hpage, hrest⟩ := hsup
    rw [Nat.succ_mul] at hfit
    have hlt : h.sHeapEnd + pageSize < 2 ^ 64 := by omega
    have hfirst := mapPage_acquires hb hpage hlt
    have hend : add64 h.sHeapEnd pageSize = h.sHeapEnd + pageSize := add64_of_lt hlt
    rw [hend] at hrest
    rw [mapPages]
    have hmapped : (h.mapPage h.sHeapEnd).sHeapEnd = h.sHeapEnd := rfl
    rw [hmapped, hend]
    refine hfirst.trans hb.base_le (ih hfirst.backed hrest ?_)
    dsimp only
    omega

theorem expandHeap_acquires (hb : Backed h.machine h.sHeapEnd held)
    (hsup : PagesSupplied (n / pageSize + 1) h) (hfit : h.expandedEnd n < 2 ^ 64) :
    Acquires held h.machine h.sHeapEnd (h.expandHeap n).machine (h.expandHeap n).sHeapEnd := by
  have hsame := expandHeap_sameArena h n
  rw [hsame.machine, hsame.stop]
  exact mapPages_acquires _ hb hsup hfit

/-- **`malloc`**: by induction on the depth of its calls, each of which expands the heap before the
next. -/
theorem Chain.malloc_acquires {fuel : ℕ} (hc : h.Chain segs)
    (hb : Backed h.machine h.sHeapEnd held) (hbelow : StaysBelow fuel h n)
    (hsup : ∀ e ∈ expansions fuel h n, e.1.PagesSupplied (e.2 / pageSize + 1))
    (hm : h.malloc false fuel n = some (h', p)) :
    Acquires held h.machine h.sHeapEnd h'.machine h'.sHeapEnd := by
  induction fuel generalizing h segs n with
  | zero => cases hm
  | succ fuel ih =>
    by_cases hn : n = 0
    · subst hn
      obtain ⟨rfl, -⟩ := malloc_zero hm
      exact .refl hb
    · obtain ⟨t, hfind, heq, -⟩ | ⟨hsearch, hm⟩ := hc.malloc_cases hn hm
      · obtain ⟨hfits, pre, post, rfl⟩ := fits_of_find hfind
        have hsame := (hc.take hfits).2
        rw [heq, hsame.machine, hsame.stop]
        exact .refl hb
      · rw [expansions, if_neg hn, hsearch] at hsup
        dsimp only at hsup
        rw [if_pos rfl, List.forall_mem_cons] at hsup
        obtain ⟨hfit, hbelow⟩ := hbelow hn _ hsearch rfl
        have hgrown := expandHeap_acquires hb hsup.1 hfit
        exact hgrown.trans hb.base_le (ih (hc.expandHeap hfit) hgrown.backed hbelow hsup.2 hm)

theorem mapPage_supply {k : ℕ} (hT : h.machine.pmm.totalPages ≤ 2 ^ 40)
    (hsup : h.machine.Supply (k + 4)) (v : ℕ) : (h.mapPage v).machine.Supply k := by
  have hrest := hsup.requestPage (hT.trans (by decide))
  exact hrest.map ((h.machine.pmm.requestPage_totalPages).trans_le hT) _ _ _ _

theorem pagesSupplied_of_supply (hT : h.machine.pmm.totalPages ≤ 2 ^ 40)
    (hsup : h.machine.Supply (4 * n)) : h.PagesSupplied n := by
  induction n generalizing h with
  | zero => trivial
  | succ n ih =>
    have hmapped : (h.mapPage h.sHeapEnd).machine.pmm.totalPages = h.machine.pmm.totalPages :=
      (Machine.map_totalPages _ _ _ _ _).trans h.machine.pmm.requestPage_totalPages
    have hfour : h.machine.Supply 4 := hsup.mono (by omega)
    have hrest : h.machine.Supply (4 * n + 4) := hsup
    refine ⟨hfour.pageSupplied hT _, ih ?_ ?_⟩
    · exact hmapped.trans_le hT
    · exact mapPage_supply hT hrest h.sHeapEnd

theorem initHeap_machine (h : Heap) : h.initHeap.machine = (h.mapPage heapVirtualBase).machine :=
  rfl

theorem initHeap_backed (hpaged : Paged h.machine held)
    (hsup : h.machine.PageSupplied heapVirtualBase) :
    Backed h.initHeap.machine h.initHeap.sHeapEnd held := by
  rw [initHeap_machine, initHeap_sHeapEnd]
  exact (mapPage_acquires hpaged.backed hsup (by decide)).backed

end Heap

/-! ### Runs of the kernel -/

/-- The client of the heap, and the pages that the rest of the kernel holds. -/
structure Kernel where
  client : HeapClient
  held : List ℕ

/-- What happens in the kernel. -/
inductive KernelCall where
  /-- The client of the heap makes a call. -/
  | heap (call : HeapCall)
  /-- The rest of the kernel calls the page allocator. -/
  | pages (call : PmmCall)
  /-- The rest of the kernel maps a page. -/
  | map (call : MapCall)

/-- `request_page` finds every page that the call asks it for. -/
def HeapCall.Supplied (h : Heap) : HeapCall → Prop
  | .malloc n _ => h.MallocSupplied n
  | .expandHeap n => h.PagesSupplied (n / pageSize + 1)
  | _ => True

namespace Kernel

/-- The same heap on the machine `t`. -/
def onMachine (k : Kernel) (t : Machine) : HeapClient :=
  ⟨{ k.client.heap with machine := t }, k.client.live⟩

/-- The machine of the kernel. -/
abbrev machine (k : Kernel) : Machine := k.client.heap.machine

/-- The state after a call of the page allocator by the rest of the kernel, which then holds what it
has been handed and no longer what it has freed. -/
def callPages (k : Kernel) (c : PmmCall) : Kernel :=
  ⟨k.onMachine { k.machine with pmm := k.machine.pmm.call c },
    (newPages k.machine.pmm (k.machine.pmm.call c) ++ k.held).filter fun p => decide (p ∉ c.freed)⟩

/-- The state after a call of `map` by the rest of the kernel. -/
def callMap (k : Kernel) (c : MapCall) : Kernel :=
  ⟨k.onMachine (k.machine.map k.machine.activePageMap c.virtualAddress c.physicalAddress
    c.mappingFlags), k.held⟩

end Kernel

/-- A step of the kernel in which `request_page` finds the pages that the heap needs.  The rest of
the kernel may call the page allocator at any time, whether there are pages or not, as long as it
frees only what it holds, and may map pages below the heap. -/
inductive SuppliedStep : Kernel → KernelCall → Kernel → Prop where
  | heap {k : Kernel} {l : HeapCall} {c : HeapClient} (hstep : RoomStep k.client l c)
      (hsup : l.Supplied k.client.heap) : SuppliedStep k (.heap l) ⟨c, k.held⟩
  | pages {k : Kernel} {c : PmmCall} (hfreed : ∀ p ∈ c.freed, p ∈ k.held) :
      SuppliedStep k (.pages c) (k.callPages c)
  | map {k : Kernel} {c : MapCall}
      (hbelow : pageNumber c.virtualAddress < pageNumber heapVirtualBase)
      (hp : c.physicalAddress < 2 ^ 52) (hmf : hasFlag c.mappingFlags .present = true)
      (hsup : k.machine.MapSupplied k.machine.activePageMap c.virtualAddress c.mappingFlags) :
      SuppliedStep k (.map c) (k.callMap c)

/-- The invariant of the runs. -/
structure Kernel.Sound (k : Kernel) (segs : List Segment) : Prop where
  client : k.client.Sound segs
  start : k.client.heap.sHeapStart = heapVirtualBase
  backed : Backed k.machine k.client.heap.sHeapEnd k.held

theorem HeapClient.Sound.onMachine {k : Kernel} {segs : List Segment} (h : k.client.Sound segs)
    (t : Machine) : (k.onMachine t).Sound segs :=
  ⟨⟨h.chain.linked, h.chain.tiles, h.chain.ne_nil, h.chain.last_eq, h.chain.start_pos,
    h.chain.end_lt, h.chain.long⟩, h.live, h.nodup⟩

/-- **The steps of the heap**, with pages available. -/
theorem RoomStep.backed {c c' : HeapClient} {l : HeapCall} {segs : List Segment} {held : List ℕ}
    (hs : c.Sound segs) (hbase : heapVirtualBase ≤ c.heap.sHeapStart)
    (hb : Backed c.heap.machine c.heap.sHeapEnd held) (hstep : RoomStep c l c')
    (hsup : l.Supplied c.heap) : Backed c'.heap.machine c'.heap.sHeapEnd held := by
  cases hstep with
  | @malloc n p fuel h hn hroom hm =>
    have hbelow := ((hs.chain.neverWraps_iff hbase hn).mpr hroom).staysBelow fuel
    exact (hs.chain.malloc_acquires hb hbelow (hsup fuel) hm).backed
  | @free p hp =>
    have hsame := Heap.free_sameArena c.heap p
    dsimp only
    rw [hsame.machine, hsame.stop]
    exact hb
  | expandHeap hfit => exact (Heap.expandHeap_acquires hb hsup hfit).backed
  | write => exact hb

/-- **One step** keeps the invariant. -/
theorem SuppliedStep.sound {k k' : Kernel} {l : KernelCall} {segs : List Segment}
    (hs : k.Sound segs)
    (hstep : SuppliedStep k l k') : ∃ segs', k'.Sound segs' := by
  cases hstep with
  | heap hroom hsup =>
    have hstep := hroom.heapStep hs.client hs.start.ge
    obtain ⟨segs', hs', -⟩ := hstep.sound hs.client
    exact ⟨segs', hs', (hstep.start hs.client).trans hs.start,
      hroom.backed hs.client hs.start.ge hs.backed hsup⟩
  | pages hfreed => exact ⟨segs, hs.client.onMachine _, hs.start, hs.backed.call hfreed⟩
  | map hbelow hp hmf hsup =>
    exact ⟨segs, hs.client.onMachine _, hs.start, hs.backed.map hbelow hp hmf hsup⟩

theorem suppliedRun_sound {h : Heap} {held : List ℕ} {calls : List KernelCall} {k : Kernel}
    (hpaged : Paged h.machine held) (hsup : h.machine.PageSupplied heapVirtualBase)
    (hrun : Run SuppliedStep ⟨⟨h.initHeap, []⟩, held⟩ calls k) : ∃ segs, k.Sound segs :=
  hrun.invariant (I := fun k => ∃ segs, k.Sound segs)
    ⟨_, HeapClient.sound_init h, rfl, Heap.initHeap_backed hpaged hsup⟩
    fun _ _ _ ⟨_, hs⟩ hstep => hstep.sound hs

/-! ### `malloc` on its pages -/

namespace Heap

/-- What `malloc(numBytes)`, which has led from `h` to `h'` and returned `pointer`, owes its caller:
a block in the heap, each new page of which has a frame that `request_page` has handed out in this
call, that is no table, that the rest of the kernel does not hold and that no other page of the heap
has; or `nullptr`, with the chain, the bounds of the heap and the page tables as they were. -/
def AllOrNothing (h : Heap) (held : List ℕ) (numBytes : ℕ) (h' : Heap) (pointer : ℕ) : Prop :=
  (pointer ≠ 0 ∧ Set.Ico pointer (pointer + numBytes) ⊆ Set.Ico h'.sHeapStart h'.sHeapEnd ∧
    ∀ v ∈ Set.Ico h.sHeapEnd h'.sHeapEnd, ∃ f ∈ newPages h.machine.pmm h'.machine.pmm,
      h'.machine.frame v = some f ∧ ¬ IsTableOf h'.machine.ram h'.machine.activePageMap f ∧
      f ∉ held ∧ ∀ w ∈ Set.Ico heapVirtualBase h'.sHeapEnd, h'.machine.frame w = some f →
        w / pageSize = v / pageSize) ∨
  (pointer = 0 ∧ h'.header = h.header ∧ h'.sHeapStart = h.sHeapStart ∧ h'.sHeapEnd = h.sHeapEnd ∧
    h'.sLastHeader = h.sLastHeader ∧ h'.machine.ram = h.machine.ram)

variable {h h' : Heap} {segs : List Segment} {held : List ℕ} {n p : ℕ}

theorem Allocates.block_subset {segs' : List Segment} (ha : Allocates h segs n h' p segs')
    (hp : p ≠ 0) : Set.Ico p (p + n) ⊆ Set.Ico h'.sHeapStart h'.sHeapEnd := by
  obtain ⟨s, hmem, -, hptr, hlen, -⟩ := ha.block hp
  obtain ⟨hlo, hhi⟩ := ha.chain.tiles.mem_le hmem
  exact Set.Ico_subset_Ico (by omega) (by omega)

/-- A call that has room does not return `nullptr`. -/
theorem Chain.pointer_ne_zero {fuel : ℕ} (hc : h.Chain segs) (hn : n ≠ 0) (hroom : h.Room n)
    (hbelow : StaysBelow fuel h n) (hm : h.malloc false fuel n = some (h', p)) : p ≠ 0 := by
  obtain ⟨hle, -⟩ := hroom.resolve_left hn
  obtain ⟨-, hpos, -⟩ := roundRequest_spec hn hle
  obtain ⟨j, g, gs, hg, ⟨hzero, -⟩ | ⟨t, hfind, -, rfl⟩⟩ := hc.malloc_grows hn hbelow hm
  · omega
  · have hstop := (hg.chain hc).stop_lt (List.mem_of_find?_eq_some hfind)
    rw [add64_of_lt (by omega)]
    exact Nat.ne_of_gt (Nat.add_pos_right _ (by decide))

/-- A block on pages that have been acquired. -/
theorem allOrNothing_of_acquires (hbase : heapVirtualBase ≤ h.sHeapEnd) (hp : p ≠ 0)
    (hblock : Set.Ico p (p + n) ⊆ Set.Ico h'.sHeapStart h'.sHeapEnd)
    (hacq : Acquires held h.machine h.sHeapEnd h'.machine h'.sHeapEnd) :
    AllOrNothing h held n h' p := by
  obtain ⟨l, hl, hfresh⟩ := hacq.fresh
  refine .inl ⟨hp, hblock, fun v hv => ?_⟩
  have hv' : v ∈ Set.Ico heapVirtualBase h'.sHeapEnd := ⟨hbase.trans hv.1, hv.2⟩
  obtain ⟨f, hf, hframe⟩ := hfresh v hv
  obtain ⟨g, hg, howned, hnot⟩ := hacq.backed.frames v hv'
  obtain rfl := Option.some.inj (hframe.symm.trans hg)
  refine ⟨f, by rwa [newPages_eq hl], hframe, howned.not_table, hnot, fun w hw hwf => ?_⟩
  exact hacq.backed.own w hw v hv' (hwf.trans hframe.symm)

end Heap

/-- **`malloc` with pages available.**  In every run in which `request_page` finds the pages that
the heap needs, whatever else the rest of the kernel has requested, locked, freed and mapped, a call
of `malloc` that has room, and for which pages are available, returns, and returns a block on pages
with frames of their own; `malloc(0)` returns `nullptr` and changes nothing. -/
theorem malloc_backed {h : Heap} {held : List ℕ} (hpaged : Paged h.machine held)
    (hsup : h.machine.PageSupplied heapVirtualBase) {calls : List KernelCall} {k : Kernel}
    (hrun : Run SuppliedStep ⟨⟨h.initHeap, []⟩, held⟩ calls k) {n : ℕ} (hn : n < 2 ^ 64)
    (hroom : k.client.heap.Room n) (hpages : k.client.heap.MallocSupplied n) :
    (∃ fuel r, k.client.heap.malloc false fuel n = some r) ∧
    ∀ fuel h' p, k.client.heap.malloc false fuel n = some (h', p) →
      k.client.heap.AllOrNothing k.held n h' p := by
  obtain ⟨segs, hs⟩ := suppliedRun_sound hpaged hsup hrun
  have hc := hs.client.chain
  refine ⟨hroom.malloc_returns, fun fuel h' p hm => ?_⟩
  by_cases hzero : n = 0
  · subst hzero
    obtain ⟨rfl, rfl⟩ := Heap.malloc_zero hm
    exact .inr ⟨rfl, rfl, rfl, rfl, rfl, rfl⟩
  · have hbelow := ((hc.neverWraps_iff hs.start.ge hn).mpr hroom).staysBelow fuel
    have hp := hc.pointer_ne_zero hzero hroom hbelow hm
    obtain ⟨segs', halloc⟩ := hc.malloc hn hbelow hm
    exact Heap.allOrNothing_of_acquires hs.backed.base_le hp (halloc.block_subset hp)
      (hc.malloc_acquires hs.backed hbelow (hpages fuel) hm)

/-! ### Running out of pages -/

namespace Heap

variable {h h' : Heap} {segs : List Segment} {m n p : ℕ}

/-- A request for which nothing fits before an expansion, and something after it, ends on the pages
of that expansion. -/
theorem Chain.malloc_once (hc : h.Chain segs) (hn : n ≠ 0) (hround : roundRequest n = m)
    (hmod : m % 8 = 0) (hpos : 8 ≤ m) (hfind : segs.find? (Fits m ·) = none)
    (hfit : h.expandedEnd m < 2 ^ 64) (hroom : m + headerSize + 8 ≤ lastLength segs m) :
    ∃ fuel h' p, h.malloc false fuel n = some (h', p) ∧ SameArena (h.expandHeap m) h' := by
  have hagain : roundRequest m = m := hround ▸ roundRequest_idem n
  have hc' := hc.expandHeap hfit
  have hsome := (hc.find_expanded hmod hpos hfind).mpr hroom
  generalize absorbBack segs [h.extension m] = gs at hc' hsome
  obtain ⟨t, ht⟩ := Option.isSome_iff_exists.mp hsome
  have hfuel : segs.length ≤ max segs.length gs.length + 1 := Nat.le_succ_of_le (le_max_left _ _)
  have hm := (hc.malloc_of_none hn hfuel (hround.symm ▸ hfind)).2
  rw [hround, (hc'.malloc_of_find (by omega) (le_max_right _ _) (hagain.symm ▸ ht)).1, hagain] at hm
  obtain ⟨hfits, pre, post, rfl⟩ := fits_of_find ht
  exact ⟨_, _, _, hm, (hc'.take hfits).2⟩

/-- When no page is left and the tables are there, `map` is given address 0 and draws nothing. -/
theorem mapPage_handedOut {v : ℕ} (hwf : WellFormed h.machine.ram h.machine.activePageMap)
    (hfits : h.machine.pmm.totalPages ≤ 2 ^ 40) (hnone : ∀ i, ¬ h.machine.pmm.Free i)
    (htables : (follow PageDirectoryEntry.next h.machine.ram (frameOf h.machine.activePageMap)
      (PageMapIndexer.ofAddress v).tables).isSome) :
    (h.mapPage v).machine.pmm.handedOut = h.machine.pmm.handedOut := by
  obtain ⟨f, hf, -⟩ | ⟨-, he⟩ := requestPage_cases (hfits.trans (by decide))
  · exact absurd hf (hnone f)
  · have hpmm : h.machine.requestPage.1.pmm = h.machine.pmm.requestPage.1 := rfl
    have hfresh : h.machine.requestPage.1.FreshFrames h.machine.activePageMap := by
      refine ⟨?_, fun g hg => ?_⟩
      · rw [hpmm, he]
        exact hfits
      · rw [hpmm, he] at hg
        exact absurd ⟨(le_max_left _ _).trans hg.1, hg.2⟩ (hnone g)
    have hmap : (h.mapPage v).machine.pmm = h.machine.requestPage.1.pmm :=
      (Machine.map_pmm_of_tables (s := h.machine.requestPage.1) hwf hfresh (by decide) htables _).2
    refine (congrArg PhysicalMemoryManager.handedOut hmap).trans ?_
    rw [hpmm, he]

end Heap

theorem Heap.unset_paged : Paged Heap.unset.machine [] :=
  ⟨by decide, Machine.wellFormed_empty 2 20 _, Machine.freshFrames_empty (by decide) (by decide),
    ⟨by decide, rfl⟩, fun f hf => absurd hf List.not_mem_nil⟩

theorem Heap.unset_supply : Heap.unset.machine.Supply 18 := Machine.supply_empty (by decide)

theorem Heap.unset_supplied : Heap.unset.machine.PageSupplied heapVirtualBase :=
  (unset_supply.mono (by decide)).pageSupplied (by decide) _

theorem malloc_backed_first : ∃ fuel h' p,
    HeapClient.first.heap.malloc false fuel 5000 = some (h', p) ∧
      HeapClient.first.heap.AllOrNothing [] 5000 h' p := by
  have hc : HeapClient.first.heap.Chain [Heap.firstSegment] := Heap.unset.initHeap_chain
  have hend : HeapClient.first.heap.sHeapEnd = heapVirtualBase + pageSize := rfl
  have hround : Heap.roundRequest 5000 = 5000 := by decide
  have hfind : [Heap.firstSegment].find? (Heap.Fits 5000 ·) = none := by decide
  have hroom : HeapClient.first.heap.Room 5000 := by
    refine .inr ⟨by decide, _, hc, ?_⟩
    rw [hend]
    decide
  have hfit : HeapClient.first.heap.expandedEnd 5000 < 2 ^ 64 := by
    rw [Heap.expandedEnd, hend]
    decide
  have hpages : HeapClient.first.heap.MallocSupplied 5000 := by
    refine (Heap.expansions_of_none hc (by decide) hround hfind).mpr ⟨?_, fun fuel e he => ?_⟩
    · have hsup : HeapClient.first.heap.machine.Supply 14 :=
        Heap.mapPage_supply (by decide) Heap.unset_supply heapVirtualBase
      exact Heap.pagesSupplied_of_supply (by decide) (hsup.mono (by decide))
    · obtain ⟨t, ht⟩ := Option.isSome_iff_exists.mp
        ((hc.find_expanded (m := 5000) (by decide) (by decide) hfind).mpr (by decide))
      rw [Heap.expansions_of_find (hc.expandHeap hfit) hround ht] at he
      cases he
  obtain ⟨⟨fuel, ⟨h', p⟩, hm⟩, hall⟩ :=
    malloc_backed Heap.unset_paged Heap.unset_supplied .nil (by decide) hroom hpages
  exact ⟨fuel, h', p, hm, hall fuel h' p hm⟩

/-- The kernel after `init_heap`, when the rest of it has locked all pages. -/
def Kernel.locked : Kernel := Kernel.callPages ⟨.first, []⟩ (.lockPages 0 20)

theorem Kernel.locked_run : Run SuppliedStep ⟨.first, []⟩ [.pages (.lockPages 0 20)] .locked :=
  .single (.pages fun _ hp => absurd hp List.not_mem_nil)

theorem Kernel.locked_chain : Kernel.locked.client.heap.Chain [Heap.firstSegment] :=
  ((HeapClient.sound_init Heap.unset).onMachine (k := ⟨.first, []⟩) _).chain

theorem Kernel.locked_sHeapEnd :
    Kernel.locked.client.heap.sHeapEnd = heapVirtualBase + pageSize := rfl

theorem Kernel.locked_none (i : ℕ) : ¬ Kernel.locked.machine.pmm.Free i := by
  have hfits := (Heap.initHeap_backed Heap.unset_paged Heap.unset_supplied).fits
  have hT : Heap.unset.initHeap.machine.pmm.totalPages = 20 :=
    (Machine.map_totalPages _ _ _ _ _).trans (requestPage_totalPages _)
  rintro ⟨-, hlt, hclear⟩
  have hsame := lockPages_same Heap.unset.initHeap.machine.pmm 0 20
  have hget := get_lockPages Heap.unset.initHeap.machine.pmm (i := 0) (n := 20) (by decide) i
  have hlt : i < 20 := (hsame.totalPages.trans hT) ▸ hlt
  have hsize := hfits.2
  rw [hT] at hsize
  rw [Nat.zero_mul, decide_eq_true ⟨Nat.zero_le i, by omega, by omega⟩, Bool.or_true] at hget
  exact absurd (hclear.symm.trans hget) (by decide)

/-- `malloc(4080)` then expands the heap by a page that `request_page` has not handed out. -/
theorem Kernel.locked_malloc : ∃ fuel h' p,
    Kernel.locked.client.heap.malloc false fuel 4080 = some (h', p) ∧
      h'.sHeapEnd = Kernel.locked.client.heap.sHeapEnd + pageSize ∧
      h'.machine.pmm.handedOut = Kernel.locked.machine.pmm.handedOut := by
  have hc := Kernel.locked_chain
  have hfit : Kernel.locked.client.heap.expandedEnd 4080 < 2 ^ 64 := by
    rw [Heap.expandedEnd, Kernel.locked_sHeapEnd]
    decide
  obtain ⟨fuel, h', p, hm, hsame⟩ := hc.malloc_once (n := 4080) (m := 4080) (by decide) (by decide)
    (by decide) (by decide) (by decide) hfit (by decide)
  have hexpand := Heap.expandHeap_sameArena Kernel.locked.client.heap 4080
  -- the tables of the new page are those of the first one
  obtain ⟨f, hpage⟩ := Machine.exists_mapsPage Heap.unset_paged.active Heap.unset_paged.wellFormed
    Heap.unset_paged.freshFrames Heap.unset_paged.fits Heap.unset_supplied
  have htables := hpage.tables
  rw [← hpage.active, show (PageMapIndexer.ofAddress heapVirtualBase).tables =
    (PageMapIndexer.ofAddress (heapVirtualBase + pageSize)).tables by decide] at htables
  obtain ⟨segs, hs⟩ := suppliedRun_sound Heap.unset_paged Heap.unset_supplied Kernel.locked_run
  have hout : (Kernel.locked.client.heap.mapPage
    (heapVirtualBase + pageSize)).machine.pmm.handedOut =
      Kernel.locked.machine.pmm.handedOut :=
    Heap.mapPage_handedOut hs.backed.wellFormed hs.backed.freshFrames.fits
      Kernel.locked_none htables
  refine ⟨fuel, h', p, hm, ?_, ?_⟩
  · rw [hsame.stop, (Heap.expandHeap_bounds hc hfit).2, Heap.expandedEnd,
      show (4080 / pageSize + 1) * pageSize = pageSize by decide]
  · rw [hsame.machine, hexpand.machine]
    exact hout

/-- When `request_page` has run out, `malloc` returns a block on a page that it has not handed
out. -/
theorem malloc_maps_null : ¬ ∀ (h : Heap) (held : List ℕ), Paged h.machine held →
    h.machine.PageSupplied heapVirtualBase → ∀ calls k,
    Run SuppliedStep ⟨⟨h.initHeap, []⟩, held⟩ calls k → ∀ n < 2 ^ 64, k.client.heap.Room n →
    ∀ fuel h' p, k.client.heap.malloc false fuel n = some (h', p) →
      k.client.heap.AllOrNothing k.held n h' p := by
  intro hclaim
  obtain ⟨fuel, h', p, hm, hend, hout⟩ := Kernel.locked_malloc
  have hroom : Kernel.locked.client.heap.Room 4080 := by
    refine .inr ⟨by decide, _, Kernel.locked_chain, ?_⟩
    rw [Kernel.locked_sHeapEnd]
    decide
  obtain ⟨-, -, hpages⟩ | ⟨-, -, -, hstop, -⟩ := hclaim _ _ Heap.unset_paged Heap.unset_supplied _ _
    Kernel.locked_run 4080 (by decide) hroom fuel h' p hm
  · have hnew : Kernel.locked.client.heap.sHeapEnd < h'.sHeapEnd := by
      rw [hend]
      exact Nat.lt_add_of_pos_right (by decide)
    obtain ⟨f, hf, -⟩ := hpages _ ⟨Nat.le_refl _, hnew⟩
    rw [newPages_eq (hout.trans (List.nil_append _).symm)] at hf
    cases hf
  · rw [hend] at hstop
    exact absurd hstop (Nat.ne_of_gt (Nat.lt_add_of_pos_right (by decide)))

end Eterna
