import Eterna.Memory.HeapPages

/-!
# What lies below the heap

The heap is at the top of the address space.  Its operations map no page below it, and what the rest
of the kernel has mapped there stays as it is.

* `KeepsBelow` : the addresses below the heap translate as before;
* `SuppliedStep.frame_eq` : the steps of the heap keep them all, and a call of `map` by the rest of
  the kernel all but those of one page;
* `Backed.hold` : pages that nobody uses can be kept for good.
-/

namespace Eterna

open SegmentChain Runs PhysicalMemoryManager

/-- From `s` to `t` no page below the heap has been mapped, and no page has been freed. -/
structure KeepsBelow (s t : Machine) : Prop where
  frame : ∀ w, pageNumber w < pageNumber heapVirtualBase → t.frame w = s.frame w
  free : ∀ f, t.pmm.Free f → s.pmm.Free f

variable {s t u : Machine} {held l : List ℕ} {stop : ℕ}

theorem KeepsBelow.refl (s : Machine) : KeepsBelow s s := ⟨fun _ _ => rfl, fun _ => id⟩

theorem KeepsBelow.trans (h : KeepsBelow s t) (h' : KeepsBelow t u) : KeepsBelow s u :=
  ⟨fun w hw => (h'.frame w hw).trans (h.frame w hw), fun f hf => h.free f (h'.free f hf)⟩

theorem Backed.hold (h : Backed s stop held) (howned : ∀ f ∈ l, s.Owned f)
    (hother : ∀ f ∈ l, ∀ v ∈ Set.Ico heapVirtualBase stop, s.frame v ≠ some f) :
    Backed s stop (l ++ held) where
  active := h.active
  wellFormed := h.wellFormed
  freshFrames := h.freshFrames
  fits := h.fits
  held_owned f hf := (List.mem_append.1 hf).elim (howned f) (h.held_owned f)
  base_le := h.base_le
  stop_lt := h.stop_lt
  aligned := h.aligned
  frames v hv := by
    obtain ⟨f, hf, hfowned, hnot⟩ := h.frames v hv
    refine ⟨f, hf, hfowned, fun hmem => ?_⟩
    exact (List.mem_append.1 hmem).elim (fun hl => hother f hl v hv hf) hnot
  own := h.own

theorem Machine.mapPages_fits {va pa : ℕ → ℕ} (h : s.pmm.Fits) (n : ℕ) (pageMap : ℕ)
    (mf : BitVec 64) : (mapPages pageMap mf va pa n s).pmm.Fits := by
  induction n with
  | zero => exact h
  | succ n ih => exact (map_draws ih _ _ _ _).fits

namespace Heap

variable {h h' : Heap} {segs : List Segment} {n p : ℕ}

theorem mapPage_keepsBelow (hb : Backed h.machine stop held)
    (hsup : h.machine.PageSupplied stop) : KeepsBelow h.machine (h.mapPage stop).machine := by
  obtain ⟨f, hm⟩ := Machine.exists_mapsPage hb.active hb.wellFormed hb.freshFrames hb.fits hsup
  refine ⟨fun w hw => ?_, fun g hg => hm.grown.free g hg⟩
  have hle := le_pageNumber ⟨hb.base_le, hb.stop_lt⟩
  have hframe : Machine.frame (h.machine.requestPage.1.map h.machine.activePageMap stop
      h.machine.requestPage.2 Machine.presentWriteGlobal) w = h.machine.frame w := by
    rw [Machine.frame, hm.active, hm.translate, if_neg (Nat.ne_of_lt (hw.trans_le hle))]
    rfl
  exact hframe

/-- **The loop of `expand_heap`**: by induction on the pages. -/
theorem mapPages_keepsBelow (n : ℕ) (hb : Backed h.machine h.sHeapEnd held)
    (hsup : PagesSupplied n h) (hfit : h.sHeapEnd + n * pageSize < 2 ^ 64) :
    KeepsBelow h.machine (mapPages n h).machine := by
  induction n generalizing h with
  | zero => exact .refl _
  | succ n ih =>
    obtain ⟨hpage, hrest⟩ := hsup
    rw [Nat.succ_mul] at hfit
    have hlt : h.sHeapEnd + pageSize < 2 ^ 64 := by omega
    have hend : add64 h.sHeapEnd pageSize = h.sHeapEnd + pageSize := add64_of_lt hlt
    rw [hend] at hrest
    have hmapped : (h.mapPage h.sHeapEnd).sHeapEnd = h.sHeapEnd := rfl
    rw [mapPages, hmapped, hend]
    refine (mapPage_keepsBelow hb hpage).trans (ih (mapPage_acquires hb hpage hlt).backed hrest ?_)
    dsimp only
    omega

theorem expandHeap_keepsBelow (hb : Backed h.machine h.sHeapEnd held)
    (hsup : PagesSupplied (n / pageSize + 1) h) (hfit : h.expandedEnd n < 2 ^ 64) :
    KeepsBelow h.machine (h.expandHeap n).machine := by
  rw [(expandHeap_sameArena h n).machine]
  exact mapPages_keepsBelow _ hb hsup hfit

/-- **`malloc`**: by induction on the depth of its calls. -/
theorem Chain.malloc_keepsBelow {fuel : ℕ} (hc : h.Chain segs)
    (hb : Backed h.machine h.sHeapEnd held) (hbelow : StaysBelow fuel h n)
    (hsup : ∀ e ∈ expansions fuel h n, e.1.PagesSupplied (e.2 / pageSize + 1))
    (hm : h.malloc false fuel n = some (h', p)) : KeepsBelow h.machine h'.machine := by
  induction fuel generalizing h segs n with
  | zero => cases hm
  | succ fuel ih =>
    by_cases hn : n = 0
    · subst hn
      obtain ⟨rfl, -⟩ := malloc_zero hm
      exact .refl _
    · obtain ⟨t, hfind, heq, -⟩ | ⟨hsearch, hm⟩ := hc.malloc_cases hn hm
      · obtain ⟨hfits, pre, post, rfl⟩ := fits_of_find hfind
        rw [heq, (hc.take hfits).2.machine]
        exact .refl _
      · rw [expansions, if_neg hn, hsearch] at hsup
        dsimp only at hsup
        rw [if_pos rfl, List.forall_mem_cons] at hsup
        obtain ⟨hfit, hbelow⟩ := hbelow hn _ hsearch rfl
        have hgrown := (expandHeap_acquires hb hsup.1 hfit).backed
        exact (expandHeap_keepsBelow hb hsup.1 hfit).trans
          (ih (hc.expandHeap hfit) hgrown hbelow hsup.2 hm)

end Heap

/-- **The steps of the heap**, with pages available. -/
theorem RoomStep.keepsBelow {c c' : HeapClient} {call : HeapCall} {segs : List Segment}
    (hs : c.Sound segs) (hbase : heapVirtualBase ≤ c.heap.sHeapStart)
    (hb : Backed c.heap.machine c.heap.sHeapEnd held) (hstep : RoomStep c call c')
    (hsup : call.Supplied c.heap) : KeepsBelow c.heap.machine c'.heap.machine := by
  cases hstep with
  | @malloc n p fuel h hn hroom hm =>
    have hbelow := ((hs.chain.neverWraps_iff hbase hn).mpr hroom).staysBelow fuel
    exact hs.chain.malloc_keepsBelow hb hbelow (hsup fuel) hm
  | @free p hp =>
    dsimp only
    rw [(Heap.free_sameArena c.heap p).machine]
    exact .refl _
  | @expandHeap n hfit =>
    have hkept := Heap.expandHeap_keepsBelow (n := n) hb hsup hfit
    exact hkept
  | write => exact .refl _

/-- **One step of the kernel** maps at most one page below the heap, which it names. -/
theorem SuppliedStep.frame_eq {k k' : Kernel} {call : KernelCall} {segs : List Segment}
    (hs : k.Sound segs) (hstep : SuppliedStep k call k') {w : ℕ}
    (hw : pageNumber w < pageNumber heapVirtualBase)
    (hother : ∀ c, call = .map c → pageNumber w ≠ pageNumber c.virtualAddress) :
    k'.machine.frame w = k.machine.frame w := by
  cases hstep with
  | heap hroom hsup => exact (hroom.keepsBelow hs.client hs.start.ge hs.backed hsup).frame w hw
  | pages hfreed => rfl
  | @map c hbelow hp hmf hsup =>
    obtain ⟨-, htr, -⟩ := Machine.map_spec hs.backed.active hs.backed.wellFormed
      hs.backed.freshFrames hsup hmf hp
    have hframe : Machine.frame (k.machine.map k.machine.activePageMap c.virtualAddress
        c.physicalAddress c.mappingFlags) w = k.machine.frame w := by
      rw [Machine.frame, Machine.map_activePageMap, htr, if_neg (hother c rfl)]
      rfl
    exact hframe

end Eterna
