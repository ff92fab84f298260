import Eterna.Memory.HeapCoalesce

/-!
# What `free` leaves

In every state that is reached no two neighbours are free, so the segments in use determine the
chain.  Whatever leads to the same segments in use therefore leads to the same chain.

* `Packed.freed` : the segments in use after `free`;
* `free_undoes_malloc` : `free(malloc(n))` undoes all of `malloc` but its expansions;
* `free_commutes` : two blocks may be freed in either order.
-/

namespace Eterna

open SegmentChain Runs

namespace Heap

variable {h h' g : Heap} {segs segs' pre post : List Segment} {s t u : Segment} {n m p : ℕ}

/-- The two heaps have the same headers at the same addresses, and the same bounds. -/
structure SameChain (h h' : Heap) : Prop where
  segments : ∃ segs, h.Chain segs ∧ h'.Chain segs
  sHeapStart : h'.sHeapStart = h.sHeapStart
  sHeapEnd : h'.sHeapEnd = h.sHeapEnd
  sLastHeader : h'.sLastHeader = h.sLastHeader

theorem Chain.sameChain (hc : h.Chain segs) (hc' : h'.Chain segs')
    (hstart : h'.sHeapStart = h.sHeapStart) (hend : h'.sHeapEnd = h.sHeapEnd)
    (hsegs : Coalesced segs) (hsegs' : Coalesced segs')
    (hused : ∀ u, u.free = false → (u ∈ segs ↔ u ∈ segs')) : SameChain h h' := by
  have htiles := hc'.tiles
  rw [hstart, hend] at htiles
  obtain rfl := hsegs.unique (by decide) hc.tiles htiles hsegs' hused
  exact ⟨⟨segs, hc, hc'⟩, hstart, hend, hc'.last_eq.trans hc.last_eq.symm⟩

theorem Chain.mem_released_iff (hc : h.Chain (pre ++ s :: post)) (hu : u.free = false) :
    u ∈ released pre s post ↔ u ∈ pre ++ s :: post ∧ u.addr ≠ s.addr := by
  constructor
  · intro hmem
    have hmem := used_of_mem_released hmem hu
    exact ⟨by simp only [List.mem_append, List.mem_cons] at hmem ⊢; tauto, hc.addr_ne hmem⟩
  · rintro ⟨hmem, hne⟩
    have hus : u ≠ s := fun heq => hne (by rw [heq])
    exact hc.keeps_free.segments u
      (by simp only [List.mem_append, List.mem_cons] at hmem ⊢; tauto) hu

theorem mem_taken_iff (hs : s.free = true) (hu : u.free = false) :
    u ∈ pre ++ taken n s ++ post ∧ u.addr ≠ s.addr ↔ u ∈ pre ++ s :: post ∧ u.addr ≠ s.addr := by
  have hus : u ≠ s := by
    rintro rfl
    exact absurd hs (by rw [hu]; decide)
  refine and_congr_left fun hne => ?_
  have htaken : u ∉ taken n s := by
    rw [taken]
    split
    · exact fun hmem => hne (by rw [List.mem_singleton.mp hmem])
    · intro hmem
      obtain rfl | hmem := List.mem_cons.mp hmem
      · exact hne rfl
      · rw [List.mem_singleton.mp hmem, hs] at hu
        cases hu
  simp only [List.mem_append, List.mem_cons]
  tauto

/-- **Taking a segment and freeing it again** leaves the chain as it was. -/
theorem Chain.free_take (hg : g.Chain segs) (hsegs : Coalesced segs) (ht : t ∈ segs)
    (hfits : Fits m t) : SameChain g ((g.take m t).free (t.addr + headerSize)) := by
  obtain ⟨pre, post, rfl⟩ := List.append_of_mem ht
  obtain ⟨hc, hsame⟩ := hg.take hfits
  have hcoalesced := coalesced_taken m hsegs
  have hmem (u : Segment) (hu : u.free = false) :
      u ∈ pre ++ taken m t ++ post ∧ u.addr ≠ t.addr ↔ u ∈ pre ++ t :: post ∧ u.addr ≠ t.addr :=
    mem_taken_iff hfits.1 hu
  obtain ⟨rest, htaken⟩ := taken_eq m t
  rw [htaken, List.append_assoc, List.cons_append] at hc hcoalesced hmem
  have harena := hsame.trans (free_sameArena (g.take m t) (t.addr + headerSize))
  refine hg.sameChain hc.free harena.start harena.stop hsegs (coalesced_released hcoalesced)
    fun u hu => ?_
  rw [hc.mem_released_iff hu, hmem u hu, and_iff_left_of_imp]
  rintro hmem heq
  have hut := hg.tiles.eq_of_addr_eq (by decide) hmem ht heq
  rw [hut, hfits.1] at hu
  cases hu

end Heap

open Heap HeapClient

variable {h h' : Heap} {calls : List HeapCall} {c : HeapClient} {segs : List Segment} {n p q : ℕ}

/-- **`free(malloc(n))`** gives the chain that the calls of `expand_heap` in it give by themselves;
so it gives the original chain exactly if there is none. -/
theorem free_undoes_malloc (hrun : Run HeapStep ⟨h.initHeap, []⟩ calls c) (hpos : 0 < n)
    (hlt : n < 2 ^ 64) (hnever : c.heap.NeverWraps n) :
    (∃ fuel r, c.heap.malloc false fuel n = some r) ∧
    ∀ fuel h' p, c.heap.malloc false fuel n = some (h', p) →
      SameChain (c.heap.expandedBy (expansions fuel c.heap n)) (h'.free p) ∧
      (SameChain c.heap (h'.free p) ↔ expansions fuel c.heap n = []) := by
  obtain ⟨segs, hpacked⟩ := heapRun_packed hrun
  have hc := hpacked.sound.chain
  have hrounded := hnever.rounded
  refine ⟨((hc.neverWraps_iff (heapRun_start hrun).ge hlt).mp hnever).malloc_returns,
    fun fuel h' p hm => ?_⟩
  obtain ⟨gs, hgrows, htakes⟩ :=
    hc.malloc_expansions (Nat.ne_of_gt hpos) (hnever.staysBelow fuel) hm
  have hg := hgrows.chain hc
  obtain ⟨hzero, -⟩ | ⟨t, hfind, rfl, rfl⟩ := htakes
  · omega
  have ht := List.mem_of_find?_eq_some hfind
  have hstop := hg.stop_lt ht
  have hptr : add64 t.addr headerSize = t.addr + headerSize := add64_of_lt (by omega)
  have hsame := hg.free_take (hgrows.packed hpacked.coalesced).1 ht (fits_of_find hfind).1
  rw [hptr]
  refine ⟨hsame, fun horiginal => ?_, fun hnone => ?_⟩
  · have hend := (hgrows.bounds hc).2
    rw [← hsame.sHeapEnd, horiginal.sHeapEnd] at hend
    unfold pageSize at hend
    exact List.length_eq_zero_iff.mp (by omega)
  · rw [hnone, expandedBy_nil] at hsame ⊢
    exact hsame

theorem free_undoes_malloc_first :
    (∃ fuel r, HeapClient.first.heap.malloc false fuel 24 = some r) ∧
    ∀ fuel h' p, HeapClient.first.heap.malloc false fuel 24 = some (h', p) →
      SameChain (HeapClient.first.heap.expandedBy (expansions fuel HeapClient.first.heap 24))
        (h'.free p) ∧
      (SameChain HeapClient.first.heap (h'.free p) ↔
        expansions fuel HeapClient.first.heap 24 = []) :=
  free_undoes_malloc (h := Heap.unset) .nil (by decide) (by decide)
    ((Heap.unset.initHeap_chain.neverWraps_iff (Nat.le_refl _) (by decide)).mpr
      (Heap.room_first (by decide)))

/-! ### Two blocks -/

theorem HeapClient.Packed.chain {live : List (ℕ × ℕ)} (hpacked : Packed ⟨h, live⟩ segs) :
    h.Chain segs :=
  hpacked.sound.chain

theorem HeapClient.Packed.freed {live : List (ℕ × ℕ)} (hpacked : Packed ⟨h, live⟩ segs)
    (hp : p ∈ live.map Prod.fst) :
    ∃ segs', Packed ⟨h.free p, live.filter fun b => b.1 ≠ p⟩ segs' ∧ (h.free p).Chain segs' ∧
      ∀ u, u.free = false → (u ∈ segs' ↔ u ∈ segs ∧ u.addr + headerSize ≠ p) := by
  obtain ⟨segs', hpacked'⟩ := hpacked.free hp
  have hc' := hpacked'.chain
  refine ⟨segs', hpacked', hc', fun u hu => ?_⟩
  obtain ⟨b, hb, rfl⟩ := List.mem_map.mp hp
  obtain ⟨s, hmem, -, hptr, -⟩ := hpacked.sound.live b hb
  obtain ⟨pre, post, rfl⟩ := List.append_of_mem hmem
  have hc := hpacked.chain
  have hfree := hc.free
  rw [← hptr] at hfree
  obtain rfl := hfree.unique hc'
  rw [hc.mem_released_iff hu, hptr, Ne, Ne, Nat.add_right_cancel_iff]

/-- **Two blocks may be freed in either order.** -/
theorem free_commutes (hrun : Run HeapStep ⟨h.initHeap, []⟩ calls c)
    (hp : p ∈ c.live.map Prod.fst) (hq : q ∈ c.live.map Prod.fst) (hpq : p ≠ q) :
    SameChain ((c.heap.free p).free q) ((c.heap.free q).free p) := by
  obtain ⟨segs, hpacked⟩ := heapRun_packed hrun
  obtain ⟨g, live⟩ := c
  dsimp only at hp hq ⊢
  have hlive : ∀ {a b}, a ∈ live.map Prod.fst → a ≠ b →
      a ∈ (live.filter fun d => d.1 ≠ b).map Prod.fst := by
    intro a b ha hab
    obtain ⟨d, hd, rfl⟩ := List.mem_map.mp ha
    exact List.mem_map_of_mem (List.mem_filter.mpr ⟨hd, decide_eq_true hab⟩)
  -- in either order, the segments in use are those that were, but the two
  obtain ⟨segs₁, hpacked₁, -, hused₁⟩ := hpacked.freed hp
  obtain ⟨segs₂, hpacked₂, hc₂, hused₂⟩ := hpacked₁.freed (hlive hq hpq.symm)
  obtain ⟨segs₃, hpacked₃, -, hused₃⟩ := hpacked.freed hq
  obtain ⟨segs₄, hpacked₄, hc₄, hused₄⟩ := hpacked₃.freed (hlive hp hpq)
  have harena₁ := (free_sameArena g p).trans (free_sameArena _ q)
  have harena₂ := (free_sameArena g q).trans (free_sameArena _ p)
  refine hc₂.sameChain hc₄ (harena₂.start.trans harena₁.start.symm)
    (harena₂.stop.trans harena₁.stop.symm) hpacked₂.coalesced hpacked₄.coalesced fun u hu => ?_
  rw [hused₂ u hu, hused₁ u hu, hused₄ u hu, hused₃ u hu, and_right_comm]

theorem free_commutes_two_blocks : ∃ c : HeapClient,
    Run HeapStep .first
      [.malloc 24 (heapVirtualBase + headerSize), .malloc 8 (heapVirtualBase + 74)] c ∧
    SameChain ((c.heap.free (heapVirtualBase + headerSize)).free (heapVirtualBase + 74))
      ((c.heap.free (heapVirtualBase + 74)).free (heapVirtualBase + headerSize)) := by
  obtain ⟨c, hstep, hlive⟩ := HeapStep.second_malloc
  have hrun := (Run.single HeapStep.first_malloc).snoc hstep
  have hblocks : c.live.map Prod.fst = [heapVirtualBase + 74, heapVirtualBase + headerSize] := by
    rw [hlive]
    rfl
  exact ⟨c, hrun, free_commutes hrun (by simp [hblocks]) (by simp [hblocks]) (by decide)⟩

end Eterna
