import Eterna.Memory.HeapGrowth

/-!
# No free neighbours

`free` combines the segment it is called for with its free neighbours on both sides, the remainder
that `split` leaves has a segment in use behind it, and `expand_heap` combines what it adds with the
segment in front.  So no two neighbours are ever both free, and a client that has freed everything
leaves one segment.

* `HeapStep.packed` : every step keeps the segments coalesced, and a live block in every one in use;
* `heap_coalesced` : in every state that is reached, no two neighbours are free, and freeing all
  live blocks in any order leaves one segment that fills the heap.
-/

namespace Eterna

open SegmentChain Runs

namespace Heap

variable {h h' g : Heap} {segs gs pre post rest : List Segment} {s t : Segment} {m n j p : ℕ}

/-! ### Edits of a coalesced chain -/

theorem coalesced_absorb (s : Segment) (hpost : Coalesced post) : Coalesced (absorb s post) := by
  cases post with
  | nil => exact .singleton s
  | cons t post =>
    rw [absorb]
    split
    next ht => exact hpost.cons_behind_free ht _
    next ht =>
      refine Coalesced.cons_iff.mpr ⟨fun u hu => .inr ?_, hpost⟩
      obtain rfl := Option.some.inj hu
      exact Bool.eq_false_of_not_eq_true ht

theorem coalesced_absorbBack (hpre : Coalesced pre) (hrest : Coalesced rest) :
    Coalesced (absorbBack pre rest) := by
  obtain rfl | ⟨pre, s, rfl⟩ := List.eq_nil_or_concat pre
  · exact hrest
  · rw [List.concat_eq_append] at hpre ⊢
    rw [absorbBack_concat]
    split
    next =>
      obtain ⟨l, rest', heq⟩ := absorb_eq s rest
      have habsorb := coalesced_absorb s hrest
      rw [heq] at habsorb ⊢
      exact hpre.append_cons (s := s) rfl habsorb
    next hs => exact hpre.append_cons rfl (hrest.cons_used (Bool.eq_false_of_not_eq_true hs))

theorem coalesced_taken (n : ℕ) (hsegs : Coalesced (pre ++ s :: post)) :
    Coalesced (pre ++ taken n s ++ post) := by
  obtain ⟨hpre, hpost, -⟩ := Coalesced.append_iff.mp hsegs
  rw [List.append_assoc, taken]
  split
  · exact hpre.append_used rfl ((Coalesced.cons_iff.mp hpost).2.cons_used rfl)
  · rw [List.cons_append, List.singleton_append]
    refine hpre.append_used rfl (.cons_used rfl ?_)
    exact hpost.cons_congr rfl

theorem coalesced_released (hsegs : Coalesced (pre ++ s :: post)) :
    Coalesced (released pre s post) := by
  obtain ⟨hpre, hpost, -⟩ := Coalesced.append_iff.mp hsegs
  exact coalesced_absorbBack hpre (coalesced_absorb _ (Coalesced.cons_iff.mp hpost).2)

/-! ### Where the segments in use come from -/

theorem used_of_mem_absorb (hs : s.free = true) (ht : t ∈ absorb s post) (hused : t.free = false) :
    t ∈ post := by
  have hne : ∀ r : Segment, r.free = true → t ≠ r := by
    rintro r hr rfl
    exact absurd hused (by rw [hr]; decide)
  cases post with
  | nil => exact absurd (List.mem_singleton.mp ht) (hne s hs)
  | cons u post =>
    rw [absorb] at ht
    split at ht
    · refine .tail _ (List.mem_of_ne_of_mem ?_ ht)
      exact hne _ hs
    · exact List.mem_of_ne_of_mem (hne s hs) ht

theorem used_of_mem_absorbBack (ht : t ∈ absorbBack pre rest) (hused : t.free = false) :
    t ∈ pre ++ rest := by
  obtain rfl | ⟨pre, s, rfl⟩ := List.eq_nil_or_concat pre
  · exact ht
  · rw [List.concat_eq_append] at ht ⊢
    rw [absorbBack_concat] at ht
    obtain ht | ht := List.mem_append.mp ht
    · simp [ht]
    · split at ht
      next hs => exact List.mem_append_right _ (used_of_mem_absorb hs ht hused)
      next => simpa using .inr (List.mem_cons.mp ht)

theorem used_of_mem_released (ht : t ∈ released pre s post) (hused : t.free = false) :
    t ∈ pre ++ post := by
  obtain ht | ht := List.mem_append.mp (used_of_mem_absorbBack ht hused)
  · exact List.mem_append_left _ ht
  · exact List.mem_append_right _ (used_of_mem_absorb rfl ht hused)

theorem used_of_mem_taken (hs : s.free = true) (ht : t ∈ pre ++ taken n s ++ post)
    (hused : t.free = false) : t ∈ pre ++ s :: post ∨ t.addr = s.addr ∧ t.length = n := by
  have htaken : t ∈ taken n s → t.addr = s.addr ∧ t.length = n := by
    intro ht
    rw [taken] at ht
    split at ht
    next hlen =>
      rw [List.mem_singleton.mp ht]
      exact ⟨rfl, hlen⟩
    · obtain rfl | ht := List.mem_cons.mp ht
      · exact ⟨rfl, rfl⟩
      · rw [List.mem_singleton.mp ht] at hused
        exact absurd hused (by rw [hs]; decide)
  obtain ht | ht := List.mem_append.mp ht
  · obtain ht | ht := List.mem_append.mp ht
    · exact .inl (by simp [ht])
    · exact .inr (htaken ht)
  · exact .inl (by simp [ht])

theorem Chain.addr_ne (hc : h.Chain (pre ++ s :: post)) (ht : t ∈ pre ++ post) :
    t.addr ≠ s.addr := by
  have hlt := List.pairwise_append.mp (hc.tiles.pairwise_lt (by decide))
  obtain ht | ht := List.mem_append.mp ht
  · exact (hlt.2.2 t ht s (.head _)).ne
  · exact (List.rel_of_pairwise_cons hlt.2.1 ht).ne'

theorem Grows.used (hg : Grows m h segs j g gs) (hused : t.free = false) (ht : t ∈ gs) :
    t ∈ segs := by
  revert ht
  refine hg.invariant (I := fun _ gs => t ∈ gs → t ∈ segs) id fun g gs hold _ ht => ?_
  obtain ht | ht := List.mem_append.mp (used_of_mem_absorbBack ht hused)
  · exact hold ht
  · rw [List.mem_singleton.mp ht] at hused
    cases hused

theorem Grows.packed (hg : Grows m h segs j g gs) (hsegs : Coalesced segs) :
    Coalesced gs ∧ ∀ t ∈ gs, t.free = false → t ∈ segs := by
  refine ⟨?_, fun t ht hused => hg.used hused ht⟩
  exact hg.invariant (I := fun _ gs => Coalesced gs) hsegs fun _ _ hgs _ =>
    coalesced_absorbBack hgs (.singleton _)

/-- No two neighbouring segments of the chain are both free. -/
def NoFreePair (h : Heap) : Prop :=
  ∃ hs, h.Intact hs ∧ ∀ a ∈ hs, h.next a ≠ 0 → h.isFree a = false ∨ h.isFree (h.next a) = false

/-- The chain is one free segment that fills the heap. -/
structure OneFreeSegment (h : Heap) : Prop where
  intact : h.Intact [h.sHeapStart]
  free : h.isFree h.sHeapStart = true
  length : h.length h.sHeapStart = h.sHeapEnd - h.sHeapStart - headerSize

theorem Chain.noFreePair (hc : h.Chain segs) (hsegs : Coalesced segs) : h.NoFreePair := by
  refine ⟨_, hc.intact, List.forall_mem_map.mpr fun s hs hne => ?_⟩
  obtain ⟨pre, post, rfl⟩ := List.append_of_mem hs
  rw [hc.next_eq] at hne ⊢
  cases post with
  | nil => exact absurd rfl hne
  | cons t post =>
    rw [hc.isFree_eq, headAddr_cons, hc.shift.isFree_eq]
    exact (Coalesced.cons_iff.mp (Coalesced.append_iff.mp hsegs).2.1).1 t rfl

theorem Chain.oneFreeSegment (hc : h.Chain segs) (hsegs : Coalesced segs)
    (hfree : ∀ s ∈ segs, s.free = true) : h.OneFreeSegment := by
  obtain ⟨s, rfl⟩ := hsegs.eq_singleton hc.ne_nil hfree
  have hc' : h.Chain ([] ++ s :: []) := hc
  obtain ⟨hstart, hend⟩ := hc.tiles
  refine ⟨?_, ?_, ?_⟩
  · rw [← hstart]
    exact hc.intact
  · rw [← hstart, hc'.isFree_eq]
    exact hfree s (.head _)
  · rw [← hstart, hc'.length_eq, ← hend, Segment.stop]
    omega

end Heap

/-! ### The runs -/

namespace HeapClient

/-- The invariant of the runs: no two neighbours are free, and what is in use is live. -/
structure Packed (c : HeapClient) (segs : List Segment) : Prop where
  sound : c.Sound segs
  coalesced : Coalesced segs
  used : ∀ s ∈ segs, s.free = false → s.addr + headerSize ∈ c.live.map Prod.fst

variable {c c' : HeapClient} {segs segs' : List Segment}

theorem packed_init (h : Heap) : Packed ⟨h.initHeap, []⟩ [Heap.firstSegment] :=
  ⟨sound_init h, .singleton _, by simp [Heap.firstSegment]⟩

/-- After a call, the segments are the ones that its headers are linked by. -/
theorem packed_of_chain {h : Heap} {live : List (ℕ × ℕ)} (hs : Sound ⟨h, live⟩ segs)
    (hc : h.Chain segs') (hcoalesced : Coalesced segs')
    (hused : ∀ s ∈ segs', s.free = false → s.addr + headerSize ∈ live.map Prod.fst) :
    Packed ⟨h, live⟩ segs' := by
  obtain rfl := hs.chain.unique hc
  exact ⟨hs, hcoalesced, hused⟩

theorem Packed.malloc {h : Heap} {n p fuel : ℕ} (hpacked : c.Packed segs) (hn : n < 2 ^ 64)
    (hbelow : Heap.StaysBelow fuel c.heap n) (hm : c.heap.malloc false fuel n = some (h, p)) :
    ∃ segs', Packed ⟨h, if p = 0 then c.live else (p, n) :: c.live⟩ segs' := by
  have hc := hpacked.sound.chain
  obtain ⟨_, hs', -⟩ := (HeapStep.malloc hn hbelow hm).sound hpacked.sound
  by_cases hzero : n = 0
  · subst hzero
    obtain ⟨rfl, rfl⟩ := Heap.malloc_zero hm
    exact ⟨segs, hpacked⟩
  · obtain ⟨j, g, gs, hgrows, htakes⟩ := hc.malloc_grows hzero hbelow hm
    obtain ⟨hgs, hold⟩ := hgrows.packed hpacked.coalesced
    have hlive : ∀ t ∈ gs, t.free = false → t.addr + headerSize ∈ c.live.map Prod.fst :=
      fun t ht hused => hpacked.used t (hold t ht hused) hused
    have hgc := hgrows.chain hc
    obtain ⟨-, rfl, rfl⟩ | ⟨t, hfind, rfl, rfl⟩ := htakes
    · exact ⟨gs, packed_of_chain hs' hgc hgs hlive⟩
    · obtain ⟨hfits, pre, post, rfl⟩ := Heap.fits_of_find hfind
      have hstop := hgc.stop_lt (s := t) (by simp)
      have hptr : add64 t.addr headerSize = t.addr + headerSize := add64_of_lt (by omega)
      refine ⟨_, packed_of_chain hs' (hgc.take hfits).1 (Heap.coalesced_taken _ hgs)
        fun u hu hused => ?_⟩
      rw [hptr, if_neg (Nat.ne_of_gt (Nat.add_pos_right _ (by decide))), List.map_cons]
      obtain hu | ⟨hu, -⟩ := Heap.used_of_mem_taken hfits.1 hu hused
      · exact .tail _ (hlive u hu hused)
      · rw [hu]
        exact .head _

theorem Packed.free {p : ℕ} (hpacked : c.Packed segs) (hp : p ∈ c.live.map Prod.fst) :
    ∃ segs', Packed ⟨c.heap.free p, c.live.filter fun b => b.1 ≠ p⟩ segs' := by
  obtain ⟨_, hs', -⟩ := hpacked.sound.free hp
  obtain ⟨b, hb, rfl⟩ := List.mem_map.mp hp
  obtain ⟨s, hmem, -, hptr, -⟩ := hpacked.sound.live b hb
  obtain ⟨pre, post, rfl⟩ := List.append_of_mem hmem
  have hc := hpacked.sound.chain
  have hfree := hc.free
  rw [← hptr] at hfree
  refine ⟨_, packed_of_chain hs' hfree (Heap.coalesced_released hpacked.coalesced)
    fun t ht hused => ?_⟩
  have ht := Heap.used_of_mem_released ht hused
  have hne := hc.addr_ne ht
  obtain ⟨d, hd, hdptr⟩ := List.mem_map.mp
    (hpacked.used t (by simp only [List.mem_append, List.mem_cons] at ht ⊢; tauto) hused)
  rw [← hdptr]
  exact List.mem_map_of_mem (List.mem_filter.mpr ⟨hd, decide_eq_true (by omega)⟩)

theorem Packed.expandHeap {n : ℕ} (hpacked : c.Packed segs)
    (hfit : c.heap.expandedEnd n < 2 ^ 64) :
    ∃ segs', Packed ⟨c.heap.expandHeap n, c.live⟩ segs' := by
  obtain ⟨_, hs', -⟩ := (HeapStep.expandHeap hfit).sound hpacked.sound
  have hgrows : Heap.Grows n c.heap segs 1 _ _ := .expand .refl hfit
  obtain ⟨hcoalesced, hold⟩ := hgrows.packed hpacked.coalesced
  exact ⟨_, packed_of_chain hs' (hgrows.chain hpacked.sound.chain) hcoalesced
    fun t ht hused => hpacked.used t (hold t ht hused) hused⟩

end HeapClient

open HeapClient

/-- **One step** keeps the invariant. -/
theorem HeapStep.packed {c c' : HeapClient} {l : HeapCall} {segs : List Segment}
    (hpacked : c.Packed segs) (hstep : HeapStep c l c') : ∃ segs', c'.Packed segs' := by
  cases hstep with
  | malloc hn hbelow hm => exact hpacked.malloc hn hbelow hm
  | free hp => exact hpacked.free hp
  | expandHeap hfit => exact hpacked.expandHeap hfit
  | @write b i v hb hi =>
    have hs := hpacked.sound
    obtain ⟨s, hmem, hused, hptr, hlen⟩ := hs.live b hb
    exact ⟨segs, ⟨hs.chain.write_payload hmem v (by omega) (by omega), hs.live, hs.nodup⟩,
      hpacked.coalesced, hpacked.used⟩

theorem heapRun_packed {h : Heap} {calls : List HeapCall} {c : HeapClient}
    (hrun : Run HeapStep ⟨h.initHeap, []⟩ calls c) : ∃ segs, c.Packed segs :=
  hrun.invariant (I := fun c => ∃ segs, c.Packed segs) ⟨_, packed_init h⟩
    fun _ _ _ ⟨_, hpacked⟩ hstep => hstep.packed hpacked

namespace HeapClient

variable {c : HeapClient} {segs : List Segment}

theorem Packed.forall_free (hpacked : c.Packed segs) (hlive : c.live = []) :
    ∀ s ∈ segs, s.free = true := by
  intro s hs
  by_contra hused
  have hmem := hpacked.used s hs (Bool.eq_false_of_not_eq_true hused)
  rw [hlive] at hmem
  cases hmem

theorem Packed.oneFreeSegment {h : Heap} (hpacked : Packed ⟨h, []⟩ segs) : h.OneFreeSegment := by
  have hc : h.Chain segs := hpacked.sound.chain
  exact hc.oneFreeSegment hpacked.coalesced (hpacked.forall_free rfl)

theorem Sound.run_free {ps : List ℕ} (hs : c.Sound segs) (hps : ps.Perm (c.live.map Prod.fst)) :
    Run HeapStep c (ps.map .free) ⟨ps.foldl Heap.free c.heap, []⟩ := by
  induction ps generalizing c segs with
  | nil =>
    have hlive : c.live = [] := List.map_eq_nil_iff.mp hps.nil_eq.symm
    rw [← hlive]
    exact .nil
  | cons p ps ih =>
    have hp : p ∈ c.live.map Prod.fst := hps.subset (.head _)
    obtain ⟨hnotin, -⟩ := List.nodup_cons.mp (hps.nodup_iff.mpr hs.nodup)
    obtain ⟨segs', hs', -⟩ := hs.free hp
    have hrest : ps.Perm ((c.live.filter fun b => b.1 ≠ p).map Prod.fst) := by
      have hfilter := hps.filter (· ≠ p)
      rw [List.filter_cons_of_neg (by simp), List.filter_eq_self.mpr, List.filter_map] at hfilter
      · exact hfilter
      · exact fun q hq => decide_eq_true fun heq => hnotin (heq ▸ hq)
    have hrun := ih hs' hrest
    dsimp only at hrun
    rw [List.map_cons, List.foldl_cons]
    exact (Run.single (.free hp)).append hrun

end HeapClient

theorem Heap.foldl_free_sameArena (h : Heap) (ps : List ℕ) :
    SameArena h (ps.foldl Heap.free h) := by
  induction ps generalizing h with
  | nil => exact .refl h
  | cons p ps ih =>
    rw [List.foldl_cons]
    exact (free_sameArena h p).trans (ih _)

/-- **No memory is lost to fragmentation of free neighbours.**  In every state that a run reaches,
no two neighbouring segments are both free.  From there, the live blocks may be freed in any order,
and what is left is one free segment that fills the heap, which ends where it did. -/
theorem heap_coalesced {h : Heap} {calls : List HeapCall} {c : HeapClient}
    (hrun : Run HeapStep ⟨h.initHeap, []⟩ calls c) :
    c.heap.NoFreePair ∧ ∀ ps : List ℕ, ps.Perm (c.live.map Prod.fst) →
      Run HeapStep c (ps.map .free) ⟨ps.foldl Heap.free c.heap, []⟩ ∧
      (ps.foldl Heap.free c.heap).OneFreeSegment ∧
      (ps.foldl Heap.free c.heap).sHeapEnd = c.heap.sHeapEnd := by
  obtain ⟨segs, hpacked⟩ := heapRun_packed hrun
  refine ⟨hpacked.sound.chain.noFreePair hpacked.coalesced, fun ps hps => ?_⟩
  have hfrees := hpacked.sound.run_free hps
  obtain ⟨segs', hpacked'⟩ := heapRun_packed (hrun.append hfrees)
  exact ⟨hfrees, hpacked'.oneFreeSegment, (Heap.foldl_free_sameArena _ ps).stop⟩

theorem heap_coalesced_second : HeapClient.second.heap.NoFreePair ∧
    ([heapVirtualBase + headerSize].foldl Heap.free HeapClient.second.heap).OneFreeSegment := by
  obtain ⟨hpair, hfree⟩ := heap_coalesced (Run.single HeapStep.first_malloc)
  exact ⟨hpair, (hfree _ (by simp [HeapClient.second])).2.1⟩

end Eterna
