import Eterna.Memory.HeapRuns

/-!
# Below the heap

The heap writes its headers, and its clients write into their blocks.  Both lie at or above
`sHeapStart`, so memory below stays what it is.

* `HeapStep.below` : one call;
* `heap_leaves_below` : a run.
-/

namespace Eterna

open SegmentChain Runs

namespace Heap

variable {h h' h'' : Heap} {segs pre post : List Segment} {s t : Segment} {A : List ℕ} {n : ℕ}

/-- The heap starts at the same address, and below it nothing has been written. -/
structure SameBelow (h h' : Heap) : Prop where
  start : h'.sHeapStart = h.sHeapStart
  mem : ∀ x < h.sHeapStart, h'.mem x = h.mem x

namespace SameBelow

theorem refl (h : Heap) : SameBelow h h := ⟨rfl, fun _ _ => rfl⟩

theorem trans (h₁ : SameBelow h h') (h₂ : SameBelow h' h'') : SameBelow h h'' :=
  ⟨h₂.start.trans h₁.start, fun x hx => (h₂.mem x (h₁.start ▸ hx)).trans (h₁.mem x hx)⟩

theorem of_writes (hw : Writes A h h') (hstart : h'.sHeapStart = h.sHeapStart)
    (hA : ∀ a ∈ A, h.sHeapStart ≤ a) : SameBelow h h' :=
  ⟨hstart, fun x hx => hw x fun a ha => .inl (Nat.lt_of_lt_of_le hx (hA a ha))⟩

end SameBelow

theorem Chain.start_le (hc : h.Chain segs) (hs : s ∈ segs) : h.sHeapStart ≤ s.addr :=
  (hc.tiles.mem_le hs).1

theorem Chain.setFree_below (hc : h.Chain segs) (hs : s ∈ segs) (b : Bool) :
    SameBelow h (h.setFree s.addr b) := by
  refine .of_writes (setFree_writes h s.addr b) rfl fun a ha => ?_
  rw [List.mem_singleton.mp ha]
  exact hc.start_le hs

theorem Chain.combineForward_below (hc : h.Chain (pre ++ s :: post)) :
    SameBelow h (h.combineForward s.addr) := by
  obtain ⟨A, hw, hA⟩ := hc.combineForward_writes
  refine .of_writes hw (combineForward_sameArena h s.addr).start fun a ha => ?_
  obtain ⟨t, ht, rfl⟩ := hA a ha
  exact hc.start_le ht

theorem Chain.combineBackward_below (hc : h.Chain (pre ++ t :: post)) :
    SameBelow h (h.combineBackward t.addr) := by
  obtain rfl | ⟨pre, s, rfl⟩ := List.eq_nil_or_concat pre
  · rw [combineBackward_first hc]
    exact .refl h
  · have hc' : h.Chain (pre ++ s :: t :: post) := by simpa using hc
    rw [combineBackward_eq hc']
    split
    next => exact hc'.combineForward_below
    next => exact .refl h

theorem Chain.expandHeap_below (hc : h.Chain segs) (hfit : expandedEnd h n < 2 ^ 64) :
    SameBelow h (h.expandHeap n) := by
  obtain ⟨pre, s, rfl⟩ := hc.exists_concat
  obtain ⟨hw, hstart, -⟩ := extend_effect hc hfit
  have hs := hc.start_le (s := s) (by simp)
  have hextend : SameBelow h (h.extend n) := by
    refine .of_writes hw hstart fun a ha => ?_
    have hend := (hc.tiles.mem_le (s := s) (by simp)).2
    simp only [List.mem_cons, List.not_mem_nil, or_false] at ha
    omega
  have hchain : (h.extend n).Chain (pre ++ [s] ++ [extension h n]) := by
    simpa using hc.extend hfit
  rw [expandHeap_eq hfit]
  exact hextend.trans hchain.combineBackward_below

theorem Chain.free_below (hc : h.Chain (pre ++ s :: post)) :
    SameBelow h (h.free (s.addr + headerSize)) := by
  have hforward := (hc.setFree true).combineForward
  obtain ⟨l, rest, heq⟩ := absorb_eq { s with free := true } post
  rw [heq] at hforward
  rw [free_eq hc]
  exact ((hc.setFree_below (by simp) true).trans (hc.setFree true).combineForward_below).trans
    hforward.combineBackward_below

theorem Chain.take_below (hc : h.Chain (pre ++ s :: post)) (hfits : Fits n s) :
    SameBelow h (h.take n s) := by
  rw [Heap.take]
  split
  next => exact hc.setFree_below (by simp) false
  next hne =>
    obtain ⟨hn, hlen⟩ := hfits.2.resolve_left hne
    obtain ⟨hw, harena, -⟩ := split_effect hc hn hlen
    have hsplit : SameBelow h (h.split s.addr n).1 := by
      refine .of_writes hw harena.start fun a ha => ?_
      have hs := hc.start_le (s := s) (by simp)
      simp only [List.mem_cons, List.mem_map] at ha
      obtain rfl | rfl | ⟨u, hu, rfl⟩ := ha
      · exact hs
      · omega
      · exact hc.start_le (by simp [List.mem_of_mem_take hu])
    exact hsplit.trans ((hc.split hn hlen).setFree_below (s := ⟨s.addr, n, s.free⟩) (by simp) false)

/-- By induction on the depth of the calls of `malloc`, as for `Chain.malloc`. -/
theorem Chain.malloc_below {fuel p : ℕ} (hc : h.Chain segs) (hn : n < 2 ^ 64)
    (hbelow : StaysBelow fuel h n) (hm : h.malloc false fuel n = some (h', p)) :
    SameBelow h h' := by
  induction fuel generalizing h segs n with
  | zero => cases hm
  | succ fuel ih =>
    by_cases hzero : n = 0
    · subst hzero
      obtain ⟨rfl, -⟩ := malloc_zero hm
      exact .refl _
    · obtain ⟨t, hfind, rfl, -⟩ | ⟨hsearch, hm⟩ := hc.malloc_cases hzero hm
      · obtain ⟨hfits, pre, post, rfl⟩ := fits_of_find hfind
        exact hc.take_below hfits
      · obtain ⟨hfit, hbelow⟩ := hbelow hzero _ hsearch rfl
        exact (hc.expandHeap_below hfit).trans
          (ih (hc.expandHeap hfit) (roundRequest_lt hn) hbelow hm)

end Heap

open Heap HeapClient

variable {c c' : HeapClient} {l : HeapCall} {segs : List Segment}

/-- **One call** writes nothing below the heap. -/
theorem HeapStep.below (hs : c.Sound segs) (hstep : HeapStep c l c') :
    SameBelow c.heap c'.heap := by
  cases hstep with
  | malloc hn hbelow hm =>
    dsimp only
    exact hs.chain.malloc_below hn hbelow hm
  | free hp =>
    obtain ⟨b, hb, rfl⟩ := List.mem_map.mp hp
    obtain ⟨s, hmem, -, hptr, -⟩ := hs.live b hb
    obtain ⟨pre, post, rfl⟩ := List.append_of_mem hmem
    dsimp only
    rw [hptr]
    exact hs.chain.free_below
  | expandHeap hfit =>
    dsimp only
    exact hs.chain.expandHeap_below hfit
  | @write b i v hb hi =>
    obtain ⟨s, hmem, -, hptr, -⟩ := hs.live b hb
    have hstart := hs.chain.start_le hmem
    exact ⟨rfl, fun x hx => Function.update_of_ne (by omega) _ _⟩

/-- **A run** leaves everything below the heap as `init_heap` found it. -/
theorem heap_leaves_below {h : Heap} {calls : List HeapCall}
    (hrun : Run HeapStep ⟨h.initHeap, []⟩ calls c) : SameBelow h.initHeap c.heap := by
  refine (hrun.invariant (I := fun c => (∃ segs, c.Sound segs) ∧ SameBelow h.initHeap c.heap)
    ⟨⟨_, sound_init h⟩, .refl _⟩ ?_).2
  rintro c l c' ⟨⟨segs, hs⟩, hbelow⟩ hstep
  obtain ⟨segs', hs', -⟩ := hstep.sound hs
  exact ⟨⟨segs', hs'⟩, hbelow.trans (hstep.below hs)⟩

end Eterna
