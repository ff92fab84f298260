import Eterna.Memory.HeapGrowth

/-!
# Which segment `malloc` takes

`malloc` takes the first segment that fits, and expands the heap when none does.  A segment fits if
it is exactly as long as the request, or so much longer that the rest can hold a header and eight
bytes.

* `Chain.expansion_rec` : a rule for what `malloc` does, by the expansions it needs;
* `malloc_expands_at_most_twice` : it returns a block after two expansions at most;
* `first_fit_iff` : it takes the first free segment that is long enough, and expands the heap only
  if there is none, exactly if that segment fits.
-/

namespace Eterna

open ByteMemory SegmentChain Runs Fuel

namespace Heap

variable {h h' g : Heap} {segs gs : List Segment} {s t : Segment} {n m p fuel : ℕ}

/-! ### At most two expansions -/

theorem StaysBelow.mono {j k : ℕ} (hjk : j ≤ k) (hbelow : StaysBelow k h n) :
    StaysBelow j h n := by
  induction j generalizing k h n with
  | zero => trivial
  | succ j ih =>
    obtain ⟨k, rfl⟩ := Nat.exists_eq_succ_of_ne_zero (Nat.ne_of_gt (Nat.zero_lt_of_lt hjk))
    have hle := Nat.le_of_succ_le_succ hjk
    intro hn r hr hnull
    have hr' := improves_of_le (fun fuel => search_improves _ fuel h _) hle r hr
    obtain ⟨hfit, hrest⟩ := hbelow hn r hr' hnull
    exact ⟨hfit, ih hle hrest⟩

theorem Chain.staysBelow_expanded (hc : h.Chain segs) (hn : n ≠ 0) (hm : roundRequest n = m)
    (hfind : segs.find? (Fits m ·) = none) (hbelow : ∀ fuel, StaysBelow fuel h n) :
    h.expandedEnd m < 2 ^ 64 ∧ ∀ fuel, StaysBelow fuel (h.expandHeap m) m := by
  subst hm
  have hstep : ∀ fuel, h.expandedEnd (roundRequest n) < 2 ^ 64 ∧
      StaysBelow (max segs.length fuel) (h.expandHeap (roundRequest n)) (roundRequest n) :=
    fun fuel => hbelow (max segs.length fuel + 1) hn _
      (hc.malloc_of_none hn (le_max_left _ _) hfind).1 rfl
  exact ⟨(hstep 0).1, fun fuel => (hstep fuel).2.mono (le_max_right _ _)⟩

/-- **A rule for `malloc`.**  What holds when a segment fits, and is carried over from the expanded
heap when none does, holds for the number of expansions that are needed, which is two at most. -/
theorem Chain.expansion_rec {Q : ℕ → Heap → List Segment → ℕ → Prop} (hc : h.Chain segs)
    (hn : n ≠ 0) (hle : n ≤ 2 ^ 64 - 8) (hbelow : ∀ fuel, StaysBelow fuel h n)
    (hfits : ∀ {g gs k t}, g.Chain gs → k ≠ 0 → roundRequest k = roundRequest n →
      gs.find? (Fits (roundRequest n) ·) = some t → Q 0 g gs k)
    (hexpand : ∀ {g gs k j}, g.Chain gs → k ≠ 0 → roundRequest k = roundRequest n →
      gs.find? (Fits (roundRequest n) ·) = none →
      Q j (g.expandHeap (roundRequest n)) (absorbBack gs [g.extension (roundRequest n)])
        (roundRequest n) → Q (j + 1) g gs k) :
    Q (expansionsNeeded segs (roundRequest n)) h segs n := by
  obtain ⟨-, hpos, hmod, -⟩ := roundRequest_spec hn hle
  have hround := roundRequest_idem n
  rw [expansionsNeeded]
  cases hfind : segs.find? (Fits (roundRequest n) ·) with
  | some t => exact hfits hc hn rfl hfind
  | none =>
    have hm : roundRequest n ≠ 0 := by omega
    obtain ⟨hfit, hbelow⟩ := hc.staysBelow_expanded hn rfl hfind hbelow
    have hc₁ := hc.expandHeap hfit
    have hfind₁ := hc.find_expanded hmod hpos hfind
    rw [if_neg (by decide)]
    split
    next hroom =>
      obtain ⟨t, ht⟩ := Option.isSome_iff_exists.mp (hfind₁.mpr hroom)
      exact hexpand hc hn rfl hfind (hfits hc₁ hm hround ht)
    next hshort =>
      have hnone₁ := Option.not_isSome_iff_eq_none.mp fun hsome => hshort (hfind₁.mp hsome)
      obtain ⟨hfit₂, -⟩ := hc₁.staysBelow_expanded hm hround hnone₁ hbelow
      have hroom₂ : roundRequest n + headerSize + 8 ≤
          lastLength (absorbBack segs [h.extension (roundRequest n)]) (roundRequest n) := by
        rw [lastLength_expanded hc.ne_nil]
        exact hc.room_twice _
      obtain ⟨t, ht⟩ := Option.isSome_iff_exists.mp
        ((hc₁.find_expanded hmod hpos hnone₁).mpr hroom₂)
      exact hexpand hc hn rfl hfind (hexpand hc₁ hm hround hnone₁
        (hfits (hc₁.expandHeap hfit₂) hm hround ht))

theorem Chain.length_expansions_of_none (hc : h.Chain segs) (hm : roundRequest n = m)
    (hfind : segs.find? (Fits m ·) = none) {j : ℕ}
    (hrest : ∀ fuel, (expansions fuel (h.expandHeap m) m).length ≤ j) (fuel : ℕ) :
    (expansions fuel h n).length ≤ j + 1 := by
  subst hm
  cases fuel with
  | zero => exact Nat.zero_le _
  | succ fuel =>
    rw [expansions]
    split
    · exact Nat.zero_le _
    · cases hr : search (roundRequest n) fuel h h.sHeapStart with
      | none => exact Nat.zero_le _
      | some r =>
        have heq := hc.search_start_eq hr
        rw [hfind] at heq
        subst heq
        exact Nat.succ_le_succ (hrest fuel)

theorem Chain.payload_ne_zero (hc : h.Chain segs) (ht : t ∈ segs) :
    add64 t.addr headerSize = t.addr + headerSize ∧ add64 t.addr headerSize ≠ 0 := by
  have hstop := hc.stop_lt ht
  have heq : add64 t.addr headerSize = t.addr + headerSize := add64_of_lt (by omega)
  exact ⟨heq, heq ▸ Nat.ne_of_gt (Nat.add_pos_right _ (by decide))⟩

end Heap

open Heap

theorem Heap.Chain.malloc_returns {h : Heap} {segs : List Segment} {n : ℕ} (hc : h.Chain segs)
    (hn : n ≠ 0) (hle : n ≤ 2 ^ 64 - 8) (hbelow : ∀ fuel, StaysBelow fuel h n) :
    ∃ fuel h' p, h.malloc false fuel n = some (h', p) ∧ p ≠ 0 := by
  refine hc.expansion_rec (Q := fun _ g _ k => ∃ fuel h' p, g.malloc false fuel k = some (h', p) ∧
    p ≠ 0) hn hle hbelow ?_ ?_
  · intro g gs k t hg hk hround hfind
    refine ⟨_, _, _, (hg.malloc_of_find hk le_rfl (hround ▸ hfind)).1, ?_⟩
    exact (hg.payload_ne_zero (List.mem_of_find?_eq_some hfind)).2
  · rintro g gs k j hg hk hround hfind ⟨fuel, h', p, hm, hp⟩
    refine ⟨max gs.length fuel + 1, h', p, ?_, hp⟩
    rw [(hg.malloc_of_none hk (le_max_left _ _) (hround ▸ hfind)).2, hround]
    exact improves_of_le (fun fuel => malloc_improves false fuel _ _) (le_max_right _ _) _ hm

/-- **`malloc` returns a block after at most two calls of `expand_heap`**, from every well-formed
heap that stays below the top of the address space.  What it returns is found in the heap as those
calls, and no others, have left it. -/
theorem malloc_expands_at_most_twice {h : Heap} {segs : List Segment} {n : ℕ} (hc : h.Chain segs)
    (hpos : 0 < n) (hle : n ≤ 2 ^ 63) (hbelow : ∀ fuel, StaysBelow fuel h n) :
    (∃ fuel h' p, h.malloc false fuel n = some (h', p) ∧ p ≠ 0) ∧
      (∀ fuel, (expansions fuel h n).length ≤ 2) ∧
      ∀ fuel h' p, h.malloc false fuel n = some (h', p) →
        ∃ gs, Grows (roundRequest n) h segs (expansions fuel h n).length
            (h.expandedBy (expansions fuel h n)) gs ∧
          TakesFrom (roundRequest n) (h.expandedBy (expansions fuel h n)) gs h' p := by
  have hn := Nat.ne_of_gt hpos
  refine ⟨?_, ?_, ?_⟩
  · exact hc.malloc_returns hn (by omega) hbelow
  · have hcount := hc.expansion_rec (Q := fun j g _ k => ∀ fuel, (expansions fuel g k).length ≤ j)
      hn (by omega) hbelow ?_ ?_
    · exact fun fuel => (hcount fuel).trans (expansionsNeeded_le _ _)
    · intro g gs k t hg hk hround hfind fuel
      rw [expansions_of_find hg hround hfind]
      exact Nat.zero_le _
    · intro g gs k j hg hk hround hfind
      exact hg.length_expansions_of_none hround hfind
  · intro fuel h' p hm
    exact hc.malloc_expansions hn (hbelow fuel) hm

theorem Heap.staysBelow_first (fuel : ℕ) : StaysBelow fuel Heap.unset.initHeap 4064 := by
  have hc := Heap.unset.initHeap_chain
  have hroom : Heap.unset.initHeap.Room 4064 := Heap.room_first (by decide)
  exact ((hc.neverWraps_iff (Nat.le_refl _) (by decide)).mpr hroom).staysBelow fuel

theorem malloc_expands_at_most_twice_first :
    (∃ fuel h' p, Heap.unset.initHeap.malloc false fuel 4064 = some (h', p) ∧ p ≠ 0) ∧
      ∀ fuel, (expansions fuel Heap.unset.initHeap 4064).length ≤ 2 := by
  obtain ⟨hreturns, hcount, -⟩ := malloc_expands_at_most_twice Heap.unset.initHeap_chain
    (n := 4064) (by decide) (by decide) Heap.staysBelow_first
  exact ⟨hreturns, hcount⟩

/-! ### The first segment that is long enough -/

namespace Heap

variable {h h' : Heap} {segs : List Segment} {s t : Segment} {n r : ℕ}

/-- A request, rounded up to a multiple of 8. -/
def roundUp (n : ℕ) : ℕ := (n + 7) / 8 * 8

/-- The free segment of at least `r` bytes with the lowest address. -/
structure FirstLarge (segs : List Segment) (r : ℕ) (t : Segment) : Prop where
  mem : t ∈ segs
  free : t.free = true
  large : r ≤ t.length
  first : ∀ s ∈ segs, s.free = true → r ≤ s.length → t.addr ≤ s.addr

/-- `malloc(n)` returns the payload of the first free segment that is long enough, without expanding
the heap, and expands it only if there is none. -/
structure FirstFit (h : Heap) (segs : List Segment) (n : ℕ) : Prop where
  takes : ∀ t, FirstLarge segs (roundUp n) t →
    (∃ fuel h', h.malloc false fuel n = some (h', t.addr + headerSize)) ∧
      ∀ fuel, expansions fuel h n = []
  expands : ∀ fuel, expansions fuel h n ≠ [] →
    ∀ s ∈ segs, s.free = true → s.length < roundUp n

theorem Chain.find_first (hc : h.Chain segs) {P : Segment → Prop} [DecidablePred P]
    (hfind : segs.find? (P ·) = some t) :
    t ∈ segs ∧ P t ∧ ∀ s ∈ segs, P s → t.addr ≤ s.addr := by
  obtain ⟨ht, pre, post, rfl, hpre⟩ := List.find?_eq_some_iff_append.mp hfind
  refine ⟨by simp, by simpa using ht, fun s hs hPs => ?_⟩
  obtain hs | hs := List.mem_append.mp hs
  · exact absurd hPs (by simpa using hpre s hs)
  · obtain rfl | hs := List.mem_cons.mp hs
    · exact le_rfl
    · have hafter := hc.stop_le hs
      omega

theorem Chain.exists_firstLarge (hc : h.Chain segs) (hs : s ∈ segs) (hfree : s.free = true)
    (hlarge : r ≤ s.length) : ∃ t, FirstLarge segs r t := by
  have hsome : (segs.find? fun s => decide (s.free = true ∧ r ≤ s.length)).isSome :=
    List.find?_isSome.mpr ⟨s, hs, decide_eq_true ⟨hfree, hlarge⟩⟩
  obtain ⟨t, ht⟩ := Option.isSome_iff_exists.mp hsome
  obtain ⟨hmem, ⟨hfree, hlarge⟩, hfirst⟩ := hc.find_first ht
  exact ⟨t, hmem, hfree, hlarge, fun s hs hfree hlarge => hfirst s hs ⟨hfree, hlarge⟩⟩

theorem Chain.find_of_firstLarge (hc : h.Chain segs) (ht : FirstLarge segs r t) (hfits : Fits r t) :
    segs.find? (Fits r ·) = some t := by
  have hsome : (segs.find? (Fits r ·)).isSome :=
    List.find?_isSome.mpr ⟨t, ht.mem, decide_eq_true hfits⟩
  obtain ⟨u, hu⟩ := Option.isSome_iff_exists.mp hsome
  obtain ⟨hmem, hfitsu, hfirst⟩ := hc.find_first hu
  have hlarge : r ≤ u.length := hfitsu.2.elim Eq.ge fun h => by omega
  have haddr := le_antisymm (hfirst t ht.mem hfits) (ht.first u hmem hfitsu.1 hlarge)
  rw [hu, hc.tiles.eq_of_addr_eq (by decide) hmem ht.mem haddr]

/-- Up to the last multiple of 8, the request is rounded without wrapping; a longer one is longer
than any segment. -/
theorem Chain.roundRequest_of_firstLarge (hc : h.Chain segs) (hpos : 0 < n) (hlt : n < 2 ^ 64)
    (ht : FirstLarge segs (roundUp n) t) : roundRequest n = roundUp n ∧ 8 ≤ roundUp n := by
  have hstop := hc.stop_lt ht.mem
  have hlarge := ht.large
  unfold roundUp roundRequest add64 at *
  split <;> omega

end Heap

/-- **`malloc` is a first fit exactly if** the first free segment that is long enough, if there is
one, is just as long as the rounded request, or at least a header and eight bytes longer. -/
theorem first_fit_iff {h : Heap} {segs : List Segment} {n : ℕ} (hc : h.Chain segs) (hpos : 0 < n)
    (hlt : n < 2 ^ 64) : FirstFit h segs n ↔ ∀ t, FirstLarge segs (roundUp n) t →
      t.length = roundUp n ∨ roundUp n + headerSize + 8 ≤ t.length := by
  have hn := Nat.ne_of_gt hpos
  constructor
  · intro hfirst t ht
    obtain ⟨hround, -⟩ := hc.roundRequest_of_firstLarge hpos hlt ht
    obtain ⟨⟨fuel, h', hm⟩, hnone⟩ := hfirst.takes t ht
    cases hfind : segs.find? (Fits (roundRequest n) ·) with
    | none =>
      have hcall := hnone (segs.length + 1)
      rw [expansions, if_neg hn, (hc.malloc_of_none hn le_rfl hfind).1] at hcall
      cases hcall
    | some u =>
      have hu := List.mem_of_find?_eq_some hfind
      have hm' := (hc.malloc_of_find hn le_rfl hfind).1
      have hptr := congrArg Prod.snd (malloc_result_eq hm hm')
      dsimp only at hptr
      rw [(hc.payload_ne_zero hu).1] at hptr
      obtain rfl := hc.tiles.eq_of_addr_eq (by decide) ht.mem hu (by omega)
      rw [← hround]
      exact (fits_of_find hfind).1.2.imp id And.right
  · intro hfits
    have hfind : ∀ t, FirstLarge segs (roundUp n) t →
        segs.find? (Fits (roundRequest n) ·) = some t := fun t ht => by
      obtain ⟨hround, height⟩ := hc.roundRequest_of_firstLarge hpos hlt ht
      rw [hround]
      exact hc.find_of_firstLarge ht ⟨ht.free, (hfits t ht).imp id fun hroom => ⟨height, hroom⟩⟩
    refine ⟨fun t ht => ⟨?_, fun fuel => expansions_of_find hc rfl (hfind t ht)⟩,
      fun fuel hcall s hs hfree => ?_⟩
    · rw [← (hc.payload_ne_zero ht.mem).1]
      exact ⟨_, _, (hc.malloc_of_find hn le_rfl (hfind t ht)).1⟩
    · by_contra hlarge
      obtain ⟨t, ht⟩ := hc.exists_firstLarge hs hfree (Nat.le_of_not_lt hlarge)
      exact hcall (expansions_of_find hc rfl (hfind t ht))

theorem firstLarge_first {r : ℕ} (hr : r ≤ firstSegment.length) :
    FirstLarge [firstSegment] r firstSegment :=
  ⟨by simp, rfl, hr, fun s hs _ _ => by rw [List.mem_singleton.mp hs]⟩

theorem first_fit_iff_first : FirstFit Heap.unset.initHeap [firstSegment] 24 := by
  refine (first_fit_iff Heap.unset.initHeap_chain (by decide) (by decide)).mpr fun t ht => ?_
  rw [List.mem_singleton.mp ht.mem]
  decide

/-- On the heap that `init_heap` has set up, `malloc(4064)` passes over a free segment of 4071 bytes
and expands the heap. -/
theorem large_segment_passed_over : ¬ ∀ (h : Heap) (segs : List Segment) (n : ℕ), h.Chain segs →
    0 < n → n < 2 ^ 64 → FirstFit h segs n := by
  intro hclaim
  have hc := Heap.unset.initHeap_chain
  have hfirst := hclaim _ _ 4064 hc (by decide) (by decide)
  have hnone := (hfirst.takes firstSegment (firstLarge_first (by decide))).2 2
  have hfind : [firstSegment].find? (Fits (roundRequest 4064) ·) = none := by decide
  rw [expansions, if_neg (by decide), (hc.malloc_of_none (by decide) (le_refl 1) hfind).1] at hnone
  cases hnone

end Eterna
