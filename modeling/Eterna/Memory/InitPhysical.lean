import Eterna.Memory.Virtual
import Mathlib.Algebra.Order.BigOperators.Group.Finset
import Mathlib.Data.List.Nodup

/-!
# Starting the page allocator

`init_physical` works in two phases.  First a small bitmap in the kernel image serves while the
first 64 MiB are mapped in the active page map, which takes pages for page tables.  Then a bitmap
for all of memory, at the start of the largest free segment, replaces it; everything that is not
conventional memory is locked in it, and `FirstFreePage` stays where the first phase has left it.

* `initPhysical_handedOut` : no page is handed out twice in the first phase, and all pages handed
  out lie below `FirstFreePage`;
* `initPhysical_sum` : what the two counters add up to;
* `WellFormedMap.describedPages_le` : a well-formed memory map describes at most `2 ^ 52` pages.

The memory map and the bytes of the bitmaps are kept apart from the frames of physical memory.
-/

namespace Eterna

/-- `EFI_MEMORY_DESCRIPTOR`, without the fields that nothing here reads. -/
structure EfiMemoryDescriptor where
  /-- `Type`. -/
  type : ℕ
  /-- `PhysicalAddress`. -/
  physicalAddress : ℕ
  /-- `NumPages`. -/
  numPages : ℕ

/-- The type of conventional memory. -/
def conventionalMemory : ℕ := 7

/-- `InitialPageBitmapMaxAddress`. -/
def initialPageBitmapMaxAddress : ℕ := mib 64

/-- `InitialPageBitmapPageCount`. -/
def initialPageBitmapPageCount : ℕ := initialPageBitmapMaxAddress / pageSize

/-- `InitialPageBitmapSize`. -/
def initialPageBitmapSize : ℕ := initialPageBitmapPageCount / 8

/-- The first loop of `init_physical`, as far as the largest free segment goes: its address and its
number of pages. -/
def largestFreeMemorySegment (memMap : List EfiMemoryDescriptor) : ℕ × ℕ :=
  memMap.foldl (fun best desc =>
    if desc.type = conventionalMemory ∧ best.2 < desc.numPages ∧
        add64 desc.physicalAddress desc.numPages < initialPageBitmapMaxAddress then
      (desc.physicalAddress, desc.numPages)
    else best) (0, 0)

namespace PhysicalMemoryManager

/-- The globals before `init_physical`. -/
def boot : PhysicalMemoryManager where
  pageMap := { size := 0, buffer := 0, bytes := fun _ => 0#8 }
  totalPages := 0
  totalFreePages := 0
  totalUsedPages := 0
  maxFreePagesInARow := 0
  firstFreePage := 0
  handedOut := []

/-- The first loop of `init_physical`, as far as `TotalPages` goes. -/
def countPages (m : PhysicalMemoryManager) (memMap : List EfiMemoryDescriptor) : ℕ :=
  memMap.foldl (fun total desc => add64 total desc.numPages) m.totalPages

/-- The loop that frees all conventional memory in the initial bitmap. -/
def freeConventional (m : PhysicalMemoryManager) (memMap : List EfiMemoryDescriptor) :
    PhysicalMemoryManager :=
  memMap.foldl (fun m desc =>
    if desc.type = conventionalMemory then m.freePages desc.physicalAddress desc.numPages else m) m

/-- The loop that frees all conventional memory in the final bitmap. -/
def freeConventionalRuns (m : PhysicalMemoryManager) (memMap : List EfiMemoryDescriptor) :
    PhysicalMemoryManager :=
  memMap.foldl (fun m desc =>
    if desc.type = conventionalMemory then
      let m := m.freePages desc.physicalAddress desc.numPages
      if m.maxFreePagesInARow < desc.numPages then { m with maxFreePagesInARow := desc.numPages }
      else m
    else m) m

/-- The final bitmap, with every page locked. -/
def lockAll (m : PhysicalMemoryManager) (segment : ℕ) : PhysicalMemoryManager :=
  let m := { m with pageMap := m.pageMap.init (m.totalPages / 8 + 1) segment, totalUsedPages := 0 }
  { m.lockPages 0 (add64 m.totalPages 1) with totalFreePages := 0 }

/-- The second phase of `init_physical`. -/
def finalPhase (m : PhysicalMemoryManager) (image : KernelImage)
    (memMap : List EfiMemoryDescriptor) (segment : ℕ) : PhysicalMemoryManager :=
  let m := (m.lockAll segment).freeConventionalRuns memMap
  let m := m.lockPages m.pageMap.base (m.pageMap.length / pageSize + 1)
  m.lockPages kernelPhysical (image.byteCount / pageSize)

/-- The initial bitmap, with conventional memory free and the kernel locked. -/
def initialBitmap (m : PhysicalMemoryManager) (image : KernelImage)
    (memMap : List EfiMemoryDescriptor) : PhysicalMemoryManager :=
  let m := { m with
    totalPages := m.countPages memMap
    pageMap := m.pageMap.init initialPageBitmapSize image.initialPageBitmap }
  ((m.lockPages 0 initialPageBitmapPageCount).freeConventional memMap).lockPages kernelPhysical
    (image.byteCount / pageSize)

end PhysicalMemoryManager

namespace Machine

/-- The first phase of `init_physical`. -/
def initialPhase (s : Machine) (image : KernelImage) (memMap : List EfiMemoryDescriptor) :
    Machine :=
  let a := { s with pmm := s.pmm.initialBitmap image memMap }.readActivePageMap
  mapPages a.2 presentWriteGlobal (· * pageSize) (· * pageSize)
    (pageSteps 0 (min a.1.pmm.totalRam initialPageBitmapMaxAddress)) a.1

/-- `init_physical`.  Without a free segment below 64 MiB it never returns. -/
def initPhysical (s : Machine) (image : KernelImage) (memMap : List EfiMemoryDescriptor) :
    Option PhysicalMemoryManager :=
  let segment := largestFreeMemorySegment memMap
  if segment.1 = 0 ∨ segment.2 = 0 then none
  else some ((s.initialPhase image memMap).pmm.finalPhase image memMap segment.1)

theorem map_invariant {I : PhysicalMemoryManager → Prop} (hreq : ∀ m, I m → I m.requestPage.1)
    {s : Machine} (h : I s.pmm) (pml4 v p : ℕ) (mf : BitVec 64) : I (s.map pml4 v p mf).pmm := by
  have hnext : ∀ (t : Machine) (table : ℕ) (i : Fin 512), I t.pmm →
      I (t.nextTable table i mf).1.pmm := by
    intro t table i ht
    unfold nextTable
    dsimp only
    split_ifs
    · exact ht
    · exact hreq _ ht
  unfold map
  split_ifs
  · exact h
  · exact hnext _ _ _ (hnext _ _ _ (hnext _ _ _ h))

theorem mapPages_invariant {I : PhysicalMemoryManager → Prop}
    (hreq : ∀ m, I m → I m.requestPage.1) {pageMap : ℕ} {mf : BitVec 64} {va pa : ℕ → ℕ} (n : ℕ)
    {s : Machine} (h : I s.pmm) : I (mapPages pageMap mf va pa n s).pmm := by
  induction n with
  | zero => exact h
  | succ n ih => exact map_invariant hreq ih _ _ _ _

/-- What the initial bitmap has and `request_page` keeps, the first phase ends with. -/
theorem initialPhase_invariant {I : PhysicalMemoryManager → Prop}
    (hreq : ∀ m, I m → I m.requestPage.1) {s : Machine} {image : KernelImage}
    {memMap : List EfiMemoryDescriptor} (h : I (s.pmm.initialBitmap image memMap)) :
    I (s.initialPhase image memMap).pmm := by
  refine mapPages_invariant hreq _ ?_
  unfold readActivePageMap
  split_ifs
  · exact h
  · exact h

end Machine

namespace PhysicalMemoryManager

/-! ### What the loops keep -/

theorem freeConventional_same (m : PhysicalMemoryManager) (memMap : List EfiMemoryDescriptor) :
    SameButBits m (m.freeConventional memMap) := by
  induction memMap generalizing m with
  | nil => exact .refl m
  | cons d memMap ih =>
    refine SameButBits.trans ?_ (ih _)
    dsimp only
    split_ifs
    · exact freePages_same _ _ _
    · exact .refl m

theorem freeConventionalRuns_same (m : PhysicalMemoryManager)
    (memMap : List EfiMemoryDescriptor) : SameButBits m (m.freeConventionalRuns memMap) := by
  induction memMap generalizing m with
  | nil => exact .refl m
  | cons d memMap ih =>
    refine SameButBits.trans ?_ (ih _)
    have := freePages_same m d.physicalAddress d.numPages
    dsimp only
    split_ifs
    · exact ⟨this.size, this.base, this.totalPages, this.firstFreePage, this.handedOut⟩
    · exact this
    · exact .refl m

theorem freeConventionalRuns_sum (m : PhysicalMemoryManager)
    (memMap : List EfiMemoryDescriptor) :
    (m.freeConventionalRuns memMap).counterSum = m.counterSum := by
  induction memMap generalizing m with
  | nil => rfl
  | cons d memMap ih =>
    refine (ih _).trans ?_
    dsimp only
    split_ifs
    · exact freePages_sum _ _ _
    · exact freePages_sum _ _ _
    · rfl

theorem finalPhase_same (m : PhysicalMemoryManager) (image : KernelImage)
    (memMap : List EfiMemoryDescriptor) (segment : ℕ) :
    SameButBits (m.lockAll segment) (m.finalPhase image memMap segment) :=
  ((freeConventionalRuns_same _ _).trans (lockPages_same _ _ _)).trans (lockPages_same _ _ _)

theorem finalPhase_sum (m : PhysicalMemoryManager) (image : KernelImage)
    (memMap : List EfiMemoryDescriptor) (segment : ℕ) :
    (m.finalPhase image memMap segment).counterSum = (m.lockAll segment).counterSum :=
  (lockPages_sum _ _ _).trans ((lockPages_sum _ _ _).trans (freeConventionalRuns_sum _ _))

theorem lockAll_same (m : PhysicalMemoryManager) (segment : ℕ) :
    (m.lockAll segment).totalPages = m.totalPages ∧
      (m.lockAll segment).pageMap.size = m.totalPages / 8 + 1 ∧
      (m.lockAll segment).firstFreePage = m.firstFreePage ∧
      (m.lockAll segment).handedOut = m.handedOut := by
  have h := lockPages_same { m with
    pageMap := m.pageMap.init (m.totalPages / 8 + 1) segment, totalUsedPages := 0 } 0
    (add64 m.totalPages 1)
  exact ⟨h.totalPages, h.size, h.firstFreePage, h.handedOut⟩

theorem initialBitmap_same (m : PhysicalMemoryManager) (image : KernelImage)
    (memMap : List EfiMemoryDescriptor) :
    (m.initialBitmap image memMap).totalPages = m.countPages memMap ∧
      (m.initialBitmap image memMap).handedOut = m.handedOut := by
  have h := ((lockPages_same { m with
    totalPages := m.countPages memMap
    pageMap := m.pageMap.init initialPageBitmapSize image.initialPageBitmap } 0
    initialPageBitmapPageCount).trans (freeConventional_same _ memMap)).trans
    (lockPages_same _ kernelPhysical (image.byteCount / pageSize))
  exact ⟨h.totalPages, h.handedOut⟩

/-- Locking `n` clear pages from page 0 on counts `n` used pages. -/
theorem lockPages_used {m : PhysicalMemoryManager} {n : ℕ} (hn : n ≤ 2 ^ 52)
    (hclear : ∀ i < n, m.pageMap.get i = false) (hsize : ∀ i < n, i / 8 < m.pageMap.size)
    (hused : m.totalUsedPages = 0) : (m.lockPages 0 n).totalUsedPages = n := by
  induction n with
  | zero => exact hused
  | succ n ih =>
    have hget := get_lockPages m (i := 0) (n := n) (by omega) n
    rw [Nat.zero_mul, hclear n (Nat.lt_succ_self n), Bool.false_or,
      decide_eq_false (by omega)] at hget
    have hpage := pageOfOffset (i := 0) (k := n) (by omega)
    rw [Nat.zero_mul, Nat.zero_add] at hpage
    have hset := Bitmap.set_snd (m.lockPages 0 n).pageMap n true
    rw [(lockPages_same m 0 n).size, decide_eq_true (hsize n (Nat.lt_succ_self n))] at hset
    have hih := ih (by omega) (fun i hi => hclear i (Nat.lt_succ_of_lt hi))
      fun i hi => hsize i (Nat.lt_succ_of_lt hi)
    rw [lockPages, lockPage]
    simp only [hpage, hget, Bool.false_eq_true, ↓reduceIte, hset, hih]
    exact add64_of_lt (by omega)

/-- `lock_pages(0, TotalPages + 1)` counts one page too many, unless there is none left to count. -/
theorem lockAll_sum {m : PhysicalMemoryManager} (hT : m.totalPages ≤ 2 ^ 52) (segment : ℕ) :
    (m.lockAll segment).counterSum =
      if m.totalPages = 2 ^ 52 then 2 ^ 52 else m.totalPages + 1 := by
  have hadd : add64 m.totalPages 1 = m.totalPages + 1 := add64_of_lt (by omega)
  have hused := fun n (hn : n ≤ 2 ^ 52) (hnT : n ≤ m.totalPages + 1) =>
    lockPages_used (n := n) (m := { m with
      pageMap := m.pageMap.init (m.totalPages / 8 + 1) segment, totalUsedPages := 0 }) hn
      (fun i _ => Bitmap.get_init _ _ _ i)
      (fun i hi => by simp only [Bitmap.size_init]; omega) rfl
  have hsum : ∀ u, u < 2 ^ 64 → add64 0 u = u := fun u hu => by
    rw [add64_of_lt (by omega), Nat.zero_add]
  simp only [lockAll, counterSum, hadd]
  split_ifs with h
  · -- the last address wraps around to page 0, which is locked already
    have hget := get_lockPages { m with
      pageMap := m.pageMap.init (m.totalPages / 8 + 1) segment, totalUsedPages := 0 }
      (i := 0) (n := m.totalPages) (by omega) 0
    rw [Nat.zero_mul, Bitmap.get_init, Bool.false_or, decide_eq_true (by
      simp only [Bitmap.size_init]; omega)] at hget
    have hwrap : add64 0 (mul64 m.totalPages pageSize) / pageSize = 0 := by
      rw [h]; decide
    rw [lockPages, lockPage]
    simp only [hwrap, hget, ↓reduceIte]
    rw [hused _ hT (Nat.le_succ _), h]
    exact hsum _ (by decide)
  · rw [hused _ (by omega) le_rfl]
    exact hsum _ (by omega)

theorem requestPage_sum (m : PhysicalMemoryManager) :
    m.requestPage.1.counterSum = m.counterSum := by
  have hloop : ∀ n (m : PhysicalMemoryManager), (requestPageLoop n m).1.counterSum =
    m.counterSum := by
    intro n
    induction n with
    | zero => intro m; rfl
    | succ n ih =>
      intro m
      rw [requestPageLoop]
      split_ifs
      · exact lockPage_sum _ _
      · exact ih _
  exact hloop _ m

end PhysicalMemoryManager

/-! ### Memory maps -/

/-- The number of pages a memory map describes. -/
def describedPages (memMap : List EfiMemoryDescriptor) : ℕ := (memMap.map (·.numPages)).sum

/-- The pages of a descriptor. -/
def EfiMemoryDescriptor.pages (d : EfiMemoryDescriptor) : Finset ℕ :=
  Finset.Ico (d.physicalAddress / pageSize) (d.physicalAddress / pageSize + d.numPages)

/-- A well-formed memory map: its segments start at page boundaries, end within the 64-bit address
space, and do not overlap. -/
structure WellFormedMap (memMap : List EfiMemoryDescriptor) : Prop where
  aligned : ∀ d ∈ memMap, pageSize ∣ d.physicalAddress
  inside : ∀ d ∈ memMap, d.physicalAddress + d.numPages * pageSize ≤ 2 ^ 64
  disjoint : memMap.Pairwise fun d e => Disjoint d.pages e.pages

theorem WellFormedMap.describedPages_le {memMap : List EfiMemoryDescriptor}
    (h : WellFormedMap memMap) : describedPages memMap ≤ 2 ^ 52 := by
  -- disjoint sets of pages below `2 ^ 52`
  have hsub : ∀ d ∈ memMap, d.pages ⊆ Finset.range (2 ^ 52) := by
    intro d hd p hp
    have hin := h.inside d hd
    have hp' := Finset.mem_Ico.1 hp
    obtain ⟨k, hk⟩ := h.aligned d hd
    rw [hk, Nat.mul_div_cancel_left k (by decide)] at hp'
    rw [hk] at hin
    simp only [pageSize] at hin
    exact Finset.mem_range.2 (by omega)
  have hcard : ∀ (l : List EfiMemoryDescriptor), (∀ d ∈ l, d.pages ⊆ Finset.range (2 ^ 52)) →
      (l.Pairwise fun d e => Disjoint d.pages e.pages) →
      ∃ u ⊆ Finset.range (2 ^ 52), u.card = describedPages l ∧
        ∀ s : Finset ℕ, (∀ d ∈ l, Disjoint s d.pages) → Disjoint s u := by
    intro l
    induction l with
    | nil =>
      intro _ _
      exact ⟨∅, Finset.empty_subset _, rfl, fun s _ => Finset.disjoint_empty_right s⟩
    | cons d l ih =>
      intro hsub hdis
      obtain ⟨hd, hl⟩ := List.pairwise_cons.1 hdis
      obtain ⟨u, hu, hucard, huni⟩ := ih (fun e he => hsub e (List.mem_cons_of_mem d he)) hl
      refine ⟨d.pages ∪ u, Finset.union_subset (hsub d List.mem_cons_self) hu, ?_, fun s hs => ?_⟩
      · rw [Finset.card_union_of_disjoint (huni _ hd), hucard, EfiMemoryDescriptor.pages,
          Nat.card_Ico, Nat.add_sub_cancel_left, describedPages, describedPages, List.map_cons,
          List.sum_cons]
      · exact Finset.disjoint_union_right.2 ⟨hs d List.mem_cons_self,
          huni s fun e he => hs e (List.mem_cons_of_mem d he)⟩
  obtain ⟨u, hu, hucard, -⟩ := hcard memMap hsub h.disjoint
  rw [← hucard]
  exact (Finset.card_le_card hu).trans_eq (Finset.card_range _)

namespace PhysicalMemoryManager

theorem countPages_boot {memMap : List EfiMemoryDescriptor} (h : describedPages memMap < 2 ^ 64) :
    boot.countPages memMap = describedPages memMap := by
  have hfold : ∀ (l : List EfiMemoryDescriptor) (t : ℕ), t + describedPages l < 2 ^ 64 →
      l.foldl (fun total desc => add64 total desc.numPages) t = t + describedPages l := by
    intro l
    induction l with
    | nil => intro t _; rfl
    | cons d l ih =>
      intro t ht
      have hsum : describedPages (d :: l) = d.numPages + describedPages l := rfl
      rw [hsum] at ht ⊢
      rw [List.foldl_cons, add64_of_lt (by omega), ih _ (by omega)]
      omega
  refine (hfold memMap 0 (by omega)).trans (Nat.zero_add _)

end PhysicalMemoryManager

/-! ### After `init_physical` -/

section InitPhysical

variable {s : Machine} {image : KernelImage} {memMap : List EfiMemoryDescriptor}
  {m : PhysicalMemoryManager}

open PhysicalMemoryManager

theorem initPhysical_eq (h : s.initPhysical image memMap = some m) : ∃ segment,
    m = (s.initialPhase image memMap).pmm.finalPhase image memMap segment := by
  unfold Machine.initPhysical at h
  dsimp only at h
  split_ifs at h
  exact ⟨_, (Option.some.inj h).symm⟩

theorem initPhysical_isSome (s : Machine) (image : KernelImage)
    (h1 : (largestFreeMemorySegment memMap).1 ≠ 0) (h2 : (largestFreeMemorySegment memMap).2 ≠ 0) :
    ∃ m, s.initPhysical image memMap = some m := by
  unfold Machine.initPhysical
  dsimp only
  rw [if_neg (not_or.2 ⟨h1, h2⟩)]
  exact ⟨_, rfl⟩

/-- `TotalPages` is the number of pages the memory map describes, and the bitmap covers them. -/
theorem initPhysical_totalPages (hboot : s.pmm = boot) (hmap : describedPages memMap ≤ 2 ^ 52)
    (h : s.initPhysical image memMap = some m) :
    m.totalPages = describedPages memMap ∧ m.pageMap.size = describedPages memMap / 8 + 1 := by
  obtain ⟨segment, rfl⟩ := initPhysical_eq h
  have hT : (s.initialPhase image memMap).pmm.totalPages = describedPages memMap := by
    refine Machine.initialPhase_invariant
      (I := fun m => m.totalPages = describedPages memMap)
      (fun m hm => (requestPage_totalPages m).trans hm) ?_
    rw [(initialBitmap_same _ _ _).1, hboot]
    exact countPages_boot (by omega)
  have hsame := finalPhase_same (s.initialPhase image memMap).pmm image memMap segment
  have hlock := lockAll_same (s.initialPhase image memMap).pmm segment
  exact ⟨by rw [hsame.totalPages, hlock.1, hT], by rw [hsame.size, hlock.2.1, hT]⟩

/-- **What the counters add up to** after `init_physical`: one page more than there are. -/
theorem initPhysical_sum (hboot : s.pmm = boot) (hmap : describedPages memMap ≤ 2 ^ 52)
    (h : s.initPhysical image memMap = some m) :
    m.counterSum = if m.totalPages = 2 ^ 52 then 2 ^ 52 else m.totalPages + 1 := by
  have hT := (initPhysical_totalPages hboot hmap h).1
  obtain ⟨segment, rfl⟩ := initPhysical_eq h
  have hsame := (finalPhase_same (s.initialPhase image memMap).pmm image memMap segment).totalPages
  rw [(lockAll_same _ segment).1] at hsame
  rw [finalPhase_sum, lockAll_sum (by rw [← hsame, hT]; exact hmap), hsame]

/-- **No page is handed out twice while `init_physical` runs**, and all pages it has handed out lie
below `FirstFreePage`. -/
theorem initPhysical_handedOut (hboot : s.pmm = boot) (hmap : describedPages memMap ≤ 2 ^ 52)
    (h : s.initPhysical image memMap = some m) :
    m.handedOut.Nodup ∧ ∀ p ∈ m.handedOut, p < m.firstFreePage := by
  obtain ⟨segment, rfl⟩ := initPhysical_eq h
  have hfirst : (s.initialPhase image memMap).pmm.totalPages ≤ 2 ^ 52 ∧
      (s.initialPhase image memMap).pmm.handedOut.Nodup ∧
      ∀ p ∈ (s.initialPhase image memMap).pmm.handedOut,
        p < (s.initialPhase image memMap).pmm.firstFreePage := by
    refine Machine.initialPhase_invariant (I := fun m => m.totalPages ≤ 2 ^ 52 ∧
      m.handedOut.Nodup ∧ ∀ p ∈ m.handedOut, p < m.firstFreePage) ?_ ?_
    · rintro m ⟨hT, hnodup, hlt⟩
      rcases requestPage_cases hT with ⟨i, hi, -, he⟩ | ⟨-, he⟩
      · -- the page handed out is at or above the cursor
        rw [he]
        refine ⟨(handOut_totalPages m i).trans_le hT, List.nodup_cons.2 ⟨fun hin => ?_, hnodup⟩,
          fun p hp => ?_⟩
        · have := hlt i hin
          have := hi.1
          omega
        · rcases List.mem_cons.1 hp with rfl | hp
          · exact Nat.lt_succ_self p
          · have := hlt p hp
            have := hi.1
            rw [handOut_firstFreePage]
            omega
      · rw [he]
        exact ⟨hT, hnodup, fun p hp => (hlt p hp).trans_le (le_max_left _ _)⟩
    · obtain ⟨hT, hout⟩ := initialBitmap_same s.pmm image memMap
      rw [hT, hout, hboot, countPages_boot (by omega)]
      exact ⟨hmap, List.nodup_nil, fun p hp => absurd hp List.not_mem_nil⟩
  have hsame := finalPhase_same (s.initialPhase image memMap).pmm image memMap segment
  have hlock := lockAll_same (s.initialPhase image memMap).pmm segment
  rw [hsame.handedOut, hsame.firstFreePage, hlock.2.2.1, hlock.2.2.2]
  exact hfirst.2

end InitPhysical

/-! ### A machine that boots -/

/-- The machine at boot, with an empty page map in page 1. -/
def Machine.boot : Machine where
  pmm := PhysicalMemoryManager.boot
  ram := fun _ => PageTable.zero
  activePageMap := 0
  cr3 := pageSize

/-- A memory map with one segment, 2 MiB of conventional memory at 2 MiB. -/
def bootMap : List EfiMemoryDescriptor := [⟨conventionalMemory, 0x200000, 512⟩]

theorem initPhysical_boot : ∃ m, Machine.boot.initPhysical KernelImage.empty bootMap = some m :=
  initPhysical_isSome _ _ (by decide) (by decide)

theorem wellFormedMap_boot : WellFormedMap bootMap where
  aligned := by decide
  inside := by decide
  disjoint := List.pairwise_singleton _ _

end Eterna
