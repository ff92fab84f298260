import Eterna.Memory.PageRuns

/-!
# The bitmaps that `init_physical` builds

Which bits are set in the bitmap of the first phase and in the final one, said of the memory map and
the kernel image alone.

* `free_initialBitmap` : the pages that `request_page` may hand out in the first phase;
* `initPhysical_get` : the bits of the final bitmap below `TotalPages`;
* `initPhysical_usedPages` : `TotalUsedPages` is the number of set bits.
-/

namespace Eterna

open PhysicalMemoryManager

/-! ### Pages of the memory map and of the kernel -/

/-- The page lies in a descriptor of conventional memory. -/
def Conventional (memMap : List EfiMemoryDescriptor) (p : ℕ) : Prop :=
  ∃ d ∈ memMap, d.type = conventionalMemory ∧ p ∈ d.pages

instance (memMap : List EfiMemoryDescriptor) : DecidablePred (Conventional memMap) := fun _ =>
  inferInstanceAs (Decidable (∃ d ∈ memMap, _ ∧ _))

/-- The pages that `lock_pages(&KERNEL_PHYSICAL, kernelPageCount)` locks: the page count is rounded
down. -/
def KernelImage.Locks (image : KernelImage) (p : ℕ) : Prop :=
  kernelPhysical / pageSize ≤ p ∧ p < kernelPhysical / pageSize + image.byteCount / pageSize

instance (image : KernelImage) : DecidablePred image.Locks := fun _ =>
  inferInstanceAs (Decidable (_ ∧ _))

/-- The page that has no free bit in the initial bitmap, seen from `request_page`: it is
conventional memory that the kernel does not occupy, or lies behind the pages that the bitmap
covers. -/
def Vacant (image : KernelImage) (memMap : List EfiMemoryDescriptor) (p : ℕ) : Prop :=
  p < describedPages memMap ∧
    (initialPageBitmapPageCount ≤ p ∨ Conventional memMap p ∧ ¬ image.Locks p)

instance (image : KernelImage) (memMap : List EfiMemoryDescriptor) :
    DecidablePred (Vacant image memMap) := fun _ => inferInstanceAs (Decidable (_ ∧ (_ ∨ _ ∧ ¬ _)))

theorem KernelImage.byteCount_lt (image : KernelImage) : image.byteCount < 2 ^ 31 := by
  have h1 := image.start_le
  have h2 := image.end_lt
  unfold byteCount
  simp only [kernelStart, kernelPhysical, kernelVirtual] at h1 ⊢
  omega

/-- The addresses that `free_pages` runs through are those of the pages of the descriptor. -/
theorem mem_pagesFrom_iff {d : EfiMemoryDescriptor} (haligned : pageSize ∣ d.physicalAddress)
    (hinside : d.physicalAddress + d.numPages * pageSize ≤ 2 ^ 64) (p : ℕ) :
    p ∈ pagesFrom d.physicalAddress d.numPages ↔ p ∈ d.pages := by
  obtain ⟨b, hb⟩ := haligned
  have hb' : d.physicalAddress = b * pageSize := hb.trans (Nat.mul_comm _ _)
  have hdiv : d.physicalAddress / pageSize = b := by
    rw [hb', Nat.mul_div_cancel _ (by decide)]
  have hlt : b + d.numPages ≤ 2 ^ 52 := by
    rw [hb'] at hinside
    unfold pageSize at hinside
    omega
  simp only [pagesFrom, EfiMemoryDescriptor.pages, List.mem_map, List.mem_range, Finset.mem_Ico,
    hdiv]
  constructor
  · rintro ⟨i, hi, rfl⟩
    rw [hb', pageOfOffset (by omega)]
    omega
  · rintro ⟨h1, h2⟩
    exact ⟨p - b, by omega, by rw [hb', pageOfOffset (by omega)]; omega⟩

namespace PhysicalMemoryManager

/-! ### The bits that the loops leave -/

/-- A loop over the memory map whose every iteration clears the bits of a conventional
descriptor. -/
theorem get_foldl {memMap : List EfiMemoryDescriptor} {p : ℕ}
    {step : PhysicalMemoryManager → EfiMemoryDescriptor → PhysicalMemoryManager}
    (hstep : ∀ d ∈ memMap, ∀ m, (step m d).pageMap.get p =
      (m.pageMap.get p && decide (¬ (d.type = conventionalMemory ∧ p ∈ d.pages))))
    (m : PhysicalMemoryManager) : (memMap.foldl step m).pageMap.get p =
      (m.pageMap.get p && decide (¬ Conventional memMap p)) := by
  induction memMap generalizing m with
  | nil =>
    have : ¬ Conventional [] p := fun ⟨_, hd, _⟩ => List.not_mem_nil hd
    rw [decide_eq_true this, Bool.and_true]
    rfl
  | cons d memMap ih =>
    have hcons : Conventional (d :: memMap) p ↔
        d.type = conventionalMemory ∧ p ∈ d.pages ∨ Conventional memMap p := by
      simp only [Conventional, List.mem_cons, exists_eq_or_imp]
    rw [List.foldl_cons, ih (fun e he => hstep e (List.mem_cons_of_mem d he)),
      hstep d List.mem_cons_self, Bool.and_assoc, ← Bool.decide_and]
    exact congrArg _ (decide_eq_decide.2 (by rw [hcons, not_or]))

theorem get_lockKernel (m : PhysicalMemoryManager) (image : KernelImage) (p : ℕ) :
    (m.lockPages kernelPhysical (image.byteCount / pageSize)).pageMap.get p =
      (m.pageMap.get p || decide (image.Locks p ∧ p / 8 < m.pageMap.size)) := by
  have hlt := image.byteCount_lt
  have hget := get_lockPages m (i := kernelPhysical / pageSize) (n := image.byteCount / pageSize)
    (by unfold pageSize kernelPhysical; omega) p
  simp only [KernelImage.Locks, and_assoc]
  exact hget

section WellFormedMap

variable {memMap : List EfiMemoryDescriptor} (hmap : WellFormedMap memMap)

include hmap

theorem get_freePages_descriptor {d : EfiMemoryDescriptor} (hd : d ∈ memMap)
    (m : PhysicalMemoryManager) (p : ℕ) :
    (m.freePages d.physicalAddress d.numPages).pageMap.get p =
      (m.pageMap.get p && decide (p ∉ d.pages)) := by
  have hiff := mem_pagesFrom_iff (hmap.aligned d hd) (hmap.inside d hd) p
  rw [get_freePages, decide_eq_decide.2 (not_congr hiff)]

theorem get_freeConventional (m : PhysicalMemoryManager) (p : ℕ) :
    (m.freeConventional memMap).pageMap.get p =
      (m.pageMap.get p && decide (¬ Conventional memMap p)) := by
  refine get_foldl (fun d hd m => ?_) m
  split_ifs with htype
  · rw [get_freePages_descriptor hmap hd]
    simp only [htype, true_and]
  · simp only [htype, false_and, not_false_eq_true, decide_true, Bool.and_true]

/-- Freeing all conventional memory clears exactly its bits, in the final bitmap. -/
theorem get_freeConventionalRuns (m : PhysicalMemoryManager) (p : ℕ) :
    (m.freeConventionalRuns memMap).pageMap.get p =
      (m.pageMap.get p && decide (¬ Conventional memMap p)) := by
  refine get_foldl (fun d hd m => ?_) m
  have hget := get_freePages_descriptor hmap hd m p
  dsimp only
  split_ifs with htype
  · rw [hget]
    simp only [htype, true_and]
  · rw [hget]
    simp only [htype, true_and]
  · simp only [htype, false_and, not_false_eq_true, decide_true, Bool.and_true]

/-- The steps that make up the initial bitmap, from a bitmap that is all clear. -/
theorem get_initialSteps (m : PhysicalMemoryManager) (image : KernelImage) {n : ℕ} (hn : n ≤ 2 ^ 52)
    (hsize : m.pageMap.size * 8 = n) (hclear : ∀ p, m.pageMap.get p = false) (p : ℕ) :
    (((m.lockPages 0 n).freeConventional memMap).lockPages kernelPhysical
      (image.byteCount / pageSize)).pageMap.get p =
      decide (p < n ∧ (¬ Conventional memMap p ∨ image.Locks p)) := by
  have hlock := get_lockPages m (i := 0) (n := n) (by omega) p
  rw [Nat.zero_mul, hclear, Bool.false_or] at hlock
  rw [get_lockKernel, get_freeConventional hmap, hlock, (freeConventional_same _ _).size,
    (lockPages_same _ _ _).size, ← Bool.decide_and, ← Bool.decide_or]
  refine decide_eq_decide.2 ⟨?_, ?_⟩
  · rintro (⟨⟨-, hlt, -⟩, hconv⟩ | ⟨hlocks, hlt⟩)
    · exact ⟨by omega, .inl hconv⟩
    · exact ⟨by omega, .inr hlocks⟩
  · rintro ⟨hlt, hconv | hlocks⟩
    · exact .inl ⟨⟨Nat.zero_le p, by omega, by omega⟩, hconv⟩
    · exact .inr ⟨hlocks, by omega⟩

omit hmap in
theorem initialBitmap_eq (m : PhysicalMemoryManager) (image : KernelImage) :
    m.initialBitmap image memMap =
      ((lockPages { m with
        totalPages := m.countPages memMap
        pageMap := m.pageMap.init initialPageBitmapSize image.initialPageBitmap } 0
        initialPageBitmapPageCount).freeConventional memMap).lockPages kernelPhysical
        (image.byteCount / pageSize) := rfl

omit hmap in
theorem initialBitmap_keeps (m : PhysicalMemoryManager) (image : KernelImage) :
    (m.initialBitmap image memMap).pageMap.size = initialPageBitmapSize ∧
      (m.initialBitmap image memMap).firstFreePage = m.firstFreePage := by
  rw [initialBitmap_eq, (lockPages_same _ _ _).size, (freeConventional_same _ _).size,
    (lockPages_same _ _ _).size, (lockPages_same _ _ _).firstFreePage,
    (freeConventional_same _ _).firstFreePage, (lockPages_same _ _ _).firstFreePage]
  dsimp only [Bitmap.size_init]
  exact ⟨rfl, rfl⟩

/-- **The initial bitmap**: of the pages it covers, those are clear that are conventional memory and
not the kernel's. -/
theorem get_initialBitmap (m : PhysicalMemoryManager) (image : KernelImage) (p : ℕ) :
    (m.initialBitmap image memMap).pageMap.get p =
      decide (p < initialPageBitmapPageCount ∧ (¬ Conventional memMap p ∨ image.Locks p)) := by
  rw [initialBitmap_eq]
  refine get_initialSteps hmap _ image (by decide) ?_ (fun q => ?_) p
  · dsimp only [Bitmap.size_init]
    decide
  · dsimp only
    exact Bitmap.get_init _ _ _ q

/-- **What `request_page` may hand out in the first phase.** -/
theorem free_initialBitmap (image : KernelImage) :
    (boot.initialBitmap image memMap).Free = Vacant image memMap := by
  funext p
  have hT := (initialBitmap_same boot image memMap).1
  have hdescribed : boot.countPages memMap = describedPages memMap :=
    countPages_boot (hmap.describedPages_le.trans_lt (by decide))
  have hcursor : (boot.initialBitmap image memMap).firstFreePage = 0 :=
    (initialBitmap_keeps boot image).2
  rw [Free, hT, hdescribed, hcursor, get_initialBitmap hmap, decide_eq_false_iff_not, Vacant]
  refine propext ⟨fun h => ⟨h.2.1, ?_⟩, fun h => ⟨Nat.zero_le p, h.1, ?_⟩⟩
  · by_cases hlt : p < initialPageBitmapPageCount
    · have hnot : ¬ (¬ Conventional memMap p ∨ image.Locks p) := fun hor => h.2.2 ⟨hlt, hor⟩
      rw [not_or, not_not] at hnot
      exact .inr hnot
    · exact .inl (Nat.le_of_not_lt hlt)
  · rintro ⟨hlt, hor⟩
    rcases h.2 with hle | ⟨hconv, hlocks⟩
    · omega
    · exact hor.elim (fun hn => hn hconv) hlocks

end WellFormedMap

/-! ### The final bitmap -/

/-- `lock_pages(0, TotalPages + 1)` locks every page below `TotalPages`, and the one behind them
unless its address wraps around to page 0. -/
theorem get_lockAll {m : PhysicalMemoryManager} (hT : m.totalPages ≤ 2 ^ 52) (segment : ℕ) {p : ℕ}
    (hp : p / 8 < m.totalPages / 8 + 1) : (m.lockAll segment).pageMap.get p =
      decide (p < m.totalPages ∨ p = m.totalPages ∧ p < 2 ^ 52) := by
  have hadd : add64 m.totalPages 1 = m.totalPages + 1 := add64_of_lt (by omega)
  have hlock : ∀ n ≤ 2 ^ 52, (lockPages { m with
      pageMap := m.pageMap.init (m.totalPages / 8 + 1) segment, totalUsedPages := 0 }
      0 n).pageMap.get p = decide (p < n) := by
    intro n hn
    have hget := get_lockPages { m with
      pageMap := m.pageMap.init (m.totalPages / 8 + 1) segment, totalUsedPages := 0 }
      (i := 0) (n := n) (by omega) p
    rw [Nat.zero_mul, Bitmap.get_init, Bool.false_or, Bitmap.size_init] at hget
    exact hget.trans (decide_eq_decide.2 (by omega))
  unfold lockAll
  dsimp only
  rw [hadd]
  by_cases hfull : m.totalPages = 2 ^ 52
  · have hwrap : add64 0 (mul64 m.totalPages pageSize) / pageSize = 0 := by
      rw [hfull]
      decide
    rw [lockPages, get_lockPage, hwrap, hlock _ hT, ← Bool.decide_or]
    exact decide_eq_decide.2 (by omega)
  · rw [hlock _ (by omega)]
    exact decide_eq_decide.2 (by omega)

end PhysicalMemoryManager

/-- The descriptor that the search for the largest free segment has chosen. -/
theorem exists_largestFreeMemorySegment {memMap : List EfiMemoryDescriptor}
    (h : (largestFreeMemorySegment memMap).2 ≠ 0) : ∃ d ∈ memMap, d.type = conventionalMemory ∧
      largestFreeMemorySegment memMap = (d.physicalAddress, d.numPages) ∧
      add64 d.physicalAddress d.numPages < initialPageBitmapMaxAddress := by
  refine (List.foldlRecOn (motive := fun best : ℕ × ℕ => best.2 = 0 ∨ ∃ d ∈ memMap,
    d.type = conventionalMemory ∧ best = (d.physicalAddress, d.numPages) ∧
      add64 d.physicalAddress d.numPages < initialPageBitmapMaxAddress)
    memMap _ (.inl rfl) fun best hbest d hd => ?_).resolve_left h
  split_ifs with hchosen
  · exact .inr ⟨d, hd, hchosen.1, rfl, hchosen.2.2⟩
  · exact hbest

/-- The first page of the segment that the final bitmap is put into. -/
def segmentPage (memMap : List EfiMemoryDescriptor) : ℕ :=
  (largestFreeMemorySegment memMap).1 / pageSize

/-- `bitmapSize`. -/
def bitmapSize (memMap : List EfiMemoryDescriptor) : ℕ := describedPages memMap / 8 + 1

/-- The pages that `lock_pages(PageMap.base(), PageMap.length() / PAGE_SIZE + 1)` locks. -/
def BitmapLocks (memMap : List EfiMemoryDescriptor) (p : ℕ) : Prop :=
  segmentPage memMap ≤ p ∧ p ≤ segmentPage memMap + bitmapSize memMap / pageSize

instance (memMap : List EfiMemoryDescriptor) : DecidablePred (BitmapLocks memMap) := fun _ =>
  inferInstanceAs (Decidable (_ ∧ _))

/-- The segment of the final bitmap lies in the memory map, at a page boundary below 64 MiB. -/
structure BitmapSegment (memMap : List EfiMemoryDescriptor) (d : EfiMemoryDescriptor) : Prop where
  mem : d ∈ memMap
  type : d.type = conventionalMemory
  chosen : largestFreeMemorySegment memMap = (d.physicalAddress, d.numPages)
  address : d.physicalAddress = segmentPage memMap * pageSize
  pages : d.pages = Finset.Ico (segmentPage memMap) (segmentPage memMap + d.numPages)
  low : segmentPage memMap < initialPageBitmapPageCount
  nonempty : 0 < d.numPages

theorem exists_bitmapSegment {memMap : List EfiMemoryDescriptor} (hmap : WellFormedMap memMap)
    (h : (largestFreeMemorySegment memMap).2 ≠ 0) : ∃ d, BitmapSegment memMap d := by
  obtain ⟨d, hd, htype, hchosen, hlow⟩ := exists_largestFreeMemorySegment h
  obtain ⟨b, hb⟩ := hmap.aligned d hd
  have hinside := hmap.inside d hd
  have hpage : segmentPage memMap = b := by
    rw [segmentPage, hchosen, hb]
    exact Nat.mul_div_cancel_left b (by decide)
  have hpos : 0 < d.numPages := by
    rw [hchosen] at h
    exact Nat.pos_of_ne_zero h
  have hmax : initialPageBitmapMaxAddress = 16384 * 4096 := rfl
  have hcount : initialPageBitmapPageCount = 16384 := rfl
  rw [hb] at hinside hlow
  unfold pageSize at hinside hlow
  rw [add64_of_lt (by omega)] at hlow
  refine ⟨d, hd, htype, hchosen, ?_, ?_, ?_, hpos⟩
  · rw [hpage, hb, Nat.mul_comm]
  · rw [EfiMemoryDescriptor.pages, hpage, hb, Nat.mul_div_cancel_left b (by decide)]
  · rw [hpage]
    omega

section InitPhysical

variable {s : Machine} {image : KernelImage} {memMap : List EfiMemoryDescriptor}
  {m : PhysicalMemoryManager}

theorem initPhysical_finalPhase (h : s.initPhysical image memMap = some m) :
    (largestFreeMemorySegment memMap).2 ≠ 0 ∧ m = (s.initialPhase image memMap).pmm.finalPhase image
      memMap (largestFreeMemorySegment memMap).1 := by
  unfold Machine.initPhysical at h
  dsimp only at h
  split_ifs at h with hnone
  exact ⟨fun h0 => hnone (.inr h0), (Option.some.inj h).symm⟩

theorem initPhysical_base (h : s.initPhysical image memMap = some m) :
    m.pageMap.base = (largestFreeMemorySegment memMap).1 := by
  obtain ⟨-, rfl⟩ := initPhysical_finalPhase h
  have hlock := lockPages_same { (s.initialPhase image memMap).pmm with
    pageMap := (s.initialPhase image memMap).pmm.pageMap.init
      ((s.initialPhase image memMap).pmm.totalPages / 8 + 1) (largestFreeMemorySegment memMap).1
    totalUsedPages := 0 } 0 (add64 (s.initialPhase image memMap).pmm.totalPages 1)
  exact (finalPhase_same _ image memMap _).base.trans hlock.base

theorem initPhysical_handedOut_eq (h : s.initPhysical image memMap = some m) :
    m.handedOut = (s.initialPhase image memMap).pmm.handedOut ∧
      m.firstFreePage = (s.initialPhase image memMap).pmm.firstFreePage := by
  obtain ⟨-, rfl⟩ := initPhysical_finalPhase h
  have hsame := finalPhase_same (s.initialPhase image memMap).pmm image memMap
    (largestFreeMemorySegment memMap).1
  have hlock := lockAll_same (s.initialPhase image memMap).pmm (largestFreeMemorySegment memMap).1
  exact ⟨hsame.handedOut.trans hlock.2.2.2, hsame.firstFreePage.trans hlock.2.2.1⟩

/-- **The final bitmap**, up to its end: conventional memory is clear unless the bitmap or the
kernel has locked it again, everything else is locked up to page `TotalPages`, and clear behind
it. -/
theorem initPhysical_bit (hboot : s.pmm = boot) (hmap : WellFormedMap memMap)
    (h : s.initPhysical image memMap = some m) {p : ℕ} (hp : p / 8 < bitmapSize memMap) :
    m.pageMap.get p = decide ((p < describedPages memMap ∨ p = describedPages memMap ∧ p < 2 ^ 52) ∧
      ¬ Conventional memMap p ∨ BitmapLocks memMap p ∨ image.Locks p) := by
  have hle := hmap.describedPages_le
  obtain ⟨hT, hsize⟩ := initPhysical_totalPages hboot hle h
  have hbase := initPhysical_base h
  obtain ⟨hne, hm⟩ := initPhysical_finalPhase h
  obtain ⟨d, hd⟩ := exists_bitmapSegment hmap hne
  have hbase' : m.pageMap.base = segmentPage memMap * pageSize := by
    rw [hbase, hd.chosen, hd.address]
  generalize (s.initialPhase image memMap).pmm = m₁ at hm
  generalize (largestFreeMemorySegment memMap).1 = segment at hm
  have hsame := finalPhase_same m₁ image memMap segment
  have hlockAll := lockAll_same m₁ segment
  have hT₁ : m₁.totalPages = describedPages memMap := by
    rw [← hlockAll.1, ← hsame.totalPages, ← hm, hT]
  have hsize₁ : (m₁.lockAll segment).pageMap.size = bitmapSize memMap := by
    rw [hlockAll.2.1, hT₁]
    rfl
  have hruns := freeConventionalRuns_same (m₁.lockAll segment) memMap
  have hbase₁ : ((m₁.lockAll segment).freeConventionalRuns memMap).pageMap.base =
      segmentPage memMap * pageSize := by
    rw [← hbase', hm, hsame.base, hruns.base]
  have hlength : ((m₁.lockAll segment).freeConventionalRuns memMap).pageMap.length =
      bitmapSize memMap := hruns.size.trans hsize₁
  have hlow := hd.low
  have hcount : initialPageBitmapPageCount = 16384 := rfl
  -- the phases from the last one back: the kernel, the bitmap, the runs, all pages
  have hbitmap := get_lockPages ((m₁.lockAll segment).freeConventionalRuns memMap)
    (i := segmentPage memMap) (n := bitmapSize memMap / pageSize + 1)
    (by unfold bitmapSize pageSize; omega) p
  rw [get_freeConventionalRuns hmap, get_lockAll (hT₁ ▸ hle) segment (hT₁ ▸ hp), hT₁,
    ← Bool.decide_and, hruns.size, hsize₁] at hbitmap
  rw [hm, finalPhase, hbase₁, hlength, get_lockKernel, hbitmap, (lockPages_same _ _ _).size,
    hruns.size, hsize₁, ← Bool.decide_or, ← Bool.decide_or]
  refine decide_eq_decide.2 (or_assoc.trans (or_congr_right (or_congr ?_ (and_iff_left hp))))
  unfold BitmapLocks
  omega

/-- Below `TotalPages`, the clear pages are those that are conventional memory and that neither the
bitmap nor the kernel has locked again. -/
theorem initPhysical_get (hboot : s.pmm = boot) (hmap : WellFormedMap memMap)
    (h : s.initPhysical image memMap = some m) {p : ℕ} (hp : p < describedPages memMap) :
    m.pageMap.get p =
      decide (¬ Conventional memMap p ∨ BitmapLocks memMap p ∨ image.Locks p) := by
  rw [initPhysical_bit hboot hmap h (by unfold bitmapSize; omega)]
  exact decide_eq_decide.2 (or_congr_left (and_iff_right (.inl hp)))

end InitPhysical

/-! ### Counting used pages -/

namespace PhysicalMemoryManager

/-- The pages with a set bit. -/
def usedPages (m : PhysicalMemoryManager) : Finset ℕ :=
  (Finset.range (8 * m.pageMap.size)).filter fun p => m.pageMap.get p = true

/-- `TotalUsedPages` is the number of set bits. -/
def CountsUsed (m : PhysicalMemoryManager) : Prop := m.totalUsedPages = m.usedPages.card

theorem mem_usedPages {m : PhysicalMemoryManager} {p : ℕ} :
    p ∈ m.usedPages ↔ m.pageMap.get p = true := by
  rw [usedPages, Finset.mem_filter, Finset.mem_range, and_iff_right_iff_imp]
  intro h
  have := Bitmap.lt_of_get h
  omega

theorem card_usedPages_le (m : PhysicalMemoryManager) : m.usedPages.card ≤ 8 * m.pageMap.size :=
  (Finset.card_filter_le _ _).trans_eq (Finset.card_range _)

theorem lockPage_countsUsed {m : PhysicalMemoryManager} (hsize : m.pageMap.size ≤ 2 ^ 52)
    (h : m.CountsUsed) (a : ℕ) : (m.lockPage a).CountsUsed := by
  have hcard := card_usedPages_le m
  by_cases hget : m.pageMap.get (a / pageSize) = true
  · rwa [lockPage, if_pos hget]
  · have hset := Bitmap.set_snd m.pageMap (a / pageSize) true
    by_cases hin : a / pageSize / 8 < m.pageMap.size
    · have hpages : (m.lockPage a).usedPages = insert (a / pageSize) m.usedPages := by
        ext p
        rw [Finset.mem_insert, mem_usedPages, mem_usedPages, get_lockPage, Bool.or_eq_true,
          decide_eq_true_iff, and_iff_left hin, or_comm]
      have hnew : a / pageSize ∉ m.usedPages := fun hp => hget (mem_usedPages.1 hp)
      rw [decide_eq_true hin] at hset
      rw [CountsUsed, hpages, Finset.card_insert_of_notMem hnew, ← h, lockPage, if_neg hget,
        if_pos hset]
      exact add64_of_lt (by rw [h]; omega)
    · have hpages : (m.lockPage a).usedPages = m.usedPages := by
        ext p
        rw [mem_usedPages, mem_usedPages, get_lockPage,
          decide_eq_false fun hp => hin hp.2, Bool.or_false]
      rw [decide_eq_false hin] at hset
      rw [CountsUsed, hpages, lockPage, if_neg hget,
        if_neg (by rw [hset]; exact Bool.false_ne_true)]
      exact h

theorem freePage_countsUsed {m : PhysicalMemoryManager} (hsize : m.pageMap.size ≤ 2 ^ 52)
    (h : m.CountsUsed) (a : ℕ) : (m.freePage a).CountsUsed := by
  have hcard := card_usedPages_le m
  cases hget : m.pageMap.get (a / pageSize) with
  | false => rwa [freePage, if_pos hget]
  | true =>
    have hset := Bitmap.set_snd m.pageMap (a / pageSize) false
    rw [decide_eq_true (Bitmap.lt_of_get hget)] at hset
    have hpages : (m.freePage a).usedPages = m.usedPages.erase (a / pageSize) := by
      ext p
      rw [Finset.mem_erase, mem_usedPages, mem_usedPages, get_freePage, Bool.and_eq_true,
        decide_eq_true_iff, and_comm]
    have hmem : a / pageSize ∈ m.usedPages := mem_usedPages.2 hget
    have hpos := Finset.card_pos.2 ⟨_, hmem⟩
    rw [CountsUsed, hpages, Finset.card_erase_of_mem hmem, ← h, freePage,
      if_neg (by rw [hget]; decide), if_pos hset]
    rw [← h] at hpos hcard
    exact sub64_of_le hpos (by omega)

theorem lockPages_countsUsed {m : PhysicalMemoryManager} (hsize : m.pageMap.size ≤ 2 ^ 52)
    (h : m.CountsUsed) (a n : ℕ) : (m.lockPages a n).CountsUsed := by
  induction n with
  | zero => exact h
  | succ n ih => exact lockPage_countsUsed ((lockPages_same m a n).size.trans_le hsize) ih _

theorem freePages_countsUsed {m : PhysicalMemoryManager} (hsize : m.pageMap.size ≤ 2 ^ 52)
    (h : m.CountsUsed) (a n : ℕ) : (m.freePages a n).CountsUsed := by
  induction n with
  | zero => exact h
  | succ n ih => exact freePage_countsUsed ((freePages_same m a n).size.trans_le hsize) ih _

theorem freeConventionalRuns_countsUsed {m : PhysicalMemoryManager}
    (hsize : m.pageMap.size ≤ 2 ^ 52) (h : m.CountsUsed) (memMap : List EfiMemoryDescriptor) :
    (m.freeConventionalRuns memMap).CountsUsed := by
  induction memMap generalizing m with
  | nil => exact h
  | cons d memMap ih =>
    have hfree := freePages_countsUsed hsize h d.physicalAddress d.numPages
    have hsize' := (freePages_same m d.physicalAddress d.numPages).size.trans_le hsize
    unfold freeConventionalRuns at ih ⊢
    rw [List.foldl_cons]
    dsimp only
    split_ifs
    · exact ih hsize' hfree
    · exact ih hsize' hfree
    · exact ih hsize h

end PhysicalMemoryManager

/-- **`TotalUsedPages` is the number of set bits** when `init_physical` returns. -/
theorem initPhysical_usedPages {s : Machine} {image : KernelImage}
    {memMap : List EfiMemoryDescriptor} {m : PhysicalMemoryManager} (hboot : s.pmm = boot)
    (hmap : WellFormedMap memMap) (h : s.initPhysical image memMap = some m) : m.CountsUsed := by
  have hle := hmap.describedPages_le
  have hsize := (initPhysical_totalPages hboot hle h).2
  obtain ⟨-, rfl⟩ := initPhysical_finalPhase h
  generalize (s.initialPhase image memMap).pmm = m₁ at hsize ⊢
  generalize (largestFreeMemorySegment memMap).1 = segment at hsize ⊢
  have hsame := finalPhase_same m₁ image memMap segment
  have hsmall : (m₁.lockAll segment).pageMap.size ≤ 2 ^ 52 := by
    rw [← hsame.size, hsize]
    omega
  have hinit : CountsUsed { m₁ with
      pageMap := m₁.pageMap.init (m₁.totalPages / 8 + 1) segment, totalUsedPages := 0 } := by
    refine (Finset.card_eq_zero.2 (Finset.eq_empty_of_forall_notMem fun p hp => ?_)).symm
    have hget := mem_usedPages.1 hp
    dsimp only at hget
    rw [Bitmap.get_init] at hget
    cases hget
  have hlock : (m₁.lockAll segment).CountsUsed :=
    lockPages_countsUsed (by rw [← (lockAll_same m₁ segment).2.1]; exact hsmall) hinit 0 _
  have hruns := freeConventionalRuns_countsUsed hsmall hlock memMap
  have hruns_small := (freeConventionalRuns_same (m₁.lockAll segment) memMap).size.trans_le hsmall
  rw [finalPhase]
  refine lockPages_countsUsed ?_ (lockPages_countsUsed hruns_small hruns _ _) _ _
  exact (lockPages_same _ _ _).size.trans_le hruns_small

end Eterna
