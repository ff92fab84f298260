import Eterna.Memory.Prekernel

/-!
# What `init_physical` reserves

When `init_physical` replaces the first bitmap by the final one, it has to keep the page tables it
has just taken, the kernel, and the final bitmap itself out of the free pages, and to leave all
other conventional memory free.  Each of these goes wrong for some memory maps; the results say for
which.

* `bitmap_apart_iff` : when the final bitmap is placed where nothing else is;
* `reserved_pages_used_iff` : when the kernel and the bitmap are locked as a whole;
* `page_tables_used_iff` : when the page tables of the first phase stay locked;
* `conventional_pages_free_iff` : when all other conventional memory can be handed out.
-/

namespace Eterna

open PhysicalMemoryManager
open Prekernel (missingTables)

/-- The page and the bytes from `start` on have a byte in common. -/
def Overlaps (p start bytes : ℕ) : Prop :=
  max (p * pageSize) start < min ((p + 1) * pageSize) (start + bytes)

theorem overlaps_iff {p b n : ℕ} :
    Overlaps p (b * pageSize) n ↔ b ≤ p ∧ p * pageSize < b * pageSize + n := by
  unfold Overlaps pageSize
  omega

theorem overlaps_kernel_iff {p n : ℕ} :
    Overlaps p kernelPhysical n ↔ 256 ≤ p ∧ p * pageSize < kernelPhysical + n :=
  overlaps_iff (b := 256)

theorem KernelImage.Locks.overlaps {image : KernelImage} {p : ℕ} (h : image.Locks p) :
    Overlaps p kernelPhysical image.byteCount := by
  obtain ⟨h1, h2⟩ := h
  rw [overlaps_kernel_iff]
  unfold pageSize kernelPhysical at *
  omega

section Reserved

variable {s : Machine} {image : KernelImage} {memMap : List EfiMemoryDescriptor}
  {m : PhysicalMemoryManager}

theorem initPhysical_storage (hboot : s.pmm = boot) (hmap : WellFormedMap memMap)
    (h : s.initPhysical image memMap = some m) :
    m.pageMap.base = segmentPage memMap * pageSize ∧ m.pageMap.size = bitmapSize memMap ∧
      (largestFreeMemorySegment memMap).1 = segmentPage memMap * pageSize := by
  obtain ⟨d, hd⟩ := exists_bitmapSegment hmap (initPhysical_finalPhase h).1
  have hsegment : (largestFreeMemorySegment memMap).1 = segmentPage memMap * pageSize := by
    rw [hd.chosen, hd.address]
  exact ⟨(initPhysical_base h).trans hsegment,
    (initPhysical_totalPages hboot hmap.describedPages_le h).2, hsegment⟩

/-! ### The kernel and the bitmap -/

/-- Every page below `TotalPages` that has a byte of the kernel image or of the bitmap is used. -/
def ReservedPagesUsed (image : KernelImage) (m : PhysicalMemoryManager) : Prop :=
  ∀ p < m.totalPages, Overlaps p kernelPhysical image.byteCount ∨
    Overlaps p m.pageMap.base m.pageMap.size → m.pageMap.get p = true

/-- The kernel ends at a page boundary, or the page it ends in is not one that `init_physical`
frees: it lies beyond `TotalPages`, is no conventional memory, or is locked with the bitmap. -/
def LastKernelPageKept (image : KernelImage) (memMap : List EfiMemoryDescriptor) : Prop :=
  image.byteCount % pageSize = 0 ∨
    let p := kernelPhysical / pageSize + image.byteCount / pageSize
    describedPages memMap ≤ p ∨ ¬ Conventional memMap p ∨ BitmapLocks memMap p

/-- **When the kernel and the bitmap are locked as a whole**: the number of the kernel's pages is
rounded down, so the page it ends in is locked only by chance. -/
theorem reserved_pages_used_iff (hboot : s.pmm = boot) (hmap : WellFormedMap memMap)
    (h : s.initPhysical image memMap = some m) :
    ReservedPagesUsed image m ↔ LastKernelPageKept image memMap := by
  obtain ⟨hbase, hsize, -⟩ := initPhysical_storage hboot hmap h
  have hT := (initPhysical_totalPages hboot hmap.describedPages_le h).1
  have hget := fun p (hp : p < describedPages memMap) => initPhysical_get hboot hmap h hp
  unfold ReservedPagesUsed
  rw [hT, hbase, hsize]
  constructor
  · intro hused
    refine or_iff_not_imp_left.2 fun hpartial => ?_
    dsimp only
    refine or_iff_not_imp_left.2 fun hlt => ?_
    -- the page that the kernel ends in
    have hp := hused _ (Nat.lt_of_not_le hlt) (.inl (overlaps_kernel_iff.2 ?_))
    · rw [hget _ (Nat.lt_of_not_le hlt), decide_eq_true_iff] at hp
      refine hp.imp_right fun hor => hor.resolve_right fun hlocks => ?_
      exact Nat.lt_irrefl _ hlocks.2
    · unfold pageSize kernelPhysical at *
      omega
  · intro hkept p hp hoverlap
    rw [hget p hp, decide_eq_true_iff]
    rcases hoverlap with hkernel | hbitmap
    · by_cases hlocks : image.Locks p
      · exact .inr (.inr hlocks)
      · -- the only page of the kernel that is not locked is the one it ends in
        rw [overlaps_kernel_iff] at hkernel
        have hlast : p = kernelPhysical / pageSize + image.byteCount / pageSize ∧
            image.byteCount % pageSize ≠ 0 := by
          unfold KernelImage.Locks at hlocks
          unfold pageSize kernelPhysical at *
          omega
        rcases hkept.resolve_left hlast.2 with hbeyond | hkept
        · omega
        · rw [hlast.1]
          exact hkept.imp_right .inl
    · rw [overlaps_iff] at hbitmap
      refine .inr (.inl ⟨hbitmap.1, ?_⟩)
      unfold pageSize at *
      omega

theorem reserved_pages_used_iff_boot : ∃ m,
    Machine.boot.initPhysical KernelImage.empty bootMap = some m ∧
      (ReservedPagesUsed KernelImage.empty m ↔ LastKernelPageKept KernelImage.empty bootMap) := by
  obtain ⟨m, hm⟩ := initPhysical_boot
  exact ⟨m, hm, reserved_pages_used_iff (s := Machine.boot) rfl wellFormedMap_boot hm⟩

/-- A kernel that ends one byte into its fourth page. -/
def KernelImage.ragged : KernelImage :=
  ⟨kernelStart + 0x3001, kernelStart + 0x1000, by decide, by decide⟩

/-- A memory map with one segment, 2 MiB of conventional memory from the kernel on. -/
def kernelMap : List EfiMemoryDescriptor := [⟨conventionalMemory, 0x100000, 512⟩]

theorem wellFormedMap_kernelMap : WellFormedMap kernelMap where
  aligned := by decide
  inside := by decide
  disjoint := List.pairwise_singleton _ _

theorem conventional_kernelMap {p : ℕ} (h : 256 ≤ p ∧ p < 768) : Conventional kernelMap p :=
  ⟨_, List.mem_singleton_self _, rfl, Finset.mem_Ico.2 h⟩

/-- The last page of such a kernel is free when `init_physical` returns. -/
theorem last_kernel_page_free : ¬ ∀ (s : Machine) (image : KernelImage)
    (memMap : List EfiMemoryDescriptor) (m : PhysicalMemoryManager), s.pmm = boot →
    WellFormedMap memMap → s.initPhysical image memMap = some m → ReservedPagesUsed image m := by
  intro hall
  obtain ⟨m, hm⟩ : ∃ m, Machine.boot.initPhysical KernelImage.ragged kernelMap = some m :=
    initPhysical_isSome _ _ (by decide) (by decide)
  have hT := (initPhysical_totalPages (s := Machine.boot) rfl (by decide) hm).1
  have hget := initPhysical_get (s := Machine.boot) (p := 259) rfl wellFormedMap_kernelMap hm
    (by decide)
  have hused := hall Machine.boot KernelImage.ragged kernelMap m rfl wellFormedMap_kernelMap hm 259
    (by rw [hT]; decide) (.inl (by unfold Overlaps; decide))
  rw [hget, decide_eq_true_iff] at hused
  rcases hused with hconv | hbitmap | hkernel
  · exact hconv (conventional_kernelMap (by decide))
  · revert hbitmap
    decide
  · revert hkernel
    decide

end Reserved

section Tables

variable {k : Prekernel} {rest : PhysicalMemory} {memMap : List EfiMemoryDescriptor}
  {m : PhysicalMemoryManager}

/-- Pages of the first phase lie below `TotalPages`, and there is something to map only if
`total_ram()` has not wrapped around to zero. -/
theorem handedOut_lt (hmap : WellFormedMap memMap)
    (h : (k.machine rest).initPhysical k.toKernelImage memMap = some m) {p : ℕ}
    (hp : p ∈ m.handedOut) :
    p < describedPages memMap ∧ p * pageSize < mul64 (describedPages memMap) pageSize := by
  obtain ⟨hvacant, hcount⟩ := (k.mem_handedOut rest hmap h p).1 hp
  have hle := hmap.describedPages_le
  have hlt := hvacant.1
  refine ⟨hlt, ?_⟩
  obtain heq | hne := Nat.eq_or_lt_of_le hle
  · have hzero : missingTables (2 ^ 52) = 0 := by decide
    rw [heq, hzero] at hcount
    exact absurd hcount (Nat.not_lt_zero _)
  · rw [mul64_of_lt (by unfold pageSize; omega)]
    exact Nat.mul_lt_mul_of_pos_right hlt (by decide)

/-! ### Where the final bitmap lies -/

/-- The bytes of the final bitmap lie in the segment that was chosen for it and in the range that
the first phase has mapped, and no page table of the first phase and no page of the kernel has one
of them. -/
structure BitmapApart (image : KernelImage) (memMap : List EfiMemoryDescriptor)
    (m : PhysicalMemoryManager) : Prop where
  segment : m.pageMap.base = (largestFreeMemorySegment memMap).1 ∧
    m.pageMap.base + m.pageMap.size ≤
      (largestFreeMemorySegment memMap).1 + (largestFreeMemorySegment memMap).2 * pageSize
  mapped : m.pageMap.base + m.pageMap.size ≤ initialPageBitmapMaxAddress
  tables : ∀ p ∈ m.handedOut, ¬ Overlaps p m.pageMap.base m.pageMap.size
  kernel : ∀ p, Overlaps p kernelPhysical image.byteCount →
    ¬ Overlaps p m.pageMap.base m.pageMap.size

/-- The segment has room for the bitmap, below 64 MiB and apart from the kernel, and either it lies
beyond `TotalPages` or there are as many vacant pages below it as the first phase needs. -/
structure BitmapFits (image : KernelImage) (memMap : List EfiMemoryDescriptor) : Prop where
  room : bitmapSize memMap ≤ (largestFreeMemorySegment memMap).2 * pageSize
  low : (largestFreeMemorySegment memMap).1 + bitmapSize memMap ≤ initialPageBitmapMaxAddress
  kernel : (largestFreeMemorySegment memMap).1 + bitmapSize memMap ≤ kernelPhysical ∨
    kernelPhysical + image.byteCount ≤ (largestFreeMemorySegment memMap).1
  below : describedPages memMap ≤ segmentPage memMap ∨
    missingTables (describedPages memMap) ≤ Nat.count (Vacant image memMap) (segmentPage memMap)

theorem Prekernel.apart_iff {b n : ℕ} (hn : 0 < n) :
    (∀ p, Overlaps p kernelPhysical k.toKernelImage.byteCount → ¬ Overlaps p (b * pageSize) n) ↔
      b * pageSize + n ≤ kernelPhysical ∨
        kernelPhysical + k.toKernelImage.byteCount ≤ b * pageSize := by
  have hpos : 0 < k.toKernelImage.byteCount := by
    have h1 := k.start_le_pml4
    have h2 := k.tables_le_end
    by_contra hzero
    rw [Nat.eq_zero_of_not_pos hzero, Nat.zero_div] at h2
    omega
  constructor
  · intro hapart
    by_contra hnot
    have h := hapart (max 256 b)
    rw [overlaps_kernel_iff, overlaps_iff] at h
    unfold pageSize kernelPhysical at *
    omega
  · intro hor p
    rw [overlaps_kernel_iff, overlaps_iff]
    unfold pageSize kernelPhysical at *
    omega

/-- **When the final bitmap is placed where nothing else is**: the search for the segment adds a
number of pages to an address, does not know how large the bitmap will be, and does not know of the
pages that are taken for page tables before the bitmap is cleared. -/
theorem bitmap_apart_iff (hmap : WellFormedMap memMap)
    (h : (k.machine rest).initPhysical k.toKernelImage memMap = some m) :
    BitmapApart k.toKernelImage memMap m ↔ BitmapFits k.toKernelImage memMap := by
  obtain ⟨hbase, hsize, hsegment⟩ := initPhysical_storage (s := k.machine rest) rfl hmap h
  obtain ⟨d, hd⟩ := exists_bitmapSegment hmap (initPhysical_finalPhase h).1
  have hpos : 0 < bitmapSize memMap := Nat.succ_pos _
  have hkernel := k.apart_iff (b := segmentPage memMap) hpos
  constructor
  · rintro ⟨⟨-, hroom⟩, hlow, htables, hapart⟩
    rw [hbase, hsize] at htables hapart hlow hroom
    rw [hsegment] at hroom
    refine ⟨by omega, hsegment ▸ hlow, hsegment ▸ hkernel.1 hapart, ?_⟩
    -- the first page of the bitmap is vacant, and must not be among the first vacant pages
    refine or_iff_not_imp_left.2 fun hbeyond => Nat.le_of_not_lt fun hfew => ?_
    have hfirst : Overlaps (segmentPage memMap) (segmentPage memMap * pageSize)
        (bitmapSize memMap) := overlaps_iff.2 ⟨le_rfl, by omega⟩
    have hconv : Conventional memMap (segmentPage memMap) := by
      refine ⟨d, hd.mem, hd.type, ?_⟩
      have := hd.nonempty
      rw [hd.pages]
      exact Finset.mem_Ico.2 (by omega)
    have hvacant : Vacant k.toKernelImage memMap (segmentPage memMap) :=
      ⟨Nat.lt_of_not_le hbeyond, .inr ⟨hconv, fun hlocks => hapart _ hlocks.overlaps hfirst⟩⟩
    exact htables _ ((k.mem_handedOut rest hmap h _).2 ⟨hvacant, hfew⟩) hfirst
  · rintro ⟨hroom, hlow, hapart, hbelow⟩
    rw [hsegment] at hlow hapart
    refine ⟨⟨hbase.trans hsegment.symm, ?_⟩, ?_, fun p hp => ?_, ?_⟩
    · rw [hbase, hsize, hsegment]
      omega
    · rw [hbase, hsize]
      exact hlow
    · obtain ⟨hvacant, hcount⟩ := (k.mem_handedOut rest hmap h p).1 hp
      rw [hbase, hsize, overlaps_iff]
      rintro ⟨hle, -⟩
      have hmono := Nat.count_monotone (Vacant k.toKernelImage memMap) hle
      have hlt := hvacant.1
      omega
    · rw [hbase, hsize]
      exact hkernel.2 hapart

/-- A kernel of 128 KiB, with the tables of `prekernel.asm` in its middle. -/
def Prekernel.small : Prekernel where
  kernelEnd := kernelStart + 0x20000
  initialPageBitmap := kernelStart + 0x18000
  start_le := by decide
  end_lt := by decide
  pml4 := 272
  start_le_pml4 := by decide
  tables_le_end := by decide
  mapped := by decide

/-- The type of the memory that the boot loader has put the kernel into. -/
def loaderData : ℕ := 2

/-- A memory map with a kernel and, behind it, one segment of conventional memory. -/
def tightMap : List EfiMemoryDescriptor :=
  [⟨loaderData, 0x100000, 32⟩, ⟨conventionalMemory, 0x200000, 1000⟩]

theorem wellFormedMap_tightMap : WellFormedMap tightMap where
  aligned := by decide
  inside := by decide
  disjoint := by
    refine List.pairwise_pair.2 (Finset.disjoint_left.2 fun p h1 h2 => ?_)
    simp only [EfiMemoryDescriptor.pages, Finset.mem_Ico, pageSize] at h1 h2
    omega

theorem conventional_tightMap {p : ℕ} : Conventional tightMap p ↔ 512 ≤ p ∧ p < 1512 := by
  simp [Conventional, tightMap, EfiMemoryDescriptor.pages, loaderData, conventionalMemory, pageSize]

theorem initPhysical_tightMap : ∃ m, (Prekernel.small.machine fun _ => PageTable.zero).initPhysical
    Prekernel.small.toKernelImage tightMap = some m :=
  initPhysical_isSome _ _ (by decide) (by decide)

theorem bitmap_apart_iff_tight : ∃ m,
    (Prekernel.small.machine fun _ => PageTable.zero).initPhysical
      Prekernel.small.toKernelImage tightMap = some m ∧
    (BitmapApart Prekernel.small.toKernelImage tightMap m ↔
      BitmapFits Prekernel.small.toKernelImage tightMap) := by
  obtain ⟨m, hm⟩ := initPhysical_tightMap
  exact ⟨m, hm, bitmap_apart_iff wellFormedMap_tightMap hm⟩

/-- The first page table of the first phase is the first page of the segment, where the final bitmap
is put. -/
theorem bitmap_over_page_table : ¬ ∀ (k : Prekernel) (rest : PhysicalMemory)
    (memMap : List EfiMemoryDescriptor) (m : PhysicalMemoryManager), WellFormedMap memMap →
    (k.machine rest).initPhysical k.toKernelImage memMap = some m →
    BitmapApart k.toKernelImage memMap m := by
  intro hall
  obtain ⟨m, hm⟩ := initPhysical_tightMap
  obtain ⟨hbase, hsize, -⟩ := initPhysical_storage (s := Prekernel.small.machine _) rfl
    wellFormedMap_tightMap hm
  have hvacant : ∀ p < 512, ¬ Vacant Prekernel.small.toKernelImage tightMap p := by
    rintro p hp ⟨-, hle | ⟨hconv, -⟩⟩
    · have : initialPageBitmapPageCount = 16384 := rfl
      omega
    · have := conventional_tightMap.1 hconv
      omega
  have hout : 512 ∈ m.handedOut := by
    refine (Prekernel.mem_handedOut _ _ wellFormedMap_tightMap hm 512).2 ⟨⟨by decide, .inr
      ⟨conventional_tightMap.2 (by decide), by decide⟩⟩, ?_⟩
    rw [Nat.count_iff_forall_not.2 hvacant]
    decide
  refine (hall _ _ _ m wellFormedMap_tightMap hm).tables 512 hout ?_
  rw [hbase, hsize]
  unfold Overlaps
  decide

/-! ### The page tables of the first phase -/

/-- Every page table of the first phase is marked used and counted in `TotalUsedPages`. -/
def PageTablesUsed (m : PhysicalMemoryManager) : Prop :=
  m.totalUsedPages = m.usedPages.card ∧
    ∀ p ∈ m.handedOut, m.pageMap.get p = true ∧ p ∈ m.usedPages

/-- Every vacant page of conventional memory that the final bitmap leaves free comes after as many
vacant pages as the first phase needs. -/
def PageTablesCovered (image : KernelImage) (memMap : List EfiMemoryDescriptor) : Prop :=
  ∀ p, Vacant image memMap p → Conventional memMap p →
    BitmapLocks memMap p ∨ image.Locks p ∨
      missingTables (describedPages memMap) ≤ Nat.count (Vacant image memMap) p

/-- **When the page tables of the first phase stay locked**: the final bitmap is built from the
memory map alone, so a page table is free again unless it happens to lie where the bitmap or the
kernel is locked. -/
theorem page_tables_used_iff (hmap : WellFormedMap memMap)
    (h : (k.machine rest).initPhysical k.toKernelImage memMap = some m) :
    PageTablesUsed m ↔ PageTablesCovered k.toKernelImage memMap := by
  have hcounts := initPhysical_usedPages (s := k.machine rest) rfl hmap h
  have hget := fun p (hp : p < describedPages memMap) =>
    initPhysical_get (s := k.machine rest) rfl hmap h hp
  constructor
  · rintro ⟨-, hused⟩ p hvacant hconv
    by_cases hcount : Nat.count (Vacant k.toKernelImage memMap) p <
      missingTables (describedPages memMap)
    · have hp := (hused p ((k.mem_handedOut rest hmap h p).2 ⟨hvacant, hcount⟩)).1
      rw [hget p hvacant.1, decide_eq_true_iff] at hp
      rcases hp with hno | hbitmap | hkernel
      · exact absurd hconv hno
      · exact .inl hbitmap
      · exact .inr (.inl hkernel)
    · exact .inr (.inr (Nat.le_of_not_lt hcount))
  · refine fun hcovered => ⟨hcounts, fun p hp => ?_⟩
    obtain ⟨hvacant, hcount⟩ := (k.mem_handedOut rest hmap h p).1 hp
    have hset : m.pageMap.get p = true := by
      rw [hget p hvacant.1, decide_eq_true_iff]
      by_cases hconv : Conventional memMap p
      · rcases hcovered p hvacant hconv with hbitmap | hkernel | hle
        · exact .inr (.inl hbitmap)
        · exact .inr (.inr hkernel)
        · exact absurd hcount (Nat.not_lt.2 hle)
      · exact .inl hconv
    exact ⟨hset, mem_usedPages.2 hset⟩

/-- A memory map with a kernel between a small segment of conventional memory and a large one. -/
def splitMap : List EfiMemoryDescriptor :=
  [⟨loaderData, 0x100000, 32⟩, ⟨conventionalMemory, 0x1000, 100⟩,
    ⟨conventionalMemory, 0x200000, 1000⟩]

theorem wellFormedMap_splitMap : WellFormedMap splitMap where
  aligned := by decide
  inside := by decide
  disjoint := by
    simp only [splitMap, List.pairwise_cons, List.mem_cons, List.not_mem_nil, or_false,
      forall_eq_or_imp, forall_eq, IsEmpty.forall_iff, implies_true, List.Pairwise.nil, and_true,
      Finset.disjoint_left, EfiMemoryDescriptor.pages, Finset.mem_Ico, pageSize]
    refine ⟨⟨fun p _ => ?_, fun p _ => ?_⟩, fun p _ => ?_⟩ <;> omega

theorem conventional_splitMap {p : ℕ} :
    Conventional splitMap p ↔ 1 ≤ p ∧ p < 101 ∨ 512 ≤ p ∧ p < 1512 := by
  simp [Conventional, splitMap, EfiMemoryDescriptor.pages, loaderData, conventionalMemory, pageSize]

theorem initPhysical_splitMap : ∃ m, (Prekernel.small.machine fun _ => PageTable.zero).initPhysical
    Prekernel.small.toKernelImage splitMap = some m :=
  initPhysical_isSome _ _ (by decide) (by decide)

theorem page_tables_used_iff_split : ∃ m,
    (Prekernel.small.machine fun _ => PageTable.zero).initPhysical
      Prekernel.small.toKernelImage splitMap = some m ∧
    (PageTablesUsed m ↔ PageTablesCovered Prekernel.small.toKernelImage splitMap) := by
  obtain ⟨m, hm⟩ := initPhysical_splitMap
  exact ⟨m, hm, page_tables_used_iff wellFormedMap_splitMap hm⟩

/-- The first page table of the first phase is page 1, which is free again when `init_physical`
returns. -/
theorem page_table_free_again : ¬ ∀ (k : Prekernel) (rest : PhysicalMemory)
    (memMap : List EfiMemoryDescriptor) (m : PhysicalMemoryManager), WellFormedMap memMap →
    (k.machine rest).initPhysical k.toKernelImage memMap = some m → PageTablesUsed m := by
  intro hall
  obtain ⟨m, hm⟩ := initPhysical_splitMap
  have hout : 1 ∈ m.handedOut := by
    refine (Prekernel.mem_handedOut _ _ wellFormedMap_splitMap hm 1).2 ⟨⟨by decide, .inr
      ⟨conventional_splitMap.2 (by decide), by decide⟩⟩, ?_⟩
    have hone : 1 < missingTables (describedPages splitMap) := by decide
    exact Nat.lt_of_le_of_lt (Nat.count_le _) hone
  have hused := ((hall _ _ _ m wellFormedMap_splitMap hm).2 1 hout).1
  rw [initPhysical_get (s := Prekernel.small.machine _) rfl wellFormedMap_splitMap hm (by decide),
    decide_eq_true_iff] at hused
  rcases hused with hconv | hbitmap | hkernel
  · exact hconv (conventional_splitMap.2 (by decide))
  · revert hbitmap
    decide
  · revert hkernel
    decide

/-! ### The other conventional pages -/

/-- Every page of conventional memory without a byte of the kernel or of the bitmap, other than the
page tables of the first phase, is clear, below `TotalPages` and below `total_ram()`. -/
def ConventionalPagesFree (image : KernelImage) (memMap : List EfiMemoryDescriptor)
    (m : PhysicalMemoryManager) : Prop :=
  ∀ p, Conventional memMap p → ¬ Overlaps p kernelPhysical image.byteCount →
    ¬ Overlaps p m.pageMap.base m.pageMap.size → p ∉ m.handedOut →
    p < m.totalPages ∧ m.pageMap.get p = false ∧ p * pageSize < m.totalRam

/-- Every page of conventional memory without a byte of the kernel or of the bitmap lies below
`TotalPages * PAGE_SIZE`; and if the bitmap fills its last page, the page behind it, which is locked
with it, is no other conventional page than one that the first phase takes. -/
structure ConventionalPagesLow (image : KernelImage) (memMap : List EfiMemoryDescriptor) :
    Prop where
  low : ∀ p, Conventional memMap p → ¬ Overlaps p kernelPhysical image.byteCount →
    ¬ Overlaps p (largestFreeMemorySegment memMap).1 (bitmapSize memMap) →
    p * pageSize < mul64 (describedPages memMap) pageSize
  behind : bitmapSize memMap % pageSize = 0 →
    let p := segmentPage memMap + bitmapSize memMap / pageSize
    Conventional memMap p → ¬ Overlaps p kernelPhysical image.byteCount →
      Nat.count (Vacant image memMap) p < missingTables (describedPages memMap)

/-- **When all other conventional memory can be handed out**: `TotalPages` is the number of pages
described, but serves as the bound for page numbers, so every gap in the memory map cuts pages off
its end. -/
theorem conventional_pages_free_iff (hmap : WellFormedMap memMap)
    (h : (k.machine rest).initPhysical k.toKernelImage memMap = some m) :
    ConventionalPagesFree k.toKernelImage memMap m ↔
      ConventionalPagesLow k.toKernelImage memMap := by
  obtain ⟨hbase, hsize, hsegment⟩ := initPhysical_storage (s := k.machine rest) rfl hmap h
  have hT := (initPhysical_totalPages (s := k.machine rest) rfl hmap.describedPages_le h).1
  have hget := fun p (hp : p < describedPages memMap) =>
    initPhysical_get (s := k.machine rest) rfl hmap h hp
  have hram : ∀ p, p * pageSize < mul64 (describedPages memMap) pageSize →
      p < describedPages memMap := by
    intro p hp
    have hmod : mul64 (describedPages memMap) pageSize ≤ describedPages memMap * pageSize :=
      Nat.mod_le _ _
    exact Nat.lt_of_mul_lt_mul_right (hp.trans_le hmod)
  unfold ConventionalPagesFree PhysicalMemoryManager.totalRam
  rw [hbase, hsize, hT]
  constructor
  · intro hfree
    refine ⟨fun p hconv hkernel hbitmap => ?_, fun hfull => ?_⟩
    · rw [hsegment] at hbitmap
      by_cases hout : p ∈ m.handedOut
      · exact (handedOut_lt hmap h hout).2
      · exact (hfree p hconv hkernel hbitmap hout).2.2
    · intro p hconv hkernel
      have hbehind : ¬ Overlaps p (segmentPage memMap * pageSize) (bitmapSize memMap) := by
        rw [overlaps_iff]
        dsimp only [p]
        unfold pageSize at *
        omega
      by_contra hcount
      have hout : p ∉ m.handedOut := fun hout => hcount ((k.mem_handedOut rest hmap h p).1 hout).2
      obtain ⟨hlt, hclear, -⟩ := hfree p hconv hkernel hbehind hout
      -- the page is locked together with the bitmap
      rw [hget p hlt, decide_eq_false_iff_not] at hclear
      exact hclear (.inr (.inl ⟨Nat.le_add_right _ _, le_rfl⟩))
  · rintro ⟨hlow, hbehind⟩ p hconv hkernel hbitmap hout
    rw [hsegment] at hlow
    have hlt := hlow p hconv hkernel hbitmap
    refine ⟨hram p hlt, ?_, hlt⟩
    rw [hget p (hram p hlt), decide_eq_false_iff_not]
    rintro (hno | ⟨hge, hle⟩ | hlocks)
    · exact hno hconv
    · rw [overlaps_iff] at hbitmap
      have hlast : p = segmentPage memMap + bitmapSize memMap / pageSize ∧
          bitmapSize memMap % pageSize = 0 := by
        unfold pageSize at *
        omega
      obtain ⟨rfl, hfull⟩ := hlast
      refine hout ((k.mem_handedOut rest hmap h _).2 ⟨⟨hram _ hlt, .inr ⟨hconv, ?_⟩⟩,
        hbehind hfull hconv hkernel⟩)
      exact fun hlocks => hkernel hlocks.overlaps
    · exact hkernel hlocks.overlaps

theorem conventional_pages_free_iff_split : ∃ m,
    (Prekernel.small.machine fun _ => PageTable.zero).initPhysical
      Prekernel.small.toKernelImage splitMap = some m ∧
    (ConventionalPagesFree Prekernel.small.toKernelImage splitMap m ↔
      ConventionalPagesLow Prekernel.small.toKernelImage splitMap) := by
  obtain ⟨m, hm⟩ := initPhysical_splitMap
  exact ⟨m, hm, conventional_pages_free_iff wellFormedMap_splitMap hm⟩

/-- The last pages of conventional memory lie beyond `TotalPages`. -/
theorem last_pages_beyond_total : ¬ ∀ (k : Prekernel) (rest : PhysicalMemory)
    (memMap : List EfiMemoryDescriptor) (m : PhysicalMemoryManager), WellFormedMap memMap →
    (k.machine rest).initPhysical k.toKernelImage memMap = some m →
    ConventionalPagesFree k.toKernelImage memMap m := by
  intro hall
  obtain ⟨m, hm⟩ := initPhysical_splitMap
  obtain ⟨hbase, hsize, -⟩ := initPhysical_storage (s := Prekernel.small.machine _) rfl
    wellFormedMap_splitMap hm
  have hT := (initPhysical_totalPages (s := Prekernel.small.machine _) rfl (by decide) hm).1
  have hout : 1500 ∉ m.handedOut := fun hout =>
    absurd (handedOut_lt wellFormedMap_splitMap hm hout).1 (by decide)
  have hlt := (hall _ _ _ m wellFormedMap_splitMap hm 1500 (conventional_splitMap.2 (by decide))
    (by unfold Overlaps; decide) (by rw [hbase, hsize]; unfold Overlaps; decide) hout).1
  rw [hT] at hlt
  revert hlt
  decide

end Tables

end Eterna
