import Eterna.Memory.HeapAbove
import Eterna.Memory.IdentityMap

/-!
# From the prekernel to the running kernel

`kstage1` calls `init_physical`, `init_virtual()` and `init_heap`, on the page tables that
`prekernel.asm` has left.  From then on the kernel allocates, requests and frees pages, and maps
them.

* `Prekernel.bootMemory` : the three calls, one after the other;
* `Prekernel.apart_afterPhysical` : the page tables of the prekernel are not handed out again;
* `Booted` : physical memory and the kernel are mapped, and only conventional memory is free;
* `memory_stays_mapped` : how memory is mapped in every state that the kernel can reach.
-/

namespace Eterna

open ByteMemory SegmentChain Runs PhysicalMemoryManager TableWalk Machine
open PageDirectoryEntry (next)

/-! ### The three calls -/

/-- The machine after `init_physical`, which may never return. -/
def Machine.afterPhysical (s : Machine) (image : KernelImage) (memMap : List EfiMemoryDescriptor) :
    Option Machine :=
  (s.initPhysical image memMap).map fun m => { s.initialPhase image memMap with pmm := m }

theorem Machine.afterPhysical_eq {s t : Machine} {image : KernelImage}
    {memMap : List EfiMemoryDescriptor} (h : s.afterPhysical image memMap = some t) :
    s.initPhysical image memMap = some t.pmm ∧ t.ram = (s.initialPhase image memMap).ram ∧
      t.activePageMap = (s.initialPhase image memMap).activePageMap := by
  rw [afterPhysical, Option.map_eq_some_iff] at h
  obtain ⟨m, hm, rfl⟩ := h
  exact ⟨hm, rfl, rfl⟩

/-- `init_physical`, `init_virtual()` and `init_heap` in `kstage1`. -/
def Prekernel.bootMemory (k : Prekernel) (rest : PhysicalMemory) (mem : Memory)
    (memMap : List EfiMemoryDescriptor) : Option Kernel :=
  ((k.machine rest).afterPhysical k.toKernelImage memMap).map fun s =>
    ⟨⟨Heap.initHeap ⟨s.initVirtualFresh k.toKernelImage, mem, 0, 0, 0⟩, []⟩, []⟩

/-- What the calls rely on: `init_virtual` gets a page, which holds zeros, and `request_page` finds
the pages for the tables and for the heap. -/
structure BootSupplied (s : Machine) (image : KernelImage) : Prop where
  page : s.requestPage.2 ≠ 0
  zero : s.ram (frameOf s.requestPage.2) = PageTable.zero
  tables : s.requestPage.1.InitSupplied image s.requestPage.2
  heap : (s.initVirtualFresh image).PageSupplied heapVirtualBase

/-- Physical memory ends below the kernel, and the kernel below the heap. -/
structure Roomy (image : KernelImage) (memMap : List EfiMemoryDescriptor) : Prop where
  memory : describedPages memMap * pageSize ≤ kernelStart % 2 ^ 48
  kernel : kernelWindowPages image ≤ 2 ^ 19 - 256 - 4096

/-! ### `init_virtual` on a new page map -/

theorem Machine.unmap_flush_pmm (t : Machine) (pml4 v pageMap : ℕ) :
    ((t.unmap pml4 v).flushPageMap pageMap).pmm = t.pmm := rfl

/-- Taking out the null page and loading the page map do not change the allocator. -/
theorem Machine.initVirtual_pmm (s : Machine) (image : KernelImage) (pageMap : ℕ) :
    (s.initVirtual image pageMap).pmm = (s.mapLoops image pageMap).pmm := by
  rw [initVirtual]
  exact unmap_flush_pmm _ _ _ _

section InitVirtual

variable {s : Machine} {image : KernelImage} {pageMap : ℕ} (h0 : pageMap ≠ 0)
  (hwf : WellFormed s.ram pageMap) (hfresh : s.FreshFrames pageMap)
  (hsup : s.InitSupplied image pageMap) (hold : s.Apart s.activePageMap pageMap)
include h0 hwf hfresh hsup hold

theorem Machine.frame_initVirtual (w : ℕ) : (s.initVirtual image pageMap).frame w =
    translate (s.mapLoops image pageMap).ram pageMap w := by
  rw [frame, initVirtual_activePageMap, initVirtual_ram]
  exact unmap_other (mapLoops_translate h0 hwf hfresh hsup).1 hold w

theorem Machine.paged_initVirtual (hfits : s.pmm.Fits) : Paged (s.initVirtual image pageMap) [] ∧
    ∀ p, (s.initVirtual image pageMap).pmm.Free p → s.pmm.Free p := by
  obtain ⟨hext, -⟩ := mapLoops_translate h0 hwf hfresh hsup
  have hpmm := s.initVirtual_pmm image pageMap
  have hagree : ∀ f, IsTableOf (s.mapLoops image pageMap).ram pageMap f →
      (s.initVirtual image pageMap).ram f = (s.mapLoops image pageMap).ram f := by
    intro f hf
    rw [initVirtual_ram]
    exact unmap_agree hext hold hf
  refine ⟨⟨h0, hext.wellFormed.of_agree hagree, ⟨?_, fun f hf ht => ?_⟩, ?_,
    fun f hf => absurd hf List.not_mem_nil⟩, fun p hp => hext.free p (hpmm ▸ hp)⟩
  · rw [hpmm]
    exact hext.freshFrames.fits
  · rw [hpmm] at hf
    exact hext.freshFrames.fresh f hf ((isTable_of_agree hagree).1 ht)
  · rw [hpmm]
    exact mapPages_fits (mapPages_fits hfits _ _ _) _ _ _

end InitVirtual

/-! ### The page tables of the prekernel -/

namespace Prekernel

variable {k : Prekernel} {rest : PhysicalMemory} {memMap : List EfiMemoryDescriptor} {i : ℕ}

/-- **The loop of `init_physical`** leaves `prekernel_pml1` where it is. -/
theorem lowMapped_loopState (hmap : WellFormedMap memMap) (hi : i ≤ initialPageBitmapPageCount) :
    k.LowMapped (k.loopState rest memMap i) := by
  have hcount : initialPageBitmapPageCount = 16384 := rfl
  induction i with
  | zero => exact lowMapped_loopStart rest hmap
  | succ i ih =>
    obtain ⟨-, hserves, -⟩ := loopState_facts (k := k) rest hmap (Nat.le_of_succ_le hi)
    obtain ⟨g, hm, hcase⟩ := loopState_succ (k := k) rest hmap hi
    exact (ih (Nat.le_of_succ_le hi)).step hserves.total (Nat.succ_pos _) (by omega) hm hcase

/-- The page tables on the way to the null page. -/
theorem walk_initialPhase (hmap : WellFormedMap memMap) :
    let ram := ((k.machine rest).initialPhase k.toKernelImage memMap).ram
    (ram k.pml4 0).next = some k.pml3 ∧ (ram k.pml3 0).next = some k.pml2 ∧
      (ram k.pml2 0).next = some k.pml1 := by
  intro ram
  have hle : k.loopCount rest memMap ≤ initialPageBitmapPageCount := by
    rw [loopCount_eq rest hmap]
    exact identityPages_le _
  have hram : ram = (k.loopState rest memMap (k.loopCount rest memMap)).ram :=
    congrArg Machine.ram (k.initialPhase_eq rest memMap)
  obtain ⟨hreach, -⟩ := loopState_facts (k := k) rest hmap hle
  rw [hram]
  exact ⟨hreach.pml4, hreach.pml3, (lowMapped_loopState hmap hle).table⟩

theorem initialPhase_activePageMap :
    ((k.machine rest).initialPhase k.toKernelImage memMap).activePageMap = k.pml4 * pageSize := by
  rw [initialPhase_eq]
  exact (Machine.mapPages_keeps _ _).1

variable {s : Machine}

theorem afterPhysical_eq (h : (k.machine rest).afterPhysical k.toKernelImage memMap = some s) :
    (k.machine rest).initPhysical k.toKernelImage memMap = some s.pmm ∧
      s.ram = ((k.machine rest).initialPhase k.toKernelImage memMap).ram ∧
      s.activePageMap = k.pml4 * pageSize := by
  obtain ⟨hm, hram, hactive⟩ := Machine.afterPhysical_eq h
  exact ⟨hm, hram, hactive.trans initialPhase_activePageMap⟩

theorem free_afterPhysical (hmap : WellFormedMap memMap)
    (h : (k.machine rest).afterPhysical k.toKernelImage memMap = some s) {p : ℕ}
    (hp : s.pmm.Free p) :
    Conventional memMap p ∧ ¬ BitmapLocks memMap p ∧ ¬ k.toKernelImage.Locks p := by
  obtain ⟨hm, -⟩ := afterPhysical_eq h
  obtain ⟨-, hlt, hclear⟩ := hp
  have hT := (initPhysical_totalPages (s := k.machine rest) rfl hmap.describedPages_le hm).1
  have hget := initPhysical_get (s := k.machine rest) rfl hmap hm (hlt.trans_eq hT)
  have hnot := decide_eq_false_iff_not.1 (hget.symm.trans hclear)
  rwa [not_or, not_or, not_not] at hnot

theorem fits_afterPhysical (hmap : WellFormedMap memMap)
    (h : (k.machine rest).afterPhysical k.toKernelImage memMap = some s) :
    s.pmm.Fits ∧ s.pmm.totalPages = describedPages memMap := by
  obtain ⟨hm, -⟩ := afterPhysical_eq h
  exact ⟨fits_initPhysical (s := k.machine rest) rfl hmap hm,
    (initPhysical_totalPages (s := k.machine rest) rfl hmap.describedPages_le hm).1⟩

/-- A walk to the null page through known tables. -/
theorem mem_walk {ram : PhysicalMemory} {a b c d f : ℕ} (hb : (ram a 0).next = some b)
    (hc : (ram b 0).next = some c) (hd : (ram c 0).next = some d) {q : List (Fin 512)}
    (hq : q <+: [0, 0, 0]) (hf : follow rawNext ram a q = some f) : f ∈ [a, b, c, d] := by
  have hraw : ∀ {e : PageDirectoryEntry} {g : ℕ}, next e = some g → rawNext e = some g := by
    intro e g he
    unfold next at he
    split_ifs at he
    exact he
  obtain hnil | ⟨q₁, hcons, hq₁⟩ := List.prefix_cons_iff.1 hq
  · simp_all
  rw [hcons, follow_cons, hraw hb, Option.bind_some] at hf
  obtain hnil | ⟨q₂, hcons, hq₂⟩ := List.prefix_cons_iff.1 hq₁
  · simp_all
  rw [hcons, follow_cons, hraw hc, Option.bind_some] at hf
  obtain hnil | ⟨q₃, hcons, hq₃⟩ := List.prefix_cons_iff.1 hq₂
  · simp_all
  rw [hcons, follow_cons, hraw hd, Option.bind_some, List.prefix_nil.1 hq₃] at hf
  simp_all

theorem tables_zero : (PageMapIndexer.ofAddress 0).tables = [0, 0, 0] := by
  simp [PageMapIndexer.tables, PageMapIndexer.ofAddress, lowNine]

/-- The tables on the way to the null page are pages of the kernel image. -/
theorem locks_of_passes (hmap : WellFormedMap memMap)
    (h : (k.machine rest).afterPhysical k.toKernelImage memMap = some s) {f : ℕ}
    (hf : s.Passes s.activePageMap 0 f) : k.toKernelImage.Locks f := by
  obtain ⟨-, hram, hactive⟩ := afterPhysical_eq h
  obtain ⟨h4, h3, h2⟩ := @walk_initialPhase k rest memMap hmap
  rw [← hram] at h4 h3 h2
  obtain ⟨q, hq, hf⟩ := hf
  rw [hactive, frameOf_mul] at hf
  rw [tables_zero] at hq
  have hmem := mem_walk h4 h3 h2 hq hf
  have hstart := k.start_le_pml4
  have hend := k.tables_le_end
  unfold pml3 pml2 pml1 at hmem
  simp only [List.mem_cons, List.not_mem_nil, or_false] at hmem
  exact ⟨by omega, by omega⟩

/-- Before the loops of `init_virtual`, the page map is one empty table. -/
theorem newPageMap (hmap : WellFormedMap memMap) (hroomy : Roomy k.toKernelImage memMap)
    (h : (k.machine rest).afterPhysical k.toKernelImage memMap = some s)
    (hpage : s.requestPage.2 ≠ 0) (hcleared : s.ram (frameOf s.requestPage.2) = PageTable.zero) :
    WellFormed s.requestPage.1.ram s.requestPage.2 ∧
      s.requestPage.1.FreshFrames s.requestPage.2 ∧
      s.requestPage.1.Apart s.activePageMap s.requestPage.2 ∧
      (∀ p, s.requestPage.1.pmm.Free p → s.pmm.Free p) ∧
      ∀ w, translate s.requestPage.1.ram s.requestPage.2 w = none := by
  obtain ⟨hfits, hT⟩ := fits_afterPhysical hmap h
  have hempty : ∀ i, next (s.requestPage.1.ram (frameOf s.requestPage.2) i) = none := by
    intro i
    have hzero : s.requestPage.1.ram (frameOf s.requestPage.2) = PageTable.zero := hcleared
    rw [hzero]
    exact PageDirectoryEntry.next_zero
  have hroot : ∀ {f}, IsTableOf s.requestPage.1.ram s.requestPage.2 f →
      f = frameOf s.requestPage.2 := fun hf => isTable_of_empty hempty hf
  obtain ⟨n, hn, -, he⟩ | ⟨-, he⟩ := requestPage_cases hfits.1
  · have hframe : frameOf s.requestPage.2 = n := by
      rw [Machine.requestPage, he]
      exact frameOf_mul n
    have hfree : ∀ p, s.requestPage.1.pmm.Free p → s.pmm.Free p ∧ n < p := by
      intro p hp
      rw [Machine.requestPage, he] at hp
      exact (free_handOut hn.1).1 hp
    refine ⟨unshared_of_empty 3 hempty, ⟨?_, fun f hf ht => ?_⟩, fun f hf => ⟨fun ht => ?_, ?_⟩,
      fun p hp => (hfree p hp).1, fun w => ?_⟩
    · have hmemory := hroomy.memory
      rw [Machine.requestPage, he]
      refine (handOut_totalPages _ _).trans_le (hT.trans_le ?_)
      unfold pageSize kernelStart kernelPhysical kernelVirtual at hmemory
      omega
    · exact absurd ((hroot ht).trans hframe) (hfree f hf).2.ne'
    · -- a table of the prekernel is no page that has been handed out
      have hlocks := locks_of_passes hmap h hf
      rw [(hroot ht).trans hframe] at hlocks
      exact (free_afterPhysical hmap h hn).2.2 hlocks
    · intro hfree'
      exact (free_afterPhysical hmap h (hfree f hfree').1).2.2 (locks_of_passes hmap h hf)
    · rw [translate_eq_follow, pathOf, PageMapIndexer.path, PageMapIndexer.tables,
        List.cons_append, follow_cons, hempty]
      rfl
  · have hnull : s.requestPage.2 = 0 := by rw [Machine.requestPage, he]
    exact absurd hnull hpage

/-- **After `init_virtual()`** memory and the kernel are mapped. -/
theorem paged_afterPhysical (hmap : WellFormedMap memMap) (hroomy : Roomy k.toKernelImage memMap)
    (h : (k.machine rest).afterPhysical k.toKernelImage memMap = some s)
    (hsup : BootSupplied s k.toKernelImage) :
    Paged (s.initVirtualFresh k.toKernelImage) [] ∧
      (∀ p, (s.initVirtualFresh k.toKernelImage).pmm.Free p → s.pmm.Free p) ∧
      (∀ t, 0 < t → t < describedPages memMap * pageSize → pageSize ∣ t →
        (s.initVirtualFresh k.toKernelImage).frame t = some (t / pageSize)) ∧
      ∀ i < kernelWindowPages k.toKernelImage,
        (s.initVirtualFresh k.toKernelImage).frame (kernelAddress i) =
          some ((kernelPhysical + i * pageSize) / pageSize) := by
  obtain ⟨hfits, hT⟩ := fits_afterPhysical hmap h
  obtain ⟨hwf, hfresh, hapart, hfree, hnone⟩ := newPageMap hmap hroomy h hsup.page hsup.zero
  have hram : s.requestPage.1.pmm.totalRam = describedPages memMap * pageSize := by
    rw [totalRam_eq hfresh.fits, ← hT]
    exact congrArg (· * pageSize) s.pmm.requestPage_totalPages
  have hmaps := mapsMemory_mapLoops hsup.page hwf hfresh hsup.tables
    (hram.trans_le hroomy.memory) fun w _ _ => hnone w
  have hframe := Machine.frame_initVirtual hsup.page hwf hfresh hsup.tables hapart
  obtain ⟨hpaged, hfree'⟩ := Machine.paged_initVirtual hsup.page hwf hfresh hsup.tables hapart
    (call_fits hfits .requestPage)
  rw [hram] at hmaps
  refine ⟨hpaged, fun p hp => hfree p (hfree' p hp), fun t h0 ht hdvd => ?_, fun i hi => ?_⟩
  · exact (hframe t).trans (hmaps.identity t h0 ht hdvd)
  · exact (hframe _).trans (hmaps.kernel i hi)

end Prekernel

/-! ### Runs of the kernel -/

/-- The invariant of the runs. -/
structure Booted (image : KernelImage) (memMap : List EfiMemoryDescriptor) (k : Kernel) : Prop where
  sound : ∃ segs, k.Sound segs
  /-- Physical memory above the null page is mapped to itself. -/
  identity : ∀ a, pageSize ≤ a → a < describedPages memMap * pageSize →
    k.machine.frame a = some (a / pageSize)
  /-- The kernel is mapped to where it lies in physical memory. -/
  kernel : ∀ a, kernelStart ≤ a → a < image.kernelEnd →
    k.machine.frame a = some ((a - kernelVirtual) / pageSize)
  /-- Only conventional memory can be handed out, and neither the bitmap nor the kernel. -/
  conventional : ∀ p, k.machine.pmm.Free p →
    Conventional memMap p ∧ ¬ BitmapLocks memMap p ∧ ¬ image.Locks p

/-- The call frees nothing but conventional memory, and maps nothing where physical memory or the
kernel is mapped. -/
def KernelCall.KeepsBoot (image : KernelImage) (memMap : List EfiMemoryDescriptor) :
    KernelCall → Prop
  | .heap _ => True
  | .pages c => ∀ p ∈ c.freed, Conventional memMap p ∧ ¬ BitmapLocks memMap p ∧ ¬ image.Locks p
  | .map c => ¬ InIdentity (describedPages memMap * pageSize) c.virtualAddress ∧
      ¬ InWindow image c.virtualAddress

/-- A step of the kernel after the boot. -/
def BootedStep (image : KernelImage) (memMap : List EfiMemoryDescriptor) (k : Kernel)
    (call : KernelCall) (k' : Kernel) : Prop :=
  SuppliedStep k call k' ∧ call.KeepsBoot image memMap

variable {image : KernelImage} {memMap : List EfiMemoryDescriptor} {k k' : Kernel}
  {call : KernelCall}

/-- **One step of the kernel** frees only the pages that it names. -/
theorem SuppliedStep.free {segs : List Segment} (hs : k.Sound segs)
    (hstep : SuppliedStep k call k') {p : ℕ} (hp : k'.machine.pmm.Free p) :
    k.machine.pmm.Free p ∨ ∃ c, call = .pages c ∧ p ∈ c.freed := by
  cases hstep with
  | heap hroom hsup =>
    exact .inl ((hroom.keepsBelow hs.client hs.start.ge hs.backed hsup).free p hp)
  | @pages c hfreed =>
    by_cases hmem : p ∈ c.freed
    · exact .inr ⟨c, rfl, hmem⟩
    · exact .inl (free_of_free_call hs.backed.fits.covered hp hmem)
  | map hbelow hpa hmf hsup =>
    obtain ⟨hext, -⟩ := Machine.map_spec hs.backed.active hs.backed.wellFormed
      hs.backed.freshFrames hsup hmf hpa
    exact .inl (hext.free p hp)

theorem Roomy.window (h : Roomy image memMap) {a : ℕ} (ha : kernelStart ≤ a)
    (ha' : a < image.kernelEnd) : ∃ i < kernelWindowPages image,
      pageNumber a = pageNumber (kernelAddress i) ∧
      (kernelPhysical + i * pageSize) / pageSize = (a - kernelVirtual) / pageSize ∧
      pageNumber a < pageNumber heapVirtualBase := by
  have hkernel := h.kernel
  have hend := image.end_lt
  refine ⟨(a - kernelStart) / pageSize, ?_, ?_, ?_, ?_⟩
  · unfold kernelWindowPages pageSteps KernelImage.byteCount kernelPhysical pageSize
    omega
  · rw [pageNumber_kernelAddress]
    unfold pageNumber pageSize kernelStart kernelPhysical kernelVirtual at *
    omega
  · unfold kernelStart kernelPhysical kernelVirtual pageSize at *
    omega
  · unfold kernelWindowPages pageSteps KernelImage.byteCount at hkernel
    unfold pageNumber heapVirtualBase pageSize kernelStart kernelPhysical kernelVirtual at *
    omega

theorem Roomy.identity (h : Roomy image memMap) {a : ℕ}
    (ha : a < describedPages memMap * pageSize) : pageNumber a < pageNumber heapVirtualBase := by
  have hmemory := h.memory
  unfold kernelStart kernelPhysical kernelVirtual at hmemory
  unfold pageNumber heapVirtualBase
  omega

/-- **One step of the kernel.** -/
theorem BootedStep.booted (hroomy : Roomy image memMap) (hk : Booted image memMap k)
    (hstep : BootedStep image memMap k call k') : Booted image memMap k' := by
  obtain ⟨hstep, hkeeps⟩ := hstep
  obtain ⟨segs, hs⟩ := hk.sound
  refine ⟨hstep.sound hs, fun a h1 h2 => ?_, fun a h1 h2 => ?_, fun p hp => ?_⟩
  · rw [hstep.frame_eq hs (hroomy.identity h2), hk.identity a h1 h2]
    rintro c rfl heq
    exact hkeeps.1 ⟨a, h2, heq.symm⟩
  · obtain ⟨i, hi, hpage, -, hbelow⟩ := hroomy.window h1 h2
    rw [hstep.frame_eq hs hbelow, hk.kernel a h1 h2]
    rintro c rfl heq
    exact hkeeps.2 ⟨i, hi, heq.symm.trans hpage⟩
  · obtain hfree | ⟨c, rfl, hmem⟩ := hstep.free hs hp
    · exact hk.conventional p hfree
    · exact hkeeps p hmem

/-- **After the three calls.** -/
theorem Prekernel.booted {k : Prekernel} {rest : PhysicalMemory} {mem : Memory} {K : Kernel}
    (hmap : WellFormedMap memMap) (hroomy : Roomy k.toKernelImage memMap)
    (hsup : ∀ s, (k.machine rest).afterPhysical k.toKernelImage memMap = some s →
      BootSupplied s k.toKernelImage)
    (hboot : k.bootMemory rest mem memMap = some K) : Booted k.toKernelImage memMap K := by
  rw [bootMemory, Option.map_eq_some_iff] at hboot
  obtain ⟨s, hs, rfl⟩ := hboot
  have hsupplied := hsup s hs
  obtain ⟨hpaged, hfree, hidentity, hkernel⟩ := paged_afterPhysical hmap hroomy hs hsupplied
  let h : Heap := ⟨s.initVirtualFresh k.toKernelImage, mem, 0, 0, 0⟩
  have hbelow : KeepsBelow h.machine h.initHeap.machine :=
    Heap.mapPage_keepsBelow hpaged.backed hsupplied.heap
  refine ⟨⟨_, HeapClient.sound_init h, rfl, Heap.initHeap_backed hpaged hsupplied.heap⟩,
    fun a h1 h2 => ?_, fun a h1 h2 => ?_, fun p hp => ?_⟩
  · have hpage : pageNumber a = pageNumber (a / pageSize * pageSize) := by
      unfold pageNumber pageSize
      omega
    refine (hbelow.frame a (hroomy.identity h2)).trans ?_
    refine (translate_congr_page _ _ hpage).trans
      ((hidentity _ ?_ ?_ (Nat.dvd_mul_left _ _)).trans ?_)
    · exact Nat.mul_pos (Nat.div_pos h1 (by decide)) (by decide)
    · exact (Nat.div_mul_le_self _ _).trans_lt h2
    · rw [Nat.mul_div_cancel _ (by decide)]
  · obtain ⟨i, hi, hpage, hframe, hlow⟩ := hroomy.window h1 h2
    refine (hbelow.frame a hlow).trans ((translate_congr_page _ _ hpage).trans ?_)
    exact (hkernel i hi).trans (congrArg some hframe)
  · exact free_afterPhysical hmap hs (hfree p (hbelow.free p hp))

/-- **Memory stays mapped from the boot on.**  `init_physical`, `init_virtual()` and `init_heap`,
which start with the page tables of the prekernel, and every run of heap calls, calls of the page
allocator and calls of `map` after them, that frees only conventional memory and maps nothing over
physical memory or the kernel, leave: all of physical memory above the null page mapped to itself,
the kernel mapped to where it has been loaded, and as free pages only conventional memory that is
neither the bitmap, nor the kernel, nor a page table, nor behind a page of the heap. -/
theorem memory_stays_mapped {k : Prekernel} {rest : PhysicalMemory} {mem : Memory} {K K' : Kernel}
    (hmap : WellFormedMap memMap) (hroomy : Roomy k.toKernelImage memMap)
    (hsup : ∀ s, (k.machine rest).afterPhysical k.toKernelImage memMap = some s →
      BootSupplied s k.toKernelImage)
    (hboot : k.bootMemory rest mem memMap = some K) {calls : List KernelCall}
    (hrun : Run (BootedStep k.toKernelImage memMap) K calls K') :
    (∀ a, pageSize ≤ a → a < describedPages memMap * pageSize →
      K'.machine.frame a = some (a / pageSize)) ∧
    (∀ a, kernelStart ≤ a → a < k.kernelEnd →
      K'.machine.frame a = some ((a - kernelVirtual) / pageSize)) ∧
    ∀ p, K'.machine.pmm.Free p → Conventional memMap p ∧ ¬ BitmapLocks memMap p ∧
      ¬ k.toKernelImage.Locks p ∧ ¬ IsTableOf K'.machine.ram K'.machine.activePageMap p ∧
      ∀ v ∈ Set.Ico heapVirtualBase K'.client.heap.sHeapEnd, K'.machine.frame v ≠ some p := by
  have hinv := hrun.invariant (I := Booted k.toKernelImage memMap)
    (Prekernel.booted hmap hroomy hsup hboot) fun _ _ _ hk hstep => hstep.booted hroomy hk
  obtain ⟨segs, hs⟩ := hinv.sound
  refine ⟨hinv.identity, hinv.kernel, fun p hp => ?_⟩
  obtain ⟨hconventional, hbitmap, hkernel⟩ := hinv.conventional p hp
  refine ⟨hconventional, hbitmap, hkernel, hs.backed.freshFrames.fresh p hp, fun v hv heq => ?_⟩
  obtain ⟨f, hf, howned, -⟩ := hs.backed.frames v hv
  obtain rfl := Option.some.inj (hf.symm.trans heq)
  exact howned.not_free hp

/-! ### A machine with 287 pages -/

namespace Prekernel

variable {k : Prekernel} {rest : PhysicalMemory}

theorem ram_loopState (hmap : WellFormedMap memMap) {i f : ℕ} (hi : i ≤ 512)
    (hf : f < k.pml4 ∨ k.pml4 + 5 ≤ f) : (k.loopState rest memMap i).ram f = rest f := by
  have hcount : initialPageBitmapPageCount = 16384 := rfl
  induction i with
  | zero =>
    show k.ram rest f = rest f
    unfold ram pml3 pml3High pml2 pml1
    funext j
    simp only [show f ≠ k.pml4 by omega, show f ≠ k.pml4 + 1 by omega,
      show f ≠ k.pml4 + 2 by omega, show f ≠ k.pml4 + 3 by omega, show f ≠ k.pml4 + 4 by omega,
      ↓reduceIte]
  | succ i ih =>
    obtain ⟨g, hm, ⟨-, hkeep⟩ | ⟨htake, -⟩⟩ := loopState_succ (k := k) (i := i) rest hmap (by omega)
    · have hlow : k.LowMapped (k.loopState rest memMap i) := lowMapped_loopState hmap (by omega)
      have hregion : region i = 0 := region_of_lt (by omega)
      have hg : g = k.pml1 := by
        have hbefore := hkeep.before
        rw [hregion, hlow.table] at hbefore
        exact (Option.some.inj hbefore).symm
      have hupper : ¬ k.IsUpper f := by
        unfold IsUpper pml3 pml2
        omega
      rw [hm.others f hupper (by rw [hg, pml1]; omega), ih (by omega)]
    · omega

end Prekernel

/-- One MiB of memory with a kernel of 128 KiB behind it. -/
def plainMap : List EfiMemoryDescriptor :=
  [⟨conventionalMemory, 0x1000, 255⟩, ⟨loaderData, 0x100000, 32⟩]

theorem wellFormedMap_plainMap : WellFormedMap plainMap where
  aligned := by decide
  inside := by decide
  disjoint := by
    simp only [plainMap, List.pairwise_cons, List.mem_cons, List.not_mem_nil, or_false, forall_eq,
      IsEmpty.forall_iff, implies_true, List.Pairwise.nil, and_true, Finset.disjoint_left,
      EfiMemoryDescriptor.pages, Finset.mem_Ico, pageSize]
    intro p _
    omega

theorem conventional_plainMap {p : ℕ} : Conventional plainMap p ↔ 1 ≤ p ∧ p < 256 := by
  simp [Conventional, plainMap, EfiMemoryDescriptor.pages, loaderData, conventionalMemory, pageSize]

theorem roomy_plainMap : Roomy Prekernel.small.toKernelImage plainMap := ⟨by decide, by decide⟩

section PlainMap

variable {s : Machine}

theorem supply_plainMap (h : (Prekernel.small.machine fun _ => PageTable.zero).afterPhysical
    Prekernel.small.toKernelImage plainMap = some s) : s.Supply 250 := by
  obtain ⟨hm, -⟩ := Prekernel.afterPhysical_eq h
  obtain ⟨-, hT⟩ := Prekernel.fits_afterPhysical wellFormedMap_plainMap h
  have hvacant : Vacant Prekernel.small.toKernelImage plainMap 1 := by decide
  have hfirst := Prekernel.small.firstFreePage_le _ wellFormedMap_plainMap hm hvacant
    (Nat.zero_le _)
  have hpages : describedPages plainMap = 287 := by decide
  refine ⟨2, fun p h1 h2 => ⟨by omega, by omega, ?_⟩⟩
  rw [initPhysical_get (s := Prekernel.small.machine _) rfl wellFormedMap_plainMap hm (by omega),
    decide_eq_false_iff_not]
  have hsegment : segmentPage plainMap = 1 := by decide
  have hbitmap : bitmapSize plainMap / pageSize = 0 := by decide
  rintro (hconv | ⟨-, hle⟩ | ⟨hlt, -⟩)
  · exact hconv (conventional_plainMap.2 (by omega))
  · omega
  · unfold pageSize kernelPhysical at hlt
    omega

theorem bootSupplied_plainMap (h : (Prekernel.small.machine fun _ => PageTable.zero).afterPhysical
    Prekernel.small.toKernelImage plainMap = some s) :
    BootSupplied s Prekernel.small.toKernelImage := by
  obtain ⟨hm, hram, hactive⟩ := Prekernel.afterPhysical_eq h
  obtain ⟨hfits, hT⟩ := Prekernel.fits_afterPhysical wellFormedMap_plainMap h
  have hpages : describedPages plainMap = 287 := by decide
  obtain ⟨n, hn, hpage⟩ : ∃ n, s.pmm.Free n ∧ s.requestPage.2 = n * pageSize := by
    obtain ⟨n, hn, -, he⟩ | ⟨hnone, -⟩ := requestPage_cases hfits.1
    · exact ⟨n, hn, by rw [Machine.requestPage, he]⟩
    · obtain ⟨c, hc⟩ := supply_plainMap h
      exact absurd (hc c le_rfl (by omega)) (hnone c)
  have hconv := Prekernel.free_afterPhysical wellFormedMap_plainMap h hn
  have hrange := conventional_plainMap.1 hconv.1
  have hnull : s.requestPage.2 ≠ 0 := by
    rw [hpage]
    unfold pageSize
    omega
  have hzero : s.ram (frameOf s.requestPage.2) = PageTable.zero := by
    have hcount := Prekernel.loopCount_eq (k := Prekernel.small) (fun _ => PageTable.zero)
      wellFormedMap_plainMap
    have hsteps : Prekernel.identityPages (describedPages plainMap) = 287 := by decide
    rw [hram, Prekernel.initialPhase_eq, hpage, frameOf_mul, hcount, hsteps]
    refine Prekernel.ram_loopState wellFormedMap_plainMap (by decide) (.inl ?_)
    exact hrange.2.trans (by decide)
  obtain ⟨hwf, hfresh, hapart, -⟩ :=
    Prekernel.newPageMap wellFormedMap_plainMap roomy_plainMap h hnull hzero
  have hsame : s.requestPage.1.pmm.totalPages = 287 :=
    s.pmm.requestPage_totalPages.trans (hT.trans hpages)
  have hsupply : s.requestPage.1.Supply (4 + 6) :=
    ((supply_plainMap h).mono (by decide : 4 + 6 + 1 ≤ 250)).requestPage hfits.1
  have hsmall : kernelWindowPages Prekernel.small.toKernelImage ≤ 256 := by decide
  obtain ⟨htables, hrest⟩ := Machine.loops_of_small hnull hwf hfresh (by omega) hsmall hsupply
  refine ⟨hnull, hzero, htables, ?_⟩
  have hpmm := s.requestPage.1.initVirtual_pmm Prekernel.small.toKernelImage s.requestPage.2
  have hsupply' : (s.initVirtualFresh Prekernel.small.toKernelImage).Supply 4 := by
    obtain ⟨c, hc⟩ := hrest
    refine ⟨c, fun j h1 h2 => ?_⟩
    rw [Machine.initVirtualFresh, hpmm]
    exact hc j h1 h2
  obtain ⟨hpaged, -⟩ := Machine.paged_initVirtual hnull hwf hfresh htables hapart
    (call_fits hfits .requestPage)
  exact hsupply'.pageSupplied hpaged.freshFrames.fits _

end PlainMap

/-- After the boot and one call of `request_page`, page 5 is mapped to itself. -/
theorem memory_stays_mapped_plain : ∃ K K',
    Prekernel.small.bootMemory (fun _ => PageTable.zero) (fun _ => 0) plainMap = some K ∧
    Run (BootedStep Prekernel.small.toKernelImage plainMap) K [.pages .requestPage] K' ∧
    K'.machine.frame 0x5000 = some 5 := by
  obtain ⟨m, hm⟩ : ∃ m, (Prekernel.small.machine fun _ => PageTable.zero).initPhysical
      Prekernel.small.toKernelImage plainMap = some m :=
    initPhysical_isSome _ _ (by decide) (by decide)
  obtain ⟨K, hK⟩ : ∃ K, Prekernel.small.bootMemory (fun _ => PageTable.zero) (fun _ => 0) plainMap =
      some K := by
    rw [Prekernel.bootMemory, Machine.afterPhysical, hm]
    exact ⟨_, rfl⟩
  have hrun : Run (BootedStep Prekernel.small.toKernelImage plainMap) K [.pages .requestPage]
      (K.callPages .requestPage) :=
    .single ⟨.pages fun p hp => absurd hp List.not_mem_nil, fun p hp => absurd hp List.not_mem_nil⟩
  have hstays := memory_stays_mapped wellFormedMap_plainMap roomy_plainMap
    (fun _ hs => bootSupplied_plainMap hs) hK hrun
  exact ⟨K, _, hK, hrun, hstays.1 0x5000 (by decide) (by decide)⟩

end Eterna
