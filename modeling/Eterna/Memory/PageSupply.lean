import Eterna.Memory.InitReserved
import Eterna.Memory.Requests

/-!
# Which pages the allocator supplies

What the requests that come after `init_physical` hand out, in every run.

* `handed_out_conventional` : only pages of conventional memory;
* `request_page_complete_iff` : `request_page` finds a clear page whenever there is one exactly as
  long as no clear page lies below `FirstFreePage`;
* `request_pages_serves_iff` : exactly when `request_pages` finds a clear run if there is one.
-/

namespace Eterna

open PhysicalMemoryManager Runs
open Prekernel (missingTables)

/-! ### What calls leave set and hand out -/

namespace PhysicalMemoryManager

variable {m : PhysicalMemoryManager}

theorem get_call (h : m.Covered) {c : PmmCall} {p : ℕ} (hp : m.pageMap.get p = true)
    (hfreed : p ∉ c.freed) : (m.call c).pageMap.get p = true := by
  rcases call_cases h c with ⟨-, i, n, hm⟩ | ⟨-, hget⟩
  · rw [hm.bits, hp, Bool.true_or]
  · exact hget p hfreed hp

theorem le_firstFreePage_call (h : m.Covered) (c : PmmCall) :
    m.firstFreePage ≤ (m.call c).firstFreePage := by
  rcases call_cases h c with ⟨-, i, n, hm⟩ | ⟨hsame, -⟩
  · exact hm.cursor
  · exact hsame.firstFreePage.ge

theorem free_of_free_call (h : m.Covered) {c : PmmCall} {p : ℕ} (hp : (m.call c).Free p)
    (hfreed : p ∉ c.freed) : m.Free p := by
  obtain ⟨hcursor, hlt, hclear⟩ := hp
  refine ⟨(le_firstFreePage_call h c).trans hcursor, (m.call_sum c).2 ▸ hlt, ?_⟩
  by_contra hset
  rw [get_call h (Bool.eq_true_of_not_eq_false hset) hfreed] at hclear
  cases hclear

/-- The bitmap has one bit for every page and up to eight to spare. -/
def Fits (m : PhysicalMemoryManager) : Prop :=
  m.totalPages ≤ 2 ^ 52 ∧ m.pageMap.size = m.totalPages / 8 + 1

theorem Fits.covered (h : m.Fits) : m.Covered :=
  ⟨h.1, by have := h.2; omega, by have := h.1; have := h.2; omega⟩

theorem Fits.of_eq {m' : PhysicalMemoryManager} (h : m.Fits) (hT : m'.totalPages = m.totalPages)
    (hsize : m'.pageMap.size = m.pageMap.size) : m'.Fits :=
  ⟨hT.trans_le h.1, by rw [hsize, hT]; exact h.2⟩

theorem call_fits (h : m.Fits) (c : PmmCall) : (m.call c).Fits := by
  refine h.of_eq (m.call_sum c).2 ?_
  rcases call_cases h.covered c with ⟨-, i, n, hm⟩ | ⟨hsame, -⟩
  · exact hm.size
  · exact hsame.size

/-- **What a call hands out** was free, at or above the cursor, below `TotalPages`, and clear, and
is not free afterwards. -/
theorem handedOut_call (h : m.Fits) (c : PmmCall) : ∃ l,
    (m.call c).handedOut = l ++ m.handedOut ∧ ∀ p ∈ l, m.Free p ∧ ¬ (m.call c).Free p := by
  have hone : ∃ l, m.requestPage.1.handedOut = l ++ m.handedOut ∧
      ∀ p ∈ l, m.Free p ∧ ¬ m.requestPage.1.Free p := by
    rcases requestPage_cases h.1 with ⟨i, hi, -, he⟩ | ⟨-, he⟩
    · rw [he]
      refine ⟨[i], rfl, fun p hp => ?_⟩
      obtain rfl := List.mem_singleton.1 hp
      exact ⟨hi, not_free_handOut hi⟩
    · rw [he]
      exact ⟨[], rfl, fun p hp => absurd hp List.not_mem_nil⟩
  have hnone : (m.call c).handedOut = m.handedOut → ∃ l,
      (m.call c).handedOut = l ++ m.handedOut ∧ ∀ p ∈ l, m.Free p ∧ ¬ (m.call c).Free p :=
    fun he => ⟨[], he, fun p hp => absurd hp List.not_mem_nil⟩
  cases c with
  | requestPage => exact hone
  | requestPages n =>
    rcases requestPages_outcome h.covered.small n with he | ⟨-, he⟩ | ⟨i, -, hle, hend, hclear, he⟩
    · exact hnone (by rw [call, he])
    · rw [call, he]
      exact hone
    · refine ⟨List.range' i n, congrArg (fun r => r.1.handedOut) he, fun p hp => ?_⟩
      -- the run ends below `PageMap.length()`, which is far below `TotalPages`
      obtain ⟨h1, h2⟩ := List.mem_range'_1.1 hp
      have hsize := h.2
      have hsmall := h.covered.small
      have hget := hclear (p - i) (by omega)
      rw [Nat.add_sub_cancel' h1] at hget
      refine ⟨⟨hle.trans h1, by omega, hget⟩, fun hfree => ?_⟩
      have hset : (m.handOutRun i n).pageMap.get p = true := by
        refine (get_lockPages m (by omega) p).trans ?_
        rw [decide_eq_true ⟨h1, h2, by omega⟩, Bool.or_true]
      rw [call, he] at hfree
      rw [hfree.2.2] at hset
      cases hset
  | lockPage a => exact hnone (lockPage_same m a).handedOut
  | lockPages a n => exact hnone (lockPages_same m a n).handedOut
  | freePage a => exact hnone (freePage_same m a).handedOut
  | freePages a n => exact hnone (freePages_same m a n).handedOut

theorem mem_handedOut_call (h : m.Fits) (c : PmmCall) {p : ℕ} (hp : p ∈ (m.call c).handedOut) :
    p ∈ m.handedOut ∨ m.Free p := by
  obtain ⟨l, he, hl⟩ := handedOut_call h c
  rw [he] at hp
  exact (List.mem_append.1 hp).symm.imp_right fun hp => (hl p hp).1

end PhysicalMemoryManager

section Supply

variable {s : Machine} {image : KernelImage} {memMap : List EfiMemoryDescriptor}
  {m : PhysicalMemoryManager}

theorem fits_initPhysical (hboot : s.pmm = boot) (hmap : WellFormedMap memMap)
    (h : s.initPhysical image memMap = some m) : m.Fits := by
  obtain ⟨hT, hsize⟩ := initPhysical_totalPages hboot hmap.describedPages_le h
  exact ⟨hT.trans_le hmap.describedPages_le, by rw [hsize, hT]⟩

/-! ### Only conventional memory -/

/-- The state of the allocator with the record of the pages handed out so far started afresh. -/
def PhysicalMemoryManager.restart (m : PhysicalMemoryManager) : PhysicalMemoryManager :=
  { m with handedOut := [] }

/-- Clear pages, and pages handed out, are conventional memory. -/
structure OnlyConventional (memMap : List EfiMemoryDescriptor) (m : PhysicalMemoryManager) :
    Prop where
  fits : m.Fits
  clear : ∀ p < m.totalPages, m.pageMap.get p = false → Conventional memMap p
  handedOut : ∀ p ∈ m.handedOut, Conventional memMap p

/-- **One call** that frees only pages handed out before. -/
theorem OnlyConventional.call (h : OnlyConventional memMap m) {c : PmmCall}
    (hfreed : ∀ p ∈ c.freed, p ∈ m.handedOut) : OnlyConventional memMap (m.call c) := by
  refine ⟨call_fits h.fits c, fun p hp hclear => ?_, fun p hp => ?_⟩
  · rw [(m.call_sum c).2] at hp
    by_cases hfree : p ∈ c.freed
    · exact h.handedOut p (hfreed p hfree)
    · refine h.clear p hp (Bool.eq_false_iff.2 fun hset => ?_)
      rw [get_call h.fits.covered hset hfree] at hclear
      cases hclear
  · rcases mem_handedOut_call h.fits c hp with hp | hp
    · exact h.handedOut p hp
    · exact h.clear p hp.2.1 hp.2.2

theorem onlyConventional_initPhysical (hboot : s.pmm = boot) (hmap : WellFormedMap memMap)
    (h : s.initPhysical image memMap = some m) : OnlyConventional memMap m.restart := by
  have hfits : m.restart.Fits := (fits_initPhysical hboot hmap h).of_eq rfl rfl
  refine ⟨hfits, fun p hp hclear => ?_, fun p hp => absurd hp List.not_mem_nil⟩
  have hT := (initPhysical_totalPages hboot hmap.describedPages_le h).1
  rw [restart, initPhysical_get hboot hmap h (hT ▸ hp), decide_eq_false_iff_not] at hclear
  by_contra hconv
  exact hclear (.inl hconv)

/-- **Only conventional memory is handed out**: every page that the calls after `init_physical` hand
out lies in a descriptor of conventional memory and in no other. -/
theorem handed_out_conventional (hboot : s.pmm = boot) (hmap : WellFormedMap memMap)
    (h : s.initPhysical image memMap = some m) :
    ∀ calls l, Run AllocStep ⟨m.restart, []⟩ calls l → ∀ p ∈ l.pmm.handedOut,
      ∃ d ∈ memMap, d.type = conventionalMemory ∧ p ∈ d.pages ∧
        ∀ e ∈ memMap, p ∈ e.pages → e.type = conventionalMemory := by
  intro calls l hrun p hp
  have hinv : OnlyConventional memMap l.pmm := by
    refine hrun.invariant (I := fun l => OnlyConventional memMap l.pmm)
      (onlyConventional_initPhysical hboot hmap h) ?_
    rintro l c _ hl ⟨hfreed, rfl⟩
    exact hl.call hfreed
  obtain ⟨d, hd, htype, hpd⟩ := hinv.handedOut p hp
  refine ⟨d, hd, htype, hpd, fun e he hpe => ?_⟩
  -- two descriptors with a page in common are one
  have hone : d = e := by
    by_contra hne
    have : Std.Symm fun d e : EfiMemoryDescriptor => Disjoint d.pages e.pages :=
      ⟨fun _ _ h => h.symm⟩
    have hdis := hmap.disjoint.forall hd he hne
    exact Finset.disjoint_left.1 hdis hpd hpe
  rw [← hone]
  exact htype

theorem handed_out_conventional_split : ∃ m,
    (Prekernel.small.machine fun _ => PageTable.zero).initPhysical
      Prekernel.small.toKernelImage splitMap = some m ∧
    ∀ calls l, Run AllocStep ⟨m.restart, []⟩ calls l → ∀ p ∈ l.pmm.handedOut,
      ∃ d ∈ splitMap, d.type = conventionalMemory ∧ p ∈ d.pages ∧
        ∀ e ∈ splitMap, p ∈ e.pages → e.type = conventionalMemory := by
  obtain ⟨m, hm⟩ := initPhysical_splitMap
  exact ⟨m, hm,
    handed_out_conventional (s := Prekernel.small.machine _) rfl wellFormedMap_splitMap hm⟩

/-! ### `request_page` and the cursor -/

/-- If there is a clear page, `request_page` hands one out; and every clear page is handed out by
one of the next requests, so that a freed page can be allocated again. -/
structure RequestsComplete (m : PhysicalMemoryManager) : Prop where
  serves : (∃ i < m.totalPages, m.pageMap.get i = false) →
    ∃ i < m.totalPages, m.pageMap.get i = false ∧ m.requestPage = (m.handOut i, i * pageSize)
  again : ∀ p < m.totalPages, m.pageMap.get p = false →
    ∃ k, (m.requestTimes k).requestPage = ((m.requestTimes k).handOut p, p * pageSize)

/-- No clear page lies below the cursor. -/
def CursorLowest (m : PhysicalMemoryManager) : Prop :=
  ∀ p < m.totalPages, m.pageMap.get p = false → m.firstFreePage ≤ p

theorem PhysicalMemoryManager.le_of_requestPage_eq (hT : m.totalPages ≤ 2 ^ 52) {k p : ℕ}
    (h : (m.requestTimes k).requestPage = ((m.requestTimes k).handOut p, p * pageSize)) :
    m.firstFreePage ≤ p := by
  have hTk : (m.requestTimes k).totalPages ≤ 2 ^ 52 := by rwa [requestTimes_totalPages]
  rcases requestPage_cases hTk with ⟨i, hi, -, he⟩ | ⟨-, he⟩
  · have hpi : i * pageSize = p * pageSize := congrArg Prod.snd (he.symm.trans h)
    rw [← Nat.eq_of_mul_eq_mul_right (by decide) hpi]
    exact ((free_requestTimes hT k i).1 hi).1.1
  · have hout := congrArg (fun r => r.1.handedOut.length) (he.symm.trans h)
    simp only [handOut, List.length_cons] at hout
    omega

/-- **What completeness amounts to**: no clear page below the cursor. -/
theorem requestsComplete_iff (hT : m.totalPages ≤ 2 ^ 52) :
    RequestsComplete m ↔ CursorLowest m := by
  constructor
  · intro hcomplete p hp hclear
    obtain ⟨k, hk⟩ := hcomplete.again p hp hclear
    exact le_of_requestPage_eq hT hk
  · refine fun hlowest => ⟨?_, fun p hp hclear => ?_⟩
    · rintro ⟨j, hj, hclear⟩
      rcases requestPage_cases hT with ⟨i, hi, -, he⟩ | ⟨hnone, -⟩
      · exact ⟨i, hi.2.1, hi.2.2, he⟩
      · exact absurd ⟨hlowest j hj hclear, hj, hclear⟩ (hnone j)
    · exact ⟨_, requestPage_requestTimes hT ⟨hlowest p hp hclear, hp, hclear⟩⟩

/-- A call that frees only pages handed out before, and none below the cursor. -/
def CursorStep (l : Ledger) (c : PmmCall) (l' : Ledger) : Prop :=
  AllocStep l c l' ∧ ∀ p ∈ c.freed, l.pmm.firstFreePage ≤ p

theorem CursorLowest.call (h : CursorLowest m) (hfits : m.Fits) {c : PmmCall}
    (hfreed : ∀ p ∈ c.freed, m.firstFreePage ≤ p) : CursorLowest (m.call c) := by
  -- a page that is clear after the call was clear before, or has been freed
  have hbefore : ∀ p < (m.call c).totalPages, (m.call c).pageMap.get p = false →
      m.firstFreePage ≤ p := by
    intro p hp hclear
    rw [(m.call_sum c).2] at hp
    by_cases hfree : p ∈ c.freed
    · exact hfreed p hfree
    · refine h p hp (Bool.eq_false_iff.2 fun hset => ?_)
      rw [get_call hfits.covered hset hfree] at hclear
      cases hclear
  have hone : CursorLowest m.requestPage.1 := by
    rcases requestPage_cases hfits.1 with ⟨i, hi, hmin, he⟩ | ⟨hnone, he⟩
    · rw [he]
      intro p hp hclear
      rw [get_handOut, Bool.or_eq_false_iff, decide_eq_false_iff_not] at hclear
      rw [handOut_totalPages] at hp
      have hcov := hfits.covered.covers
      have hle := hmin p ⟨h p hp hclear.1, hp, hclear.1⟩
      rw [handOut_firstFreePage]
      omega
    · rw [he]
      exact fun p hp hclear => absurd ⟨h p hp hclear, hp, hclear⟩ (hnone p)
  have hother : (m.call c).firstFreePage = m.firstFreePage → CursorLowest (m.call c) :=
    fun he p hp hclear => he ▸ hbefore p hp hclear
  cases c with
  | requestPage => exact hone
  | requestPages n =>
    rcases requestPages_outcome hfits.covered.small n with he | ⟨-, he⟩ | ⟨i, -, -, -, -, he⟩
    · rw [PhysicalMemoryManager.call, he]
      exact h
    · rw [PhysicalMemoryManager.call, he]
      exact hone
    · refine hother ?_
      rw [PhysicalMemoryManager.call, he]
      exact (lockPages_same m _ n).firstFreePage
  | lockPage a => exact hother (lockPage_same m a).firstFreePage
  | lockPages a n => exact hother (lockPages_same m a n).firstFreePage
  | freePage a => exact hother (freePage_same m a).firstFreePage
  | freePages a n => exact hother (freePages_same m a n).firstFreePage

theorem run_fits {l l' : Ledger} {calls : List PmmCall} (h : l.pmm.Fits)
    (hrun : Run AllocStep l calls l') : l'.pmm.Fits := by
  refine hrun.invariant (I := fun l => l.pmm.Fits) h ?_
  rintro l c _ hl ⟨-, rfl⟩
  exact call_fits hl c

theorem run_any_fits {m' : PhysicalMemoryManager} {calls : List PmmCall} (h : m.Fits)
    (hrun : Run AnyStep m calls m') : m'.Fits := by
  refine hrun.invariant (I := Fits) h ?_
  rintro u c _ hu rfl
  exact call_fits hu c

/-- The first phase leaves the cursor below any vacant page with enough vacant pages below it. -/
theorem Prekernel.firstFreePage_le (k : Prekernel) (rest : PhysicalMemory)
    (hmap : WellFormedMap memMap)
    (h : (k.machine rest).initPhysical k.toKernelImage memMap = some m) {q : ℕ}
    (hq : Vacant k.toKernelImage memMap q) (hcount : missingTables (describedPages memMap) ≤
      Nat.count (Vacant k.toKernelImage memMap) q) : m.firstFreePage ≤ q := by
  have hfree := free_requestTimes (k.serves_initialBitmap hmap).total
    (missingTables (describedPages memMap)) q
  simp only [free_initialBitmap hmap] at hfree
  rw [(initPhysical_handedOut_eq h).2, k.initialPhase_pmm rest hmap]
  exact (hfree.2 ⟨hq, hcount⟩).1

/-- So a clear page below the cursor can only be a page table of the first phase. -/
theorem Prekernel.cursorLowest (k : Prekernel) (rest : PhysicalMemory) (hmap : WellFormedMap memMap)
    (h : (k.machine rest).initPhysical k.toKernelImage memMap = some m)
    (hcovered : PageTablesCovered k.toKernelImage memMap) : CursorLowest m := by
  intro p hp hclear
  rw [(initPhysical_totalPages (s := k.machine rest) rfl hmap.describedPages_le h).1] at hp
  rw [initPhysical_get (s := k.machine rest) rfl hmap h hp, decide_eq_false_iff_not] at hclear
  have hconv : Conventional memMap p := by
    by_contra hconv
    exact hclear (.inl hconv)
  have hvacant : Vacant k.toKernelImage memMap p :=
    ⟨hp, .inr ⟨hconv, fun hlocks => hclear (.inr (.inr hlocks))⟩⟩
  refine k.firstFreePage_le rest hmap h hvacant ?_
  obtain hbitmap | hlocks | hcount := hcovered p hvacant hconv
  · exact absurd (.inr (.inl hbitmap)) hclear
  · exact absurd (.inr (.inr hlocks)) hclear
  · exact hcount

/-- **When `request_page` finds a clear page whenever there is one**: exactly in the states where no
clear page lies below `FirstFreePage`, which `free_page` never moves down; so in all states, if it
is so at first and no page below the cursor is freed. -/
theorem request_page_complete_iff (hboot : s.pmm = boot) (hmap : WellFormedMap memMap)
    (h : s.initPhysical image memMap = some m) :
    (∀ calls l, Run AllocStep ⟨m, m.handedOut⟩ calls l →
      (RequestsComplete l.pmm ↔ CursorLowest l.pmm)) ∧
    (CursorLowest m → ∀ calls l, Run CursorStep ⟨m, m.handedOut⟩ calls l →
      RequestsComplete l.pmm) := by
  have hfits := fits_initPhysical hboot hmap h
  refine ⟨fun calls l hrun => ?_, fun hlowest calls l hrun => ?_⟩
  · exact requestsComplete_iff (run_fits hfits hrun).1
  · have hinv : l.pmm.Fits ∧ CursorLowest l.pmm := by
      refine hrun.invariant (I := fun l => l.pmm.Fits ∧ CursorLowest l.pmm) ⟨hfits, hlowest⟩ ?_
      rintro l c _ ⟨hl, hlow⟩ ⟨⟨-, rfl⟩, hfreed⟩
      exact ⟨call_fits hl c, hlow.call hl hfreed⟩
    exact (requestsComplete_iff hinv.1.1).2 hinv.2

theorem request_page_complete_iff_kernel : ∃ m,
    (Prekernel.small.machine fun _ => PageTable.zero).initPhysical
      Prekernel.small.toKernelImage kernelMap = some m ∧
    (∀ calls l, Run AllocStep ⟨m, m.handedOut⟩ calls l →
      (RequestsComplete l.pmm ↔ CursorLowest l.pmm)) ∧
    ∀ calls l, Run CursorStep ⟨m, m.handedOut⟩ calls l → RequestsComplete l.pmm := by
  obtain ⟨m, hm⟩ : ∃ m, (Prekernel.small.machine fun _ => PageTable.zero).initPhysical
      Prekernel.small.toKernelImage kernelMap = some m :=
    initPhysical_isSome _ _ (by decide) (by decide)
  have hlowest : CursorLowest m := Prekernel.small.cursorLowest _ wellFormedMap_kernelMap hm
    fun p _ _ => .inr (.inr (Nat.zero_le _))
  obtain ⟨hiff, hruns⟩ := request_page_complete_iff (s := Prekernel.small.machine _) rfl
    wellFormedMap_kernelMap hm
  exact ⟨m, hm, hiff, hruns hlowest⟩

theorem clear_splitMap (hm : (Prekernel.small.machine fun _ => PageTable.zero).initPhysical
      Prekernel.small.toKernelImage splitMap = some m) :
    m.firstFreePage ≤ 513 ∧ m.totalPages = 1132 ∧ m.pageMap.size = 142 ∧
      ∀ p, 513 ≤ p → p < 1132 → m.pageMap.get p = false := by
  obtain ⟨hT, hsize⟩ := initPhysical_totalPages (s := Prekernel.small.machine _) rfl (by decide) hm
  have hvacant : ∀ p, 1 ≤ p ∧ p < 3 ∨ p = 513 →
    Vacant Prekernel.small.toKernelImage splitMap p := by
    intro p hp
    have hT : describedPages splitMap = 1132 := by decide
    refine ⟨by omega, .inr ⟨conventional_splitMap.2 (by omega), fun hlocks => ?_⟩⟩
    have hkernel : Prekernel.small.toKernelImage.byteCount / pageSize = 32 := by decide
    have hstart : kernelPhysical / pageSize = 256 := by decide
    have := hlocks.1
    have := hlocks.2
    omega
  -- the page tables are taken from pages in front of page 513
  have hcount : missingTables (describedPages splitMap) ≤
      Nat.count (Vacant Prekernel.small.toKernelImage splitMap) 513 := by
    have hthree : 2 ≤ Nat.count (Vacant Prekernel.small.toKernelImage splitMap) 3 := by
      rw [Nat.count_succ, Nat.count_succ, if_pos (hvacant 1 (by omega)),
        if_pos (hvacant 2 (by omega))]
      exact Nat.le_add_left 2 _
    exact hthree.trans (Nat.count_monotone _ (by decide))
  refine ⟨Prekernel.small.firstFreePage_le _ wellFormedMap_splitMap hm (hvacant 513 (.inr rfl))
    hcount, hT, hsize,
    fun p h1 h2 => ?_⟩
  rw [initPhysical_get (s := Prekernel.small.machine _) rfl wellFormedMap_splitMap hm h2,
    decide_eq_false_iff_not]
  have hsegment : segmentPage splitMap = 512 := by decide
  have hbitmap : bitmapSize splitMap / pageSize = 0 := by decide
  have hkernel : Prekernel.small.toKernelImage.byteCount / pageSize = 32 := by decide
  rintro (hconv | ⟨-, hle⟩ | ⟨-, hlt⟩)
  · exact hconv (conventional_splitMap.2 (.inr ⟨by omega, by omega⟩))
  · omega
  · rw [hkernel] at hlt
    unfold pageSize kernelPhysical at hlt
    omega

/-- Page `i` is handed out, all pages are locked, and page `i` is freed: it is the only clear page,
and the cursor has passed it. -/
theorem PhysicalMemoryManager.only_clear_page (hfits : m.Fits) {t : PhysicalMemoryManager} {i : ℕ}
    (ht : t = ((m.handOut i).lockPages 0 m.totalPages).freePage (i * pageSize)) :
    t.totalPages = m.totalPages ∧ t.firstFreePage = i + 1 ∧
      ∀ j < m.totalPages, t.pageMap.get j = false ↔ j = i := by
  subst ht
  have hlock := lockPages_same (m.handOut i) 0 m.totalPages
  have hfree := freePage_same ((m.handOut i).lockPages 0 m.totalPages) (i * pageSize)
  have hdiv : i * pageSize / pageSize = i := Nat.mul_div_cancel _ (by decide)
  have hcov := hfits.covered.covers
  refine ⟨hfree.totalPages.trans (hlock.totalPages.trans (handOut_totalPages m i)),
    hfree.firstFreePage.trans hlock.firstFreePage, fun j hj => ?_⟩
  have hset : ((m.handOut i).lockPages (0 * pageSize) m.totalPages).pageMap.get j = true := by
    rw [get_lockPages _ (by have := hfits.1; omega), handOut_size, decide_eq_true (by omega),
      Bool.or_true]
  rw [Nat.zero_mul] at hset
  rw [get_freePage, hset, hdiv, Bool.true_and, decide_eq_false_iff_not, not_not]

/-- A page that is freed when the cursor has passed it is not found again, though it is the only
clear page. -/
theorem freed_page_lost : ¬ ∀ (s : Machine) (image : KernelImage)
    (memMap : List EfiMemoryDescriptor) (m : PhysicalMemoryManager), s.pmm = boot →
    WellFormedMap memMap → s.initPhysical image memMap = some m →
    ∀ calls l, Run AllocStep ⟨m, m.handedOut⟩ calls l → RequestsComplete l.pmm := by
  intro hall
  obtain ⟨m, hm⟩ := initPhysical_splitMap
  obtain ⟨hcursor, hT, -, hclear⟩ := clear_splitMap hm
  have hfits := fits_initPhysical (s := Prekernel.small.machine _) rfl wellFormedMap_splitMap hm
  obtain ⟨i, hi, -, he⟩ | ⟨hnone, -⟩ := requestPage_cases hfits.1
  · -- hand out page `i`, lock all pages, free page `i`
    have hrun : ∃ calls l, Run AllocStep ⟨m, m.handedOut⟩ calls l ∧
        l.pmm = ((m.handOut i).lockPages 0 m.totalPages).freePage (i * pageSize) := by
      have hout : m.call .requestPage = m.handOut i := congrArg Prod.fst he
      have hmem : i ∈ ((m.handOut i).lockPages 0 m.totalPages).handedOut :=
        (lockPages_same (m.handOut i) 0 m.totalPages).handedOut ▸ List.mem_cons_self
      refine ⟨_, _, ((Run.nil.snoc (l := .requestPage) ⟨by simp [PmmCall.freed], rfl⟩).snoc
        (l := .lockPages 0 m.totalPages) ⟨by simp [PmmCall.freed], rfl⟩).snoc
        (l := .freePage (i * pageSize)) ⟨fun p hp => ?_, rfl⟩, ?_⟩
      · rw [List.mem_singleton.1 hp, Nat.mul_div_cancel _ (by decide)]
        dsimp only
        rw [hout]
        exact hmem
      · dsimp only
        rw [hout]
        rfl
    obtain ⟨calls, l, hrun, hl⟩ := hrun
    obtain ⟨hTl, hcursorl, honly⟩ := only_clear_page hfits hl
    have hserves := (hall _ _ _ m rfl wellFormedMap_splitMap hm calls l hrun).serves
    rw [hTl] at hserves
    obtain ⟨j, hj, hclearj, hej⟩ := hserves ⟨i, hi.2.1, (honly i hi.2.1).2 rfl⟩
    have hji := (honly j hj).1 hclearj
    have hle := le_of_requestPage_eq (k := 0) (hTl.trans_le hfits.1) hej
    omega
  · exact absurd ⟨hcursor, by omega, hclear 513 le_rfl (by decide)⟩ (hnone 513)

/-! ### `request_pages` and `PageMap.length()` -/

/-- If there is a run of `n` clear pages between the cursor and `TotalPages`, `request_pages` hands
out such a run and returns its address, which is not `nullptr`. -/
def ServesRun (m : PhysicalMemoryManager) (n : ℕ) : Prop :=
  (∃ i, m.ClearRun i n) → ∃ i, m.ClearRun i n ∧
    m.requestPages n = (m.handOutRun i n, i * pageSize) ∧ i * pageSize ≠ 0

/-- There is no run of `n` clear pages; or both counters let the request pass, a run ends below
`PageMap.length()`, and the first pages of memory are no such run. -/
def RunInReach (m : PhysicalMemoryManager) (n : ℕ) : Prop :=
  (∀ i, ¬ m.ClearRun i n) ∨
    n ≤ m.totalFreePages ∧ n ≤ m.maxFreePagesInARow ∧
      (∃ i, m.ClearRun i n ∧ i + n < m.pageMap.length) ∧ ¬ m.ClearRun 0 n

namespace PhysicalMemoryManager

theorem handOutRun_injective {i j n : ℕ}
    (h : (m.handOutRun i n, i * pageSize) = (m.handOutRun j n, j * pageSize)) : i = j :=
  Nat.eq_of_mul_eq_mul_right (by decide) (congrArg Prod.snd h)

theorem searchRun_cursor {n : ℕ} (hn : 0 < n)
    (hclear : ∀ k < n, m.pageMap.get (m.firstFreePage + k) = false)
    (hend : m.firstFreePage + n < m.pageMap.length) :
    searchRun m.pageMap n m.pageMap.length m.firstFreePage = some m.firstFreePage := by
  obtain ⟨k, hk⟩ := Nat.exists_eq_succ_of_ne_zero (Nat.ne_of_gt (Nat.zero_lt_of_lt hend))
  have hfirst : m.pageMap.get m.firstFreePage = false := hclear 0 hn
  rw [hk, searchRun, if_neg (by omega), if_neg (by rw [hfirst]; exact Bool.false_ne_true),
    checkRun_eq_found hclear hend]

theorem requestPages_of_clear_zero {n : ℕ} (hn : 2 ≤ n) (hzero : m.ClearRun 0 n)
    (hend : n < m.pageMap.length) : (m.requestPages n).2 = 0 := by
  obtain ⟨hcursor, -, hclear⟩ := hzero
  have hF : m.firstFreePage = 0 := Nat.le_zero.1 hcursor
  have hsearch : searchRun m.pageMap n m.pageMap.length m.firstFreePage = some m.firstFreePage :=
    searchRun_cursor (by omega) (by rwa [hF]) (by rw [hF]; omega)
  unfold requestPages
  rw [if_neg (by omega), if_neg (by omega), hsearch, hF]
  split_ifs <;> rfl

end PhysicalMemoryManager

/-- **One state**: `request_pages` serves a run exactly if one is in reach. -/
theorem servesRun_iff (hfits : m.Fits) {n : ℕ} (hn : 2 ≤ n) : ServesRun m n ↔ RunInReach m n := by
  have hiff := requestPages_eq_iff hfits.covered.small hn
  have hlen : m.pageMap.length = m.totalPages / 8 + 1 := hfits.2
  constructor
  · intro hserves
    refine or_iff_not_imp_left.2 fun hsome => ?_
    push Not at hsome
    obtain ⟨i, hrun, he, hne⟩ := hserves hsome
    -- what is handed out ends below `PageMap.length()`
    have hreach : i + n < m.pageMap.length := by
      rcases requestPages_cases hfits.covered.small hn with ⟨j, -, hend, -, he'⟩ | he'
      · rw [handOutRun_injective (he.symm.trans he')]
        exact hend
      · exact absurd (congrArg Prod.snd (he.symm.trans he')) hne
    obtain ⟨hfree, hmax, -⟩ := hiff.1 ⟨i, he, hrun.1, hreach, hrun.2.2⟩
    refine ⟨hfree, hmax, ⟨i, hrun, hreach⟩, fun hzero => hne ?_⟩
    have hret := requestPages_of_clear_zero hn hzero (by omega)
    rwa [he] at hret
  · rintro (hnone | ⟨hfree, hmax, ⟨i, hrun, hreach⟩, hzero⟩) hsome
    · obtain ⟨i, hrun⟩ := hsome
      exact absurd hrun (hnone i)
    · obtain ⟨j, he, hle, hend, hclear⟩ := hiff.2 ⟨hfree, hmax, i, hrun.1, hreach, hrun.2.2⟩
      have hrun' : m.ClearRun j n := ⟨hle, by omega, hclear⟩
      refine ⟨j, hrun', he, fun hnull => hzero ?_⟩
      have hj : j = 0 := by
        unfold pageSize at hnull
        omega
      exact hj ▸ hrun'

/-- **When `request_pages` finds a clear run if there is one**: the search stops at
`PageMap.length()`, which is the number of bytes of the bitmap and not of its bits, so in every run
only the first eighth of memory is in reach. -/
theorem request_pages_serves_iff (hboot : s.pmm = boot) (hmap : WellFormedMap memMap)
    (h : s.initPhysical image memMap = some m) :
    ∀ calls m', Run AnyStep m calls m' → ∀ n, 2 ≤ n → (ServesRun m' n ↔ RunInReach m' n) := by
  intro calls m' hrun n hn
  exact servesRun_iff (run_any_fits (fits_initPhysical hboot hmap h) hrun) hn

theorem request_pages_serves_iff_split : ∃ m,
    (Prekernel.small.machine fun _ => PageTable.zero).initPhysical
      Prekernel.small.toKernelImage splitMap = some m ∧
    ∀ calls m', Run AnyStep m calls m' → ∀ n, 2 ≤ n → (ServesRun m' n ↔ RunInReach m' n) := by
  obtain ⟨m, hm⟩ := initPhysical_splitMap
  exact ⟨m, hm, request_pages_serves_iff (s := Prekernel.small.machine _) rfl
    wellFormedMap_splitMap hm⟩

/-- With 1132 pages of memory, 142 bytes of bitmap and pages 513 to 1131 clear, 200 pages cannot be
had. -/
theorem clear_run_out_of_reach : ¬ ∀ (s : Machine) (image : KernelImage)
    (memMap : List EfiMemoryDescriptor) (m : PhysicalMemoryManager), s.pmm = boot →
    WellFormedMap memMap → s.initPhysical image memMap = some m →
    ∀ calls m', Run AnyStep m calls m' → ∀ n, 2 ≤ n → ServesRun m' n := by
  intro hall
  obtain ⟨m, hm⟩ := initPhysical_splitMap
  obtain ⟨hcursor, hT, hsize, hclear⟩ := clear_splitMap hm
  have hfits := fits_initPhysical (s := Prekernel.small.machine _) rfl wellFormedMap_splitMap hm
  have hserves := hall _ _ _ m rfl wellFormedMap_splitMap hm [] m .nil 200 (by decide)
  have hrun : m.ClearRun 513 200 :=
    ⟨hcursor, by omega, fun k hk => hclear _ (by omega) (by omega)⟩
  obtain hnone | ⟨-, -, ⟨i, -, hreach⟩, -⟩ := (servesRun_iff hfits (by decide)).1 hserves
  · exact hnone 513 hrun
  · have hlen : m.pageMap.length = 142 := hsize
    omega

end Supply

end Eterna
