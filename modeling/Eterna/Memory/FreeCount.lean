import Eterna.Library.LastWrite
import Eterna.Memory.PageSupply

/-!
# What `TotalFreePages` counts

The bitmap rounds up to whole bytes, so `lock_page` and `free_page` also find bits for up to eight
page numbers from `TotalPages` on, and count them.  `init_physical` counts one of them as used
before it counts anything, and then counts used and free pages separately.

* `Counted.freePages_eq` : what `TotalFreePages` is, given the bits from `TotalPages` on;
* `get_call_behind` : what a call does to these bits;
* `free_count_iff` : exactly when `TotalFreePages` is the number of clear pages, in terms of the
  memory map and of the calls alone.
-/

namespace Eterna

open PhysicalMemoryManager Runs LastWrite

/-- The pages that a `lock_page(s)` or `free_page(s)` call names. -/
def PmmCall.named : PmmCall → List ℕ
  | .lockPage address => [address / pageSize]
  | .lockPages address n => pagesFrom address n
  | call => call.freed

/-- The call locks the pages that it names. -/
def PmmCall.locks : PmmCall → Bool
  | .lockPage _ => true
  | .lockPages _ _ => true
  | _ => false

namespace PhysicalMemoryManager

variable {m m' : PhysicalMemoryManager} {p : ℕ}

/-! ### The counters and the bits -/

/-- The number of pages below `TotalPages` with a clear bit. -/
def clearPages (m : PhysicalMemoryManager) : ℕ :=
  ((Finset.range m.totalPages).filter fun p => m.pageMap.get p = false).card

/-- The set bits from `TotalPages` on. -/
def usedBehind (m : PhysicalMemoryManager) : Finset ℕ :=
  (Finset.Ico m.totalPages (8 * m.pageMap.size)).filter fun p => m.pageMap.get p = true

/-- `TotalUsedPages` is the number of set bits, and `TotalFreePages` is a 64-bit number. -/
structure Counted (m : PhysicalMemoryManager) : Prop where
  small : m.pageMap.size ≤ 2 ^ 52
  used : m.CountsUsed
  free_lt : m.totalFreePages < 2 ^ 64

theorem lockPage_totalFreePages_lt (h : m.totalFreePages < 2 ^ 64) (a : ℕ) :
    (m.lockPage a).totalFreePages < 2 ^ 64 := by
  unfold lockPage
  dsimp only
  split_ifs
  · exact h
  · exact sub64_lt _ _
  · exact h

theorem freePage_totalFreePages_lt (h : m.totalFreePages < 2 ^ 64) (a : ℕ) :
    (m.freePage a).totalFreePages < 2 ^ 64 := by
  unfold freePage
  dsimp only
  split_ifs
  · exact h
  · exact add64_lt _ _
  · exact h

theorem lockPages_totalFreePages_lt (h : m.totalFreePages < 2 ^ 64) (a n : ℕ) :
    (m.lockPages a n).totalFreePages < 2 ^ 64 := by
  induction n with
  | zero => exact h
  | succ n ih => exact lockPage_totalFreePages_lt ih _

theorem freePages_totalFreePages_lt (h : m.totalFreePages < 2 ^ 64) (a n : ℕ) :
    (m.freePages a n).totalFreePages < 2 ^ 64 := by
  induction n with
  | zero => exact h
  | succ n ih => exact freePage_totalFreePages_lt ih _

theorem freeConventionalRuns_totalFreePages_lt (h : m.totalFreePages < 2 ^ 64)
    (memMap : List EfiMemoryDescriptor) :
    (m.freeConventionalRuns memMap).totalFreePages < 2 ^ 64 := by
  induction memMap generalizing m with
  | nil => exact h
  | cons d memMap ih =>
    have hfree := freePages_totalFreePages_lt h d.physicalAddress d.numPages
    unfold freeConventionalRuns at ih ⊢
    rw [List.foldl_cons]
    dsimp only
    split_ifs
    · exact ih hfree
    · exact ih hfree
    · exact ih h

theorem Counted.of_eq (h : m.Counted) (hbits : m'.pageMap = m.pageMap)
    (hused : m'.totalUsedPages = m.totalUsedPages) (hfree : m'.totalFreePages = m.totalFreePages) :
    m'.Counted := by
  refine ⟨hbits ▸ h.small, ?_, hfree ▸ h.free_lt⟩
  have hpages : m'.usedPages = m.usedPages := by rw [usedPages, usedPages, hbits]
  rw [CountsUsed, hused, hpages]
  exact h.used

theorem Counted.lockPage (h : m.Counted) (a : ℕ) : (m.lockPage a).Counted :=
  ⟨(lockPage_same m a).size.trans_le h.small, lockPage_countsUsed h.small h.used a,
    lockPage_totalFreePages_lt h.free_lt a⟩

theorem Counted.lockPages (h : m.Counted) (a n : ℕ) : (m.lockPages a n).Counted :=
  ⟨(lockPages_same m a n).size.trans_le h.small, lockPages_countsUsed h.small h.used a n,
    lockPages_totalFreePages_lt h.free_lt a n⟩

/-- **One call** keeps the count. -/
theorem Counted.call (h : m.Counted) (hT : m.totalPages ≤ 2 ^ 52) (c : PmmCall) :
    (m.call c).Counted := by
  have hone : m.requestPage.1.Counted := by
    rcases requestPage_cases hT with ⟨i, -, -, he⟩ | ⟨-, he⟩
    · rw [he]
      exact (h.lockPage (i * pageSize)).of_eq rfl rfl rfl
    · rw [he]
      exact h.of_eq rfl rfl rfl
  cases c with
  | requestPage => exact hone
  | requestPages n =>
    rw [PhysicalMemoryManager.call]
    rcases requestPages_outcome h.small n with he | ⟨-, he⟩ | ⟨i, -, -, -, -, he⟩
    · rw [he]
      exact h
    · rw [he]
      exact hone
    · rw [he]
      exact (h.lockPages (i * pageSize) n).of_eq rfl rfl rfl
  | lockPage a => exact h.lockPage a
  | lockPages a n => exact h.lockPages a n
  | freePage a =>
    exact ⟨(freePage_same m a).size.trans_le h.small, freePage_countsUsed h.small h.used a,
      freePage_totalFreePages_lt h.free_lt a⟩
  | freePages a n =>
    exact ⟨(freePages_same m a n).size.trans_le h.small, freePages_countsUsed h.small h.used a n,
      freePages_totalFreePages_lt h.free_lt a n⟩

theorem card_usedPages_add (hT : m.totalPages ≤ 8 * m.pageMap.size) :
    m.usedPages.card + m.clearPages = m.totalPages + m.usedBehind.card := by
  have hsplit : m.usedPages =
      ((Finset.range m.totalPages).filter fun p => m.pageMap.get p = true) ∪ m.usedBehind := by
    ext p
    simp only [usedPages, usedBehind, Finset.mem_union, Finset.mem_filter, Finset.mem_range,
      Finset.mem_Ico]
    constructor
    · rintro ⟨hp, hget⟩
      exact (Nat.lt_or_ge p m.totalPages).imp (⟨·, hget⟩) (⟨⟨·, hp⟩, hget⟩)
    · rintro (⟨hp, hget⟩ | ⟨⟨-, hp⟩, hget⟩)
      · exact ⟨by omega, hget⟩
      · exact ⟨hp, hget⟩
  have hapart : Disjoint ((Finset.range m.totalPages).filter fun p => m.pageMap.get p = true)
      m.usedBehind := by
    refine Finset.disjoint_left.2 fun p hp hp' => ?_
    have hlt := Finset.mem_range.1 (Finset.mem_filter.1 hp).1
    have hge := (Finset.mem_Ico.1 (Finset.mem_filter.1 hp').1).1
    omega
  have hbelow := Finset.card_filter_add_card_filter_not (s := Finset.range m.totalPages)
    fun p => m.pageMap.get p = true
  simp only [Bool.not_eq_true, Finset.card_range] at hbelow
  rw [hsplit, Finset.card_union_of_disjoint hapart, clearPages]
  omega

/-- **What `TotalFreePages` is**: with `e` pages counted too many, the number of clear pages, plus
`e`, minus the number of set bits from `TotalPages` on. -/
theorem Counted.freePages_eq {e : ℕ} (h : m.Counted) (hT : m.totalPages ≤ 8 * m.pageMap.size)
    (hsum : m.counterSum = m.totalPages + e) :
    m.totalFreePages = sub64 (m.clearPages + e) m.usedBehind.card := by
  have hcard := card_usedPages_add hT
  have hle := card_usedPages_le m
  have hsmall := h.small
  have hfree := h.free_lt
  have hbehind : m.usedBehind.card ≤ 8 * m.pageMap.size - m.totalPages :=
    (Finset.card_filter_le _ _).trans_eq (Nat.card_Ico _ _)
  rw [counterSum, h.used] at hsum
  unfold add64 at hsum
  unfold sub64
  omega

/-! ### The bits from `TotalPages` on -/

theorem get_lockPages_named (m : PhysicalMemoryManager) (a n p : ℕ) :
    (m.lockPages a n).pageMap.get p =
      (m.pageMap.get p || decide (p ∈ pagesFrom a n ∧ p / 8 < m.pageMap.size)) := by
  induction n with
  | zero => simp [PhysicalMemoryManager.lockPages, pagesFrom]
  | succ n ih =>
    rw [PhysicalMemoryManager.lockPages, get_lockPage, ih, (lockPages_same m a n).size,
      Bool.or_assoc, ← Bool.decide_or]
    refine congrArg _ (decide_eq_decide.2 ?_)
    rw [mem_pagesFrom_succ]
    constructor
    · rintro (⟨hp, hin⟩ | ⟨rfl, hin⟩)
      · exact ⟨.inl hp, hin⟩
      · exact ⟨.inr rfl, hin⟩
    · rintro ⟨hp | rfl, hin⟩
      · exact .inl ⟨hp, hin⟩
      · exact .inr ⟨rfl, hin⟩

/-- What is handed out lies below `TotalPages`, so that the bits from there on stay. -/
theorem get_of_handsOut {i n : ℕ} {c : PmmCall} (h : m.Fits) (hout : HandsOut m (m.call c) i n)
    (hp : m.totalPages ≤ p) : (m.call c).pageMap.get p = m.pageMap.get p := by
  obtain ⟨l, heq, hl⟩ := handedOut_call h c
  obtain rfl := List.append_cancel_right (hout.pages.symm.trans heq)
  rw [hout.bits, decide_eq_false, Bool.or_false]
  intro hin
  have hfree := (hl p (List.mem_range'_1.2 hin)).1
  exact absurd hfree.2.1 (by omega)

/-- **One call** and a page from `TotalPages` on: its bit is set or cleared if the call names it. -/
theorem get_call_behind (h : m.Fits) (c : PmmCall) (hT : m.totalPages ≤ p)
    (hp : p / 8 < m.pageMap.size) : (m.call c).pageMap.get p =
      if p ∈ c.named then c.locks else m.pageMap.get p := by
  cases c with
  | requestPage =>
    obtain ⟨i, n, hout, -⟩ := requestPage_handsOut h.covered
    exact get_of_handsOut (c := .requestPage) h hout hT
  | requestPages n =>
    obtain ⟨i, k, hout, -⟩ := requestPages_handsOut h.covered n
    exact get_of_handsOut (c := .requestPages n) h hout hT
  | lockPage a =>
    rw [PhysicalMemoryManager.call, get_lockPage]
    by_cases hpa : p = a / pageSize
    · subst hpa
      simp [PmmCall.named, PmmCall.locks, hp]
    · simp [PmmCall.named, hpa]
  | lockPages a n =>
    rw [PhysicalMemoryManager.call, get_lockPages_named]
    by_cases hpa : p ∈ pagesFrom a n <;> simp [PmmCall.named, PmmCall.locks, hpa, hp]
  | freePage a =>
    rw [PhysicalMemoryManager.call, get_freePage]
    by_cases hpa : p = a / pageSize <;> simp [PmmCall.named, PmmCall.freed, PmmCall.locks, hpa]
  | freePages a n =>
    rw [PhysicalMemoryManager.call, get_freePages]
    by_cases hpa : p ∈ pagesFrom a n <;> simp [PmmCall.named, PmmCall.freed, PmmCall.locks, hpa]

end PhysicalMemoryManager

/-! ### Runs -/

/-- `init_physical` leaves the page locked, if it is none of those below `TotalPages`. -/
def LeftLocked (image : KernelImage) (memMap : List EfiMemoryDescriptor) (p : ℕ) : Prop :=
  (p = describedPages memMap ∧ p < 2 ^ 52) ∧ ¬ Conventional memMap p ∨ BitmapLocks memMap p ∨
    image.Locks p

instance (image : KernelImage) (memMap : List EfiMemoryDescriptor) :
    DecidablePred (LeftLocked image memMap) := fun _ =>
  inferInstanceAs (Decidable (_ ∨ _ ∨ _))

/-- The page is locked after the calls, if it is none of those below `TotalPages`: the last call
that names it locks it, or there is none and `init_physical` has left it locked. -/
def LockedAfter (image : KernelImage) (memMap : List EfiMemoryDescriptor) (calls : List PmmCall)
    (p : ℕ) : Bool :=
  (last (fun c : PmmCall => p ∈ c.named) calls).elim (decide (LeftLocked image memMap p))
    PmmCall.locks

/-- The number of page numbers from `TotalPages` to the end of the bitmap that are locked after the
calls. -/
def lockedBehind (image : KernelImage) (memMap : List EfiMemoryDescriptor) (calls : List PmmCall) :
    ℕ :=
  ((Finset.Ico (describedPages memMap) (8 * bitmapSize memMap)).filter fun p =>
    LockedAfter image memMap calls p = true).card

/-- The number of pages that `init_physical` counts too many. -/
def excessPages (memMap : List EfiMemoryDescriptor) : ℕ :=
  if describedPages memMap = 2 ^ 52 then 0 else 1

section Runs

variable {s : Machine} {image : KernelImage} {memMap : List EfiMemoryDescriptor}
  {m m' : PhysicalMemoryManager} {calls : List PmmCall}

theorem counted_initPhysical (hboot : s.pmm = boot) (hmap : WellFormedMap memMap)
    (hinit : s.initPhysical image memMap = some m) : m.Counted := by
  have hfits := fits_initPhysical hboot hmap hinit
  refine ⟨hfits.covered.small, initPhysical_usedPages hboot hmap hinit, ?_⟩
  obtain ⟨-, rfl⟩ := initPhysical_finalPhase hinit
  refine lockPages_totalFreePages_lt (lockPages_totalFreePages_lt ?_ _ _) _ _
  exact freeConventionalRuns_totalFreePages_lt (by decide : 0 < 2 ^ 64) memMap

/-- **In every run** the counters count the bitmap, and its bits from `TotalPages` on are those that
the memory map and the calls say. -/
theorem run_behind (hboot : s.pmm = boot) (hmap : WellFormedMap memMap)
    (hinit : s.initPhysical image memMap = some m) (hrun : Run AnyStep m calls m') :
    m'.Counted ∧ m'.Fits ∧ m'.totalPages = describedPages memMap ∧
      ∀ p, describedPages memMap ≤ p → p / 8 < bitmapSize memMap →
        m'.pageMap.get p = LockedAfter image memMap calls p := by
  have hfits := fits_initPhysical hboot hmap hinit
  obtain ⟨hT, hsize⟩ := initPhysical_totalPages hboot hmap.describedPages_le hinit
  refine hrun.trace_invariant (I := fun calls m' => m'.Counted ∧ m'.Fits ∧
    m'.totalPages = describedPages memMap ∧ ∀ p, describedPages memMap ≤ p →
      p / 8 < bitmapSize memMap → m'.pageMap.get p = LockedAfter image memMap calls p) ?_ ?_
  · refine ⟨counted_initPhysical hboot hmap hinit, hfits, hT, fun p hp hin => ?_⟩
    rw [initPhysical_bit hboot hmap hinit hin]
    refine decide_eq_decide.2 (or_congr_left (and_congr_left' ?_))
    omega
  · rintro calls m c _ ⟨hcounted, hfits, hT, hbits⟩ rfl
    refine ⟨hcounted.call hfits.1 c, call_fits hfits c, (m.call_sum c).2.trans hT,
      fun p hp hin => ?_⟩
    rw [get_call_behind hfits c (hT ▸ hp) (by rw [hfits.2, hT]; exact hin), hbits p hp hin,
      LockedAfter, LockedAfter, last_concat]
    split_ifs <;> rfl

/-- **What `TotalFreePages` is**, in every run. -/
theorem run_freePages_eq (hboot : s.pmm = boot) (hmap : WellFormedMap memMap)
    (hinit : s.initPhysical image memMap = some m) (hrun : Run AnyStep m calls m') :
    m'.totalFreePages = sub64 (m'.clearPages + excessPages memMap)
      (lockedBehind image memMap calls) ∧
      m'.clearPages ≤ 2 ^ 52 ∧ lockedBehind image memMap calls ≤ 8 := by
  have hle := hmap.describedPages_le
  obtain ⟨hcounted, hfits, hT, hbits⟩ := run_behind hboot hmap hinit hrun
  have hsize : m'.pageMap.size = bitmapSize memMap := by
    rw [hfits.2, hT]
    rfl
  have hbehind : m'.usedBehind.card = lockedBehind image memMap calls := by
    rw [usedBehind, lockedBehind, hT, hsize]
    refine congrArg Finset.card (Finset.filter_congr fun p hp => ?_)
    obtain ⟨hlo, hhi⟩ := Finset.mem_Ico.1 hp
    rw [hbits p hlo (by omega)]
  have hsum : m'.counterSum = m'.totalPages + excessPages memMap := by
    rw [(run_sum hrun).1, initPhysical_sum hboot hle hinit,
      (initPhysical_totalPages hboot hle hinit).1, hT, excessPages]
    split_ifs with hfull
    · exact hfull.symm
    · rfl
  refine ⟨hbehind ▸ hcounted.freePages_eq (by rw [hsize, hT, bitmapSize]; omega) hsum, ?_, ?_⟩
  · refine ((Finset.card_filter_le _ _).trans_eq (Finset.card_range _)).trans (hT ▸ hle)
  · refine ((Finset.card_filter_le _ _).trans_eq (Nat.card_Ico _ _)).trans ?_
    rw [bitmapSize]
    omega

/-- **When `TotalFreePages` is the number of clear pages**: in every run that starts with
`init_physical`, exactly if as many page numbers from `TotalPages` on are locked as `init_physical`
has counted too many, that is one, or none in a full address space.  Otherwise it is off by the
difference, and wraps below zero when that is larger than the number of clear pages. -/
theorem free_count_iff (hboot : s.pmm = boot) (hmap : WellFormedMap memMap)
    (hinit : s.initPhysical image memMap = some m) :
    ∀ calls m', Run AnyStep m calls m' →
      (m'.totalFreePages = m'.clearPages ↔ lockedBehind image memMap calls = excessPages memMap) ∧
      m'.totalFreePages =
        sub64 (m'.clearPages + excessPages memMap) (lockedBehind image memMap calls) := by
  intro calls m' hrun
  obtain ⟨hfree, hclear, hlocked⟩ := run_freePages_eq hboot hmap hinit hrun
  have hexcess : excessPages memMap ≤ 1 := by
    unfold excessPages
    split_ifs <;> decide
  refine ⟨?_, hfree⟩
  rw [hfree]
  unfold sub64
  omega

end Runs

theorem free_count_iff_boot : ∃ m, Machine.boot.initPhysical KernelImage.empty bootMap = some m ∧
    m.totalFreePages = m.clearPages := by
  obtain ⟨m, hm⟩ := initPhysical_boot
  have hiff := (free_count_iff (s := Machine.boot) rfl wellFormedMap_boot hm [] m .nil).1
  exact ⟨m, hm, hiff.2 (by decide)⟩

/-- With 2 MiB of memory at 2 MiB, locking the second page of it changes the bit of a page number
behind `TotalPages`. -/
theorem free_count_off : ¬ ∀ (s : Machine) (image : KernelImage) (memMap : List EfiMemoryDescriptor)
    (m : PhysicalMemoryManager), s.pmm = boot → WellFormedMap memMap →
    s.initPhysical image memMap = some m →
    ∀ calls m', Run AnyStep m calls m' → m'.totalFreePages = m'.clearPages := by
  intro hclaim
  obtain ⟨m, hm⟩ := initPhysical_boot
  have hrun : Run AnyStep m [.lockPage (513 * pageSize)] _ := .single rfl
  have hlaw := hclaim Machine.boot KernelImage.empty bootMap m rfl wellFormedMap_boot hm _ _ hrun
  obtain ⟨hfree, hclear, -⟩ := run_freePages_eq (s := Machine.boot) rfl wellFormedMap_boot hm hrun
  have hlocked : lockedBehind KernelImage.empty bootMap [.lockPage (513 * pageSize)] = 2 := by
    decide
  have hexcess : excessPages bootMap = 1 := by decide
  rw [hlaw, hlocked, hexcess] at hfree
  unfold sub64 at hfree
  omega

end Eterna
