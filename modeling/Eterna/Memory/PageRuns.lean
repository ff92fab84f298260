import Eterna.Library.Runs
import Eterna.Memory.InitPhysical

/-!
# Runs of the page allocator

What holds in every run of the page allocator that starts with `init_physical`.

* `Ledger.Sound` : every page that is outstanding lies below `FirstFreePage` or has its bit set;
* `AllocStep.newPages_fresh` : so a page that is handed out is not outstanding;
* `page_never_handed_out_twice` : no page is handed out twice without being freed in between, and
  `request_pages` locks exactly the run of clear pages it hands out;
* `counters_add_up_iff` : exactly when the two page counters add up to `TotalPages`.
-/

namespace Eterna

open Runs

/-- A call of the page allocator. -/
inductive PmmCall where
  | requestPage
  | requestPages (numberOfPages : ℕ)
  | lockPage (address : ℕ)
  | lockPages (address numberOfPages : ℕ)
  | freePage (address : ℕ)
  | freePages (address numberOfPages : ℕ)

/-- The pages of the addresses that `lock_pages` and `free_pages` run through. -/
def pagesFrom (address numberOfPages : ℕ) : List ℕ :=
  (List.range numberOfPages).map fun i => add64 address (mul64 i pageSize) / pageSize

/-- The pages a call frees. -/
def PmmCall.freed : PmmCall → List ℕ
  | .freePage address => [address / pageSize]
  | .freePages address n => pagesFrom address n
  | _ => []

namespace PhysicalMemoryManager

/-- The state after a call. -/
def call (m : PhysicalMemoryManager) : PmmCall → PhysicalMemoryManager
  | .requestPage => m.requestPage.1
  | .requestPages n => (m.requestPages n).1
  | .lockPage a => m.lockPage a
  | .lockPages a n => m.lockPages a n
  | .freePage a => m.freePage a
  | .freePages a n => m.freePages a n

/-- A call that returns without handing out a page changes at most the cursor. -/
theorem requestPages_sum (m : PhysicalMemoryManager) (n : ℕ) :
    (m.requestPages n).1.counterSum = m.counterSum ∧
      (m.requestPages n).1.totalPages = m.totalPages := by
  unfold requestPages
  split_ifs
  · exact ⟨rfl, rfl⟩
  · exact ⟨requestPage_sum m, requestPage_totalPages m⟩
  · exact ⟨rfl, rfl⟩
  · exact ⟨rfl, rfl⟩
  · cases searchRun m.pageMap n m.pageMap.length m.firstFreePage with
    | none => exact ⟨rfl, rfl⟩
    | some i => exact ⟨lockPages_sum m _ _, (lockPages_same m _ _).totalPages⟩

theorem call_sum (m : PhysicalMemoryManager) (c : PmmCall) :
    (m.call c).counterSum = m.counterSum ∧ (m.call c).totalPages = m.totalPages := by
  cases c with
  | requestPage => exact ⟨requestPage_sum m, requestPage_totalPages m⟩
  | requestPages n => exact requestPages_sum m n
  | lockPage a => exact ⟨lockPage_sum m a, (lockPage_same m a).totalPages⟩
  | lockPages a n => exact ⟨lockPages_sum m a n, (lockPages_same m a n).totalPages⟩
  | freePage a => exact ⟨freePage_sum m a, (freePage_same m a).totalPages⟩
  | freePages a n => exact ⟨freePages_sum m a n, (freePages_same m a n).totalPages⟩

end PhysicalMemoryManager

/-! ### The counters -/

/-- Any call at all. -/
def AnyStep (m : PhysicalMemoryManager) (c : PmmCall) (m' : PhysicalMemoryManager) : Prop :=
  m' = m.call c

/-- The two laws of the counters. -/
structure CountersAddUp (m : PhysicalMemoryManager) : Prop where
  pages : add64 m.totalFreePages m.totalUsedPages = m.totalPages
  ram : add64 m.freeRam m.usedRam = m.totalRam

theorem countersAddUp_iff {m : PhysicalMemoryManager} :
    CountersAddUp m ↔ m.counterSum = m.totalPages := by
  refine ⟨fun h => h.pages, fun h => ⟨h, ?_⟩⟩
  unfold PhysicalMemoryManager.counterSum at h
  simp only [PhysicalMemoryManager.freeRam, PhysicalMemoryManager.usedRam,
    PhysicalMemoryManager.totalRam, ← h, add64, mul64, pageSize]
  omega

theorem run_sum {m m' : PhysicalMemoryManager} {calls : List PmmCall}
    (h : Run AnyStep m calls m') :
    m'.counterSum = m.counterSum ∧ m'.totalPages = m.totalPages := by
  refine h.invariant (I := fun m' => m'.counterSum = m.counterSum ∧ m'.totalPages = m.totalPages)
    ⟨rfl, rfl⟩ ?_
  rintro u c _ ⟨hsum, hT⟩ rfl
  exact ⟨(u.call_sum c).1.trans hsum, (u.call_sum c).2.trans hT⟩

/-- After `init_physical`, in every run, the sum of the counters is `TotalPages` only if the memory
map fills the address space. -/
theorem run_countersAddUp_iff {s : Machine} {image : KernelImage}
    {memMap : List EfiMemoryDescriptor} {m m' : PhysicalMemoryManager} {calls : List PmmCall}
    (hboot : s.pmm = PhysicalMemoryManager.boot) (hmap : WellFormedMap memMap)
    (hinit : s.initPhysical image memMap = some m) (hrun : Run AnyStep m calls m') :
    CountersAddUp m' ↔ describedPages memMap = 2 ^ 52 := by
  have hle := hmap.describedPages_le
  obtain ⟨hsum, hT⟩ := run_sum hrun
  rw [countersAddUp_iff, hsum, hT, initPhysical_sum hboot hle hinit,
    (initPhysical_totalPages hboot hle hinit).1]
  split_ifs with h
  · exact eq_comm
  · exact iff_of_false (by omega) h

/-! ### Handing out pages -/

namespace PhysicalMemoryManager

/-- From `m` to `m'`, the `n` pages from page `i` on have been handed out. -/
structure HandsOut (m m' : PhysicalMemoryManager) (i n : ℕ) : Prop where
  pages : m'.handedOut = List.range' i n ++ m.handedOut
  above : m.firstFreePage ≤ i
  clear : ∀ k < n, m.pageMap.get (i + k) = false
  bits : ∀ j, m'.pageMap.get j = (m.pageMap.get j || decide (i ≤ j ∧ j < i + n))
  /-- The new pages lie below the new cursor or have a bit in the bitmap. -/
  taken : ∀ k < n, i + k < m'.firstFreePage ∨ m'.pageMap.get (i + k) = true
  cursor : m.firstFreePage ≤ m'.firstFreePage
  size : m'.pageMap.size = m.pageMap.size
  totalPages : m'.totalPages = m.totalPages

theorem HandsOut.none {m m' : PhysicalMemoryManager} (hbits : m'.pageMap = m.pageMap)
    (hout : m'.handedOut = m.handedOut) (hcursor : m.firstFreePage ≤ m'.firstFreePage)
    (hT : m'.totalPages = m.totalPages) : HandsOut m m' m.firstFreePage 0 := by
  refine ⟨by rw [hout]; rfl, le_rfl, fun k hk => absurd hk (Nat.not_lt_zero k), fun j => ?_,
    fun k hk => absurd hk (Nat.not_lt_zero k), hcursor, by rw [hbits], hT⟩
  rw [hbits, decide_eq_false (by omega), Bool.or_false]

/-- What the allocator needs to know about its bitmap: it covers all pages, and addresses do not
wrap. -/
structure Covered (m : PhysicalMemoryManager) : Prop where
  total : m.totalPages ≤ 2 ^ 52
  covers : m.totalPages < 8 * m.pageMap.size
  small : m.pageMap.size ≤ 2 ^ 52

theorem requestPage_handsOut {m : PhysicalMemoryManager} (h : m.Covered) : ∃ i n,
    HandsOut m m.requestPage.1 i n ∧
      (n = 1 ∧ m.requestPage.2 = i * pageSize ∨ n = 0 ∧ m.requestPage.2 = 0) := by
  rcases requestPage_cases h.total with ⟨i, hi, -, he⟩ | ⟨-, he⟩
  · have hcov := h.covers
    have hlt := hi.2.1
    have hin : i / 8 < m.pageMap.size := by omega
    rw [he]
    refine ⟨i, 1, ⟨rfl, hi.1, fun k hk => ?_, fun j => ?_, fun k hk => ?_, ?_, handOut_size m i,
      handOut_totalPages m i⟩, .inl ⟨rfl, rfl⟩⟩
    · rw [Nat.lt_one_iff.1 hk]
      exact hi.2.2
    · rw [get_handOut]
      congr 2
      apply propext
      constructor
      · rintro ⟨rfl, -⟩; omega
      · intro hj; exact ⟨by omega, hin⟩
    · rw [Nat.lt_one_iff.1 hk]
      exact .inl (Nat.lt_succ_self i)
    · have := hi.1
      rw [handOut_firstFreePage]
      omega
  · rw [he]
    exact ⟨_, 0, .none rfl rfl (le_max_left _ _) rfl, .inr ⟨rfl, rfl⟩⟩

/-- **`request_pages` hands out a run of clear pages and locks exactly these**, or nothing. -/
theorem requestPages_handsOut {m : PhysicalMemoryManager} (h : m.Covered) (n : ℕ) : ∃ i k,
    HandsOut m (m.requestPages n).1 i k ∧
      (k = n ∧ (m.requestPages n).2 = i * pageSize ∨ k = 0 ∧ (m.requestPages n).2 = 0) := by
  have hnone : ∃ i k, HandsOut m m i k ∧ (k = n ∧ 0 = i * pageSize ∨ k = 0 ∧ (0 : ℕ) = 0) :=
    ⟨_, 0, .none rfl rfl le_rfl rfl, .inr ⟨rfl, rfl⟩⟩
  rcases requestPages_outcome h.small n with he | ⟨rfl, -⟩ | ⟨i, -, hle, hend, hclear, he⟩
  · rw [he]
    exact hnone
  · exact requestPage_handsOut h
  · have hsame := lockPages_same m (i * pageSize) n
    have hsmall := h.small
    have hbits : ∀ j, (m.handOutRun i n).pageMap.get j =
        (m.pageMap.get j || decide (i ≤ j ∧ j < i + n)) := by
      intro j
      refine (get_lockPages m (by omega) j).trans ?_
      congr 2
      apply propext
      constructor
      · rintro ⟨h1, h2, -⟩
        exact ⟨h1, h2⟩
      · rintro ⟨h1, h2⟩
        exact ⟨h1, h2, by omega⟩
    rw [he]
    refine ⟨i, n, ⟨rfl, hle, hclear, hbits, fun k hk => .inr ?_, hsame.firstFreePage.ge,
      hsame.size, hsame.totalPages⟩, .inl ⟨rfl, rfl⟩⟩
    rw [hbits, decide_eq_true (by omega), Bool.or_true]

/-! ### Locking and freeing -/

theorem get_lockPages_of_get {m : PhysicalMemoryManager} {j : ℕ} (h : m.pageMap.get j = true)
    (a n : ℕ) : (m.lockPages a n).pageMap.get j = true := by
  induction n with
  | zero => exact h
  | succ n ih => rw [lockPages, get_lockPage, ih, Bool.true_or]

theorem mem_pagesFrom_succ {a n j : ℕ} : j ∈ pagesFrom a (n + 1) ↔
    j ∈ pagesFrom a n ∨ j = add64 a (mul64 n pageSize) / pageSize := by
  simp only [pagesFrom, List.range_succ, List.map_append, List.map_cons, List.map_nil,
    List.mem_append, List.mem_singleton]

theorem get_freePages (m : PhysicalMemoryManager) (a n j : ℕ) :
    (m.freePages a n).pageMap.get j = (m.pageMap.get j && decide (j ∉ pagesFrom a n)) := by
  induction n with
  | zero => simp [freePages, pagesFrom]
  | succ n ih =>
    rw [freePages, get_freePage, ih, Bool.and_assoc, ← Bool.decide_and]
    congr 2
    rw [mem_pagesFrom_succ, not_or]

end PhysicalMemoryManager

/-! ### Outstanding pages -/

/-- The page allocator together with the pages that are handed out and not freed since. -/
structure Ledger where
  /-- The allocator. -/
  pmm : PhysicalMemoryManager
  /-- The outstanding pages. -/
  outstanding : List ℕ

/-- The pages handed out between two states. -/
def newPages (m m' : PhysicalMemoryManager) : List ℕ :=
  m'.handedOut.take (m'.handedOut.length - m.handedOut.length)

theorem newPages_eq {m m' : PhysicalMemoryManager} {l : List ℕ}
    (h : m'.handedOut = l ++ m.handedOut) : newPages m m' = l := by
  simp [newPages, h]

/-- A call that frees only pages that were handed out before. -/
def AllocStep (l : Ledger) (c : PmmCall) (l' : Ledger) : Prop :=
  (∀ p ∈ c.freed, p ∈ l.pmm.handedOut) ∧
    l' = ⟨l.pmm.call c,
      (newPages l.pmm (l.pmm.call c) ++ l.outstanding).filter fun p => decide (p ∉ c.freed)⟩

/-- Every outstanding page lies below the cursor or has its bit set. -/
structure Ledger.Sound (l : Ledger) : Prop where
  covered : l.pmm.Covered
  taken : ∀ p ∈ l.outstanding, p < l.pmm.firstFreePage ∨ l.pmm.pageMap.get p = true

open PhysicalMemoryManager

theorem Ledger.Sound.handsOut {l : Ledger} (h : l.Sound) {m' : PhysicalMemoryManager} {i n : ℕ}
    (hm : HandsOut l.pmm m' i n) : Ledger.Sound ⟨m', List.range' i n ++ l.outstanding⟩ := by
  refine ⟨⟨hm.totalPages.trans_le h.covered.total, ?_, hm.size.trans_le h.covered.small⟩,
    fun p hp => ?_⟩
  · rw [hm.totalPages, hm.size]
    exact h.covered.covers
  · rcases List.mem_append.1 hp with hp | hp
    · obtain ⟨h1, h2⟩ := List.mem_range'_1.1 hp
      have := hm.taken (p - i) (by omega)
      rwa [Nat.add_sub_cancel' h1] at this
    · rcases h.taken p hp with hlt | hget
      · exact .inl (hlt.trans_le hm.cursor)
      · exact .inr (by rw [hm.bits, hget, Bool.true_or])

theorem Ledger.Sound.fresh {l : Ledger} (h : l.Sound) {m' : PhysicalMemoryManager} {i n : ℕ}
    (hm : HandsOut l.pmm m' i n) : ∀ p ∈ List.range' i n, p ∉ l.outstanding := by
  intro p hp hout
  obtain ⟨h1, h2⟩ := List.mem_range'_1.1 hp
  have hclear := hm.clear (p - i) (by omega)
  rw [Nat.add_sub_cancel' h1] at hclear
  rcases h.taken p hout with hlt | hget
  · have := hm.above
    omega
  · rw [hclear] at hget
    cases hget

theorem Ledger.Sound.of_same {l : Ledger} (h : l.Sound) {m' : PhysicalMemoryManager}
    (hsame : SameButBits l.pmm m') {out : List ℕ}
    (hout : ∀ p ∈ out, p ∈ l.outstanding ∧ (l.pmm.pageMap.get p = true → m'.pageMap.get p = true)) :
    Ledger.Sound ⟨m', out⟩ := by
  refine ⟨⟨hsame.totalPages.trans_le h.covered.total, ?_, hsame.size.trans_le h.covered.small⟩,
    fun p hp => ?_⟩
  · rw [hsame.totalPages, hsame.size]
    exact h.covered.covers
  · obtain ⟨hp, hget⟩ := hout p hp
    exact (h.taken p hp).imp (fun hlt => hsame.firstFreePage ▸ hlt) hget

/-- **Everything a call can do**: hand out a run of pages, or change bits of the bitmap, of which it
clears none but those of the pages it frees. -/
theorem call_cases {m : PhysicalMemoryManager} (h : m.Covered) (c : PmmCall) :
    (c.freed = [] ∧ ∃ i n, HandsOut m (m.call c) i n) ∨
    (SameButBits m (m.call c) ∧
      ∀ p ∉ c.freed, m.pageMap.get p = true → (m.call c).pageMap.get p = true) := by
  cases c with
  | requestPage =>
    obtain ⟨i, k, hm, -⟩ := requestPage_handsOut h
    exact .inl ⟨rfl, i, k, hm⟩
  | requestPages n =>
    obtain ⟨i, k, hm, -⟩ := requestPages_handsOut h n
    exact .inl ⟨rfl, i, k, hm⟩
  | lockPage a =>
    exact .inr ⟨lockPage_same m a, fun p _ hp => by rw [call, get_lockPage, hp, Bool.true_or]⟩
  | lockPages a n => exact .inr ⟨lockPages_same m a n, fun p _ hp => get_lockPages_of_get hp a n⟩
  | freePage a =>
    refine .inr ⟨freePage_same m a, fun p hfreed hp => ?_⟩
    rw [call, get_freePage, hp, Bool.true_and]
    exact decide_eq_true fun he => hfreed (by rw [he]; exact List.mem_singleton_self _)
  | freePages a n =>
    refine .inr ⟨freePages_same m a n, fun p hfreed hp => ?_⟩
    rw [call, get_freePages, hp, Bool.true_and]
    exact decide_eq_true hfreed

/-- **One call**: what it hands out is not outstanding, no page twice, and the ledger stays
sound. -/
theorem AllocStep.newPages_fresh {l l' : Ledger} {c : PmmCall} (h : l.Sound)
    (hstep : AllocStep l c l') : l'.Sound ∧ (newPages l.pmm l'.pmm).Nodup ∧
      ∀ p ∈ newPages l.pmm l'.pmm, p ∉ l.outstanding := by
  obtain ⟨-, rfl⟩ := hstep
  dsimp only
  rcases call_cases h.covered c with ⟨hfreed, i, n, hm⟩ | ⟨hsame, hget⟩
  · rw [newPages_eq hm.pages, hfreed]
    simp only [List.not_mem_nil, not_false_eq_true, decide_true, List.filter_true]
    exact ⟨h.handsOut hm, List.nodup_range', h.fresh hm⟩
  · have hnew : newPages l.pmm (l.pmm.call c) = [] :=
      newPages_eq (l := []) (by rw [hsame.handedOut]; rfl)
    rw [hnew, List.nil_append]
    refine ⟨h.of_same hsame fun p hp => ?_, List.nodup_nil, fun p hp => absurd hp List.not_mem_nil⟩
    obtain ⟨hp, hfreed⟩ := List.mem_filter.1 hp
    exact ⟨hp, hget p (of_decide_eq_true hfreed)⟩

/-- After `init_physical`, with the pages it took outstanding, the ledger is sound. -/
theorem sound_initPhysical {s : Machine} {image : KernelImage}
    {memMap : List EfiMemoryDescriptor} {m : PhysicalMemoryManager} (hboot : s.pmm = boot)
    (hmap : describedPages memMap ≤ 2 ^ 52) (hinit : s.initPhysical image memMap = some m) :
    Ledger.Sound ⟨m, m.handedOut⟩ := by
  obtain ⟨hT, hsize⟩ := initPhysical_totalPages hboot hmap hinit
  refine ⟨⟨hT.trans_le hmap, ?_, ?_⟩,
    fun p hp => .inl ((initPhysical_handedOut hboot hmap hinit).2 p hp)⟩
  · show m.totalPages < 8 * m.pageMap.size
    omega
  · show m.pageMap.size ≤ 2 ^ 52
    omega

theorem run_sound {l l' : Ledger} {calls : List PmmCall} (h : l.Sound)
    (hrun : Run AllocStep l calls l') : l'.Sound :=
  hrun.invariant h fun _ _ _ hs hstep => (hstep.newPages_fresh hs).1

/-- **No page is handed out twice** without being freed in between, counted from the start of
`init_physical`, and `request_pages` hands out runs of clear pages, whose bits it sets, and no
others. -/
theorem page_never_handed_out_twice {s : Machine} {image : KernelImage}
    {memMap : List EfiMemoryDescriptor} {m : PhysicalMemoryManager} (hboot : s.pmm = boot)
    (hmap : describedPages memMap ≤ 2 ^ 52) (hinit : s.initPhysical image memMap = some m) :
    m.handedOut.Nodup ∧
    ∀ calls l, Run AllocStep ⟨m, m.handedOut⟩ calls l → ∀ c l', AllocStep l c l' →
      (newPages l.pmm l'.pmm).Nodup ∧ (∀ p ∈ newPages l.pmm l'.pmm, p ∉ l.outstanding) ∧
      ∀ n, c = .requestPages n →
        (newPages l.pmm l'.pmm = [] ∧ (l.pmm.requestPages n).2 = 0) ∨
        ∃ i, newPages l.pmm l'.pmm = List.range' i n ∧ (l.pmm.requestPages n).2 = i * pageSize ∧
          (∀ k < n, l.pmm.pageMap.get (i + k) = false) ∧
          ∀ j, l'.pmm.pageMap.get j = (l.pmm.pageMap.get j || decide (i ≤ j ∧ j < i + n)) := by
  refine ⟨(initPhysical_handedOut hboot hmap hinit).1, fun calls l hrun c l' hstep => ?_⟩
  have hsound := run_sound (sound_initPhysical hboot hmap hinit) hrun
  refine ⟨(hstep.newPages_fresh hsound).2.1, (hstep.newPages_fresh hsound).2.2, fun n hc => ?_⟩
  obtain ⟨-, rfl⟩ := hstep
  subst hc
  obtain ⟨i, k, hm, ⟨rfl, hres⟩ | ⟨rfl, hres⟩⟩ := requestPages_handsOut hsound.covered n
  · exact .inr ⟨i, newPages_eq hm.pages, hres, hm.clear, hm.bits⟩
  · exact .inl ⟨newPages_eq hm.pages, hres⟩

theorem page_never_handed_out_twice_boot : ∃ m,
    Machine.boot.initPhysical KernelImage.empty bootMap = some m ∧
    m.handedOut.Nodup ∧
    ∀ calls l, Run AllocStep ⟨m, m.handedOut⟩ calls l → ∀ c l', AllocStep l c l' →
      (newPages l.pmm l'.pmm).Nodup ∧ ∀ p ∈ newPages l.pmm l'.pmm, p ∉ l.outstanding := by
  obtain ⟨m, hm⟩ := initPhysical_boot
  obtain ⟨hnodup, hruns⟩ := page_never_handed_out_twice (s := Machine.boot)
    rfl (by decide) hm
  refine ⟨m, hm, hnodup, fun calls l hrun c l' hstep => ?_⟩
  exact ⟨(hruns calls l hrun c l' hstep).1, (hruns calls l hrun c l' hstep).2.1⟩

/-- **When the counters add up**: in every run that starts with `init_physical`, `TotalFreePages`
and `TotalUsedPages` add up to `TotalPages` exactly if the memory map fills the whole 64-bit address
space; otherwise `lock_pages(0, TotalPages + 1)` has counted one page too many. -/
theorem counters_add_up_iff {s : Machine} {image : KernelImage}
    {memMap : List EfiMemoryDescriptor} {m : PhysicalMemoryManager} (hboot : s.pmm = boot)
    (hmap : WellFormedMap memMap) (hinit : s.initPhysical image memMap = some m) :
    ∀ calls m', Run AnyStep m calls m' → (CountersAddUp m' ↔ describedPages memMap = 2 ^ 52) :=
  fun _ _ hrun => run_countersAddUp_iff hboot hmap hinit hrun

theorem counters_add_up_iff_boot : ∃ m,
    Machine.boot.initPhysical KernelImage.empty bootMap = some m ∧
    ∀ calls m', Run AnyStep m calls m' → (CountersAddUp m' ↔ describedPages bootMap = 2 ^ 52) := by
  obtain ⟨m, hm⟩ := initPhysical_boot
  exact ⟨m, hm, counters_add_up_iff (s := Machine.boot) rfl wellFormedMap_boot hm⟩

/-- With 2 MiB of memory the counters are off by one as soon as `init_physical` returns. -/
theorem counters_off_by_one : ¬ ∀ (s : Machine) (image : KernelImage)
    (memMap : List EfiMemoryDescriptor) (m : PhysicalMemoryManager), s.pmm = boot →
    WellFormedMap memMap → s.initPhysical image memMap = some m →
    ∀ calls m', Run AnyStep m calls m' → CountersAddUp m' := by
  intro h
  obtain ⟨m, hm⟩ := initPhysical_boot
  have hbad := h Machine.boot KernelImage.empty bootMap m rfl wellFormedMap_boot hm [] m .nil
  rw [run_countersAddUp_iff (s := Machine.boot) rfl wellFormedMap_boot hm .nil] at hbad
  revert hbad
  decide

end Eterna
