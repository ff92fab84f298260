import Eterna.Memory.PageSupply

/-!
# Page 0 and `nullptr`

`request_page` and `request_pages` return `nullptr` when they fail, and the address of the first
page that they hand out when they do not; the address of page 0 is `nullptr`.

* `returnsNull_iff` : the states in which a call that hands out pages returns `nullptr`;
* `initialPhase_zero`, `initialPhase_zero_taken` : page 0 in the first phase of `init_physical`;
* `null_never_returned_iff` : no such call returns `nullptr`, exactly if page 0 is not conventional
  memory.
-/

namespace Eterna

open PhysicalMemoryManager Runs

namespace PhysicalMemoryManager

variable {m : PhysicalMemoryManager}

/-- What a call returns. -/
def result (m : PhysicalMemoryManager) : PmmCall → ℕ
  | .requestPage => m.requestPage.2
  | .requestPages n => (m.requestPages n).2
  | _ => 0

/-- The call hands out pages and returns `nullptr`. -/
def ReturnsNull (m : PhysicalMemoryManager) (c : PmmCall) : Prop :=
  newPages m (m.call c) ≠ [] ∧ m.result c = 0

/-- The call is a request that page 0, with the pages behind it, serves before all others. -/
def ServedByZero (m : PhysicalMemoryManager) : PmmCall → Prop
  | .requestPage => m.Free 0
  | .requestPages n => n = 1 ∧ m.Free 0 ∨ 2 ≤ n ∧ n ≤ m.totalFreePages ∧ n ≤ m.maxFreePagesInARow ∧
      n < m.pageMap.length ∧ m.ClearRun 0 n
  | _ => False

theorem ServedByZero.free {c : PmmCall} (hc : m.ServedByZero c) : m.Free 0 := by
  cases c with
  | requestPage => exact hc
  | requestPages n =>
    obtain ⟨-, hfree⟩ | ⟨hn, -, -, -, hcursor, hT, hclear⟩ := hc
    · exact hfree
    · exact ⟨hcursor, by omega, hclear 0 (by omega)⟩
  | lockPage | lockPages | freePage | freePages => exact hc.elim

theorem newPages_ne_nil {m' : PhysicalMemoryManager} {l : List ℕ}
    (h : m'.handedOut = l ++ m.handedOut) : newPages m m' ≠ [] ↔ l ≠ [] := by
  rw [newPages_eq h]

theorem requestPage_null_iff (h : m.Fits) :
    newPages m m.requestPage.1 ≠ [] ∧ m.requestPage.2 = 0 ↔ m.Free 0 := by
  rcases requestPage_cases h.1 with ⟨i, hi, hmin, he⟩ | ⟨hnone, he⟩
  · rw [he]
    constructor
    · rintro ⟨-, hnull⟩
      obtain rfl : i = 0 := by
        unfold pageSize at hnull
        omega
      exact hi
    · intro hzero
      obtain rfl : i = 0 := Nat.le_zero.1 (hmin 0 hzero)
      exact ⟨(newPages_ne_nil (l := [0]) rfl).2 (List.cons_ne_nil _ _), rfl⟩
  · rw [he]
    refine iff_of_false (fun hnull => ?_) (hnone 0)
    exact (newPages_ne_nil (l := []) rfl).1 hnull.1 rfl

theorem requestPages_null_iff (h : m.Fits) {n : ℕ} (hn : 2 ≤ n) :
    newPages m (m.requestPages n).1 ≠ [] ∧ (m.requestPages n).2 = 0 ↔ n ≤ m.totalFreePages ∧
      n ≤ m.maxFreePagesInARow ∧ n < m.pageMap.length ∧ m.ClearRun 0 n := by
  have hiff := requestPages_eq_iff h.covered.small hn
  have hlen : m.pageMap.length = m.totalPages / 8 + 1 := h.2
  constructor
  · rintro ⟨hnew, hnull⟩
    rcases requestPages_cases h.covered.small hn with ⟨i, hle, hend, hclear, he⟩ | he
    · rw [he] at hnull
      obtain rfl : i = 0 := by
        unfold pageSize at hnull
        omega
      rw [Nat.zero_add] at hend
      have hreach : n < m.pageMap.length := hend
      obtain ⟨hfree, hmax, -⟩ := hiff.1 ⟨0, he, hle, by omega, hclear⟩
      exact ⟨hfree, hmax, hreach, hle, by omega, hclear⟩
    · rw [he] at hnew
      exact absurd rfl ((newPages_ne_nil (l := []) rfl).1 hnew)
  · rintro ⟨hfree, hmax, hreach, hzero⟩
    obtain ⟨i, he, -⟩ := hiff.2 ⟨hfree, hmax, 0, hzero.1, by omega, hzero.2.2⟩
    refine ⟨?_, requestPages_of_clear_zero hn hzero hreach⟩
    rw [he]
    refine (newPages_ne_nil (l := List.range' i n) rfl).2 (List.ne_nil_of_length_pos ?_)
    rw [List.length_range']
    omega

/-- **One state**: when a call that hands out pages returns `nullptr`. -/
theorem returnsNull_iff (h : m.Fits) (c : PmmCall) : m.ReturnsNull c ↔ m.ServedByZero c := by
  have hnone : ∀ m' : PhysicalMemoryManager, m'.handedOut = m.handedOut → newPages m m' = [] :=
    fun m' hm => newPages_eq (l := []) hm
  cases c with
  | requestPage => exact requestPage_null_iff h
  | requestPages n =>
    rcases Nat.lt_or_ge n 2 with hn | hn
    · obtain rfl | rfl : n = 0 ∨ n = 1 := by omega
      · refine iff_of_false (fun hnull => hnull.1 (hnone _ rfl)) ?_
        rintro (⟨h01, -⟩ | ⟨h02, -⟩)
        · cases h01
        · omega
      · refine (requestPage_null_iff h).trans ((or_iff_left ?_).trans (and_iff_right rfl)).symm
        rintro ⟨h12, -⟩
        omega
    · refine (requestPages_null_iff h hn).trans ((or_iff_right ?_).trans (and_iff_right hn)).symm
      rintro ⟨rfl, -⟩
      omega
  | lockPage a =>
    exact iff_of_false (fun hnull => hnull.1 (hnone _ (lockPage_same m a).handedOut)) id
  | lockPages a n =>
    exact iff_of_false (fun hnull => hnull.1 (hnone _ (lockPages_same m a n).handedOut)) id
  | freePage a =>
    exact iff_of_false (fun hnull => hnull.1 (hnone _ (freePage_same m a).handedOut)) id
  | freePages a n =>
    exact iff_of_false (fun hnull => hnull.1 (hnone _ (freePages_same m a n).handedOut)) id

end PhysicalMemoryManager

/-! ### Page 0 in `init_physical` -/

section InitPhysical

variable {s : Machine} {image : KernelImage} {memMap : List EfiMemoryDescriptor}
  {m : PhysicalMemoryManager}

theorem KernelImage.not_locks_zero (image : KernelImage) : ¬ image.Locks 0 := fun hlocks =>
  absurd hlocks.1 (by decide)

/-- Unless it is conventional memory, page 0 is not handed out by the first phase. -/
theorem initialPhase_zero (hboot : s.pmm = boot) (hmap : WellFormedMap memMap)
    (hzero : ¬ Conventional memMap 0) : 0 ∉ (s.initialPhase image memMap).pmm.handedOut := by
  have hinv : (s.initialPhase image memMap).pmm.totalPages ≤ 2 ^ 52 ∧
      0 ∉ (s.initialPhase image memMap).pmm.handedOut ∧
      (s.initialPhase image memMap).pmm.pageMap.get 0 = true := by
    refine Machine.initialPhase_invariant (I := fun m => m.totalPages ≤ 2 ^ 52 ∧
      0 ∉ m.handedOut ∧ m.pageMap.get 0 = true) ?_ ?_
    · rintro m ⟨hT, hout, hset⟩
      rcases requestPage_cases hT with ⟨i, hi, -, he⟩ | ⟨-, he⟩
      · rw [he]
        refine ⟨(handOut_totalPages m i).trans_le hT, fun hmem => ?_,
          by rw [get_handOut, hset]; rfl⟩
        obtain rfl | hmem := List.mem_cons.1 hmem
        · exact Bool.false_ne_true (hi.2.2.symm.trans hset)
        · exact hout hmem
      · rw [he]
        exact ⟨hT, hout, hset⟩
    · obtain ⟨hT, hout⟩ := initialBitmap_same s.pmm image memMap
      refine ⟨?_, ?_, ?_⟩
      · rw [hT, hboot, countPages_boot (hmap.describedPages_le.trans_lt (by decide))]
        exact hmap.describedPages_le
      · rw [hout, hboot]
        exact List.not_mem_nil
      · rw [get_initialBitmap hmap, decide_eq_true_iff]
        exact ⟨by decide, .inl hzero⟩
  exact hinv.2.1

theorem initialPhase_zero_taken (hboot : s.pmm = boot) (hmap : WellFormedMap memMap)
    (hpages : 0 < describedPages memMap) (hzero : Conventional memMap 0) :
    0 ∈ (s.initialPhase image memMap).pmm.handedOut ∨ (s.initialPhase image memMap).pmm.Free 0 := by
  have hinv : (s.initialPhase image memMap).pmm.totalPages ≤ 2 ^ 52 ∧
      (0 ∈ (s.initialPhase image memMap).pmm.handedOut ∨
        (s.initialPhase image memMap).pmm.Free 0) := by
    refine Machine.initialPhase_invariant (I := fun m => m.totalPages ≤ 2 ^ 52 ∧
      (0 ∈ m.handedOut ∨ m.Free 0)) ?_ ?_
    · rintro m ⟨hT, hor⟩
      rcases requestPage_cases hT with ⟨i, hi, hmin, he⟩ | ⟨hnone, he⟩
      · rw [he]
        refine ⟨(handOut_totalPages m i).trans_le hT, .inl ?_⟩
        obtain hout | hfree := hor
        · exact .tail _ hout
        · obtain rfl := Nat.le_zero.1 (hmin 0 hfree)
          exact .head _
      · rw [he]
        exact ⟨hT, .inl (hor.resolve_right (hnone 0))⟩
    · have hT := (initialBitmap_same s.pmm image memMap).1
      rw [hboot] at hT ⊢
      rw [hT, countPages_boot (hmap.describedPages_le.trans_lt (by decide)),
        free_initialBitmap hmap]
      exact ⟨hmap.describedPages_le, .inr ⟨hpages, .inr ⟨hzero, image.not_locks_zero⟩⟩⟩
  exact hinv.2

/-- The bitmap does not lie at `nullptr`. -/
theorem not_bitmapLocks_zero (hmap : WellFormedMap memMap)
    (hinit : s.initPhysical image memMap = some m) : ¬ BitmapLocks memMap 0 := by
  intro hlocks
  unfold Machine.initPhysical at hinit
  dsimp only at hinit
  split_ifs at hinit with hnone
  rw [not_or] at hnone
  obtain ⟨d, hd⟩ := exists_bitmapSegment hmap hnone.2
  have haddress := hd.address
  rw [Nat.le_zero.1 hlocks.1, Nat.zero_mul] at haddress
  exact hnone.1 ((congrArg Prod.fst hd.chosen).trans haddress)

theorem Conventional.describedPages_pos {p : ℕ} (h : Conventional memMap p) :
    0 < describedPages memMap := by
  obtain ⟨d, hd, -, hp⟩ := h
  have hpages := Finset.mem_Ico.1 hp
  have hle : d.numPages ≤ describedPages memMap :=
    List.le_sum_of_mem (List.mem_map_of_mem hd)
  omega

/-- After `init_physical`, page 0 is in use for good unless it is conventional memory; if it is, it
has been handed out, or is next. -/
theorem initPhysical_zero (hboot : s.pmm = boot) (hmap : WellFormedMap memMap)
    (hinit : s.initPhysical image memMap = some m) :
    if Conventional memMap 0 then 0 ∈ m.handedOut ∨ m.Free 0
    else 0 ∉ m.handedOut ∧ (0 < m.totalPages → m.pageMap.get 0 = true) := by
  obtain ⟨hout, hcursor⟩ := initPhysical_handedOut_eq hinit
  have hT := (initPhysical_totalPages hboot hmap.describedPages_le hinit).1
  rw [hout]
  split_ifs with hzero
  · have hpos := hzero.describedPages_pos
    have htaken : 0 ∈ (s.initialPhase image memMap).pmm.handedOut ∨
        (s.initialPhase image memMap).pmm.Free 0 := initialPhase_zero_taken hboot hmap hpos hzero
    refine htaken.imp_right fun hfree => ?_
    refine ⟨hcursor ▸ hfree.1, hT ▸ hpos, ?_⟩
    rw [initPhysical_get hboot hmap hinit hpos, decide_eq_false_iff_not, not_or, not_or, not_not]
    exact ⟨hzero, not_bitmapLocks_zero hmap hinit, image.not_locks_zero⟩
  · refine ⟨initialPhase_zero hboot hmap hzero, fun hpos => ?_⟩
    rw [initPhysical_get hboot hmap hinit (hT ▸ hpos), decide_eq_true_iff]
    exact .inl hzero

/-! ### Runs -/

theorem run_not_free_zero {m' : PhysicalMemoryManager} {calls : List PmmCall} (hfits : m.Fits)
    (hset : 0 < m.totalPages → m.pageMap.get 0 = true) (hrun : Run AnyStep m calls m')
    (hfreed : ∀ c ∈ calls, 0 ∉ c.freed) : ¬ m'.Free 0 := by
  have hinv : m'.Fits ∧ (0 < m'.totalPages → m'.pageMap.get 0 = true) := by
    revert hfreed
    refine hrun.trace_invariant (I := fun calls m' => (∀ c ∈ calls, 0 ∉ c.freed) →
      m'.Fits ∧ (0 < m'.totalPages → m'.pageMap.get 0 = true)) (fun _ => ⟨hfits, hset⟩) ?_
    rintro calls u c _ ih rfl hfreed
    obtain ⟨hfits, hset⟩ := ih fun c hc => hfreed c (List.mem_append_left _ hc)
    refine ⟨call_fits hfits c, fun hpos => ?_⟩
    rw [(u.call_sum c).2] at hpos
    exact get_call hfits.covered (hset hpos) (hfreed c (by simp))
  rintro ⟨-, hpos, hclear⟩
  exact Bool.false_ne_true (hclear.symm.trans (hinv.2 hpos))

/-- **When success and failure can be told apart**: in every state, a call that hands out pages
returns `nullptr` exactly if it is served by page 0.  The requests of `init_physical` and those of
all runs that do not free page 0 never return it, exactly if page 0 is not conventional memory. -/
theorem null_never_returned_iff (hboot : s.pmm = boot) (hmap : WellFormedMap memMap)
    (hinit : s.initPhysical image memMap = some m) :
    (∀ calls m', Run AnyStep m calls m' → ∀ c, m'.ReturnsNull c ↔ m'.ServedByZero c) ∧
    ((0 ∉ m.handedOut ∧ ∀ calls m', Run AnyStep m calls m' → (∀ c ∈ calls, 0 ∉ c.freed) →
      ∀ c, ¬ m'.ReturnsNull c) ↔ ¬ Conventional memMap 0) := by
  have hfits := fits_initPhysical hboot hmap hinit
  have hstart := initPhysical_zero hboot hmap hinit
  refine ⟨fun calls m' hrun c => returnsNull_iff (run_any_fits hfits hrun) c, ?_⟩
  constructor
  · rintro ⟨hout, hnever⟩ hzero
    rw [if_pos hzero] at hstart
    refine hnever [] m .nil (by simp) .requestPage ?_
    exact (returnsNull_iff hfits _).2 (hstart.resolve_left hout)
  · intro hzero
    rw [if_neg hzero] at hstart
    refine ⟨hstart.1, fun calls m' hrun hfreed c hnull => ?_⟩
    refine run_not_free_zero hfits hstart.2 hrun hfreed ?_
    exact ((returnsNull_iff (run_any_fits hfits hrun) c).1 hnull).free

end InitPhysical

theorem null_never_returned_iff_split : ∃ m,
    (Prekernel.small.machine fun _ => PageTable.zero).initPhysical
      Prekernel.small.toKernelImage splitMap = some m ∧
    0 ∉ m.handedOut ∧ ¬ m.ReturnsNull .requestPage := by
  obtain ⟨m, hm⟩ := initPhysical_splitMap
  obtain ⟨hout, hnever⟩ := (null_never_returned_iff (s := Prekernel.small.machine _) rfl
    wellFormedMap_splitMap hm).2.2 (by rw [conventional_splitMap]; decide)
  exact ⟨m, hm, hout, hnever [] m .nil (by simp) .requestPage⟩

/-- A kernel of 128 KiB at 1 MiB, and conventional memory from page 0 on. -/
def lowMap : List EfiMemoryDescriptor :=
  [⟨loaderData, 0x100000, 32⟩, ⟨conventionalMemory, 0, 100⟩, ⟨conventionalMemory, 0x200000, 300⟩]

theorem wellFormedMap_lowMap : WellFormedMap lowMap where
  aligned := by decide
  inside := by decide
  disjoint := by
    simp only [lowMap, List.pairwise_cons, List.mem_cons, List.not_mem_nil, or_false,
      forall_eq_or_imp, forall_eq, IsEmpty.forall_iff, implies_true, List.Pairwise.nil, and_true,
      Finset.disjoint_left, EfiMemoryDescriptor.pages, Finset.mem_Ico, pageSize]
    refine ⟨⟨fun p _ => ?_, fun p _ => ?_⟩, fun p _ => ?_⟩ <;> omega

theorem initPhysical_lowMap : ∃ m, (Prekernel.small.machine fun _ => PageTable.zero).initPhysical
    Prekernel.small.toKernelImage lowMap = some m :=
  initPhysical_isSome _ _ (by decide) (by decide)

/-- The first page that is handed out is page 0. -/
theorem null_returned :
    ¬ ∀ (k : Prekernel) (rest : PhysicalMemory) (memMap : List EfiMemoryDescriptor)
    (m : PhysicalMemoryManager), WellFormedMap memMap →
    (k.machine rest).initPhysical k.toKernelImage memMap = some m →
    0 ∉ m.handedOut ∧ ∀ calls m', Run AnyStep m calls m' → ∀ c, ¬ m'.ReturnsNull c := by
  intro hclaim
  obtain ⟨m, hm⟩ := initPhysical_lowMap
  obtain ⟨hout, hnever⟩ := hclaim _ _ _ m wellFormedMap_lowMap hm
  have hzero : Conventional lowMap 0 :=
    ⟨⟨conventionalMemory, 0, 100⟩, by simp [lowMap], rfl, Finset.mem_Ico.2 (by decide)⟩
  have hstart := initPhysical_zero (s := Prekernel.small.machine _) rfl wellFormedMap_lowMap hm
  rw [if_pos hzero] at hstart
  refine hnever [] m .nil .requestPage ((returnsNull_iff ?_ _).2 (hstart.resolve_left hout))
  exact fits_initPhysical (s := Prekernel.small.machine _) rfl wellFormedMap_lowMap hm

end Eterna
