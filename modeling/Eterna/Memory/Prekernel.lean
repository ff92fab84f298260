import Eterna.Memory.InitBitmaps
import Eterna.Memory.PageMap
import Eterna.Memory.Requests

/-!
# The page map that the kernel starts on

`prekernel.asm` puts five page tables into the data section of the kernel and makes the first of
them the active page map; they map the first 2 MiB.  `init_physical` maps up to 64 MiB in this page
map, so it asks for one page table for every further 2 MiB.

* `Prekernel.map_page` : what mapping one more page does to the tables, and when it asks for a page;
* `Prekernel.initialPhase_pmm` : the first phase of `init_physical` leaves the page allocator as
  `missingTables` calls of `request_page` do.
-/

namespace Eterna

open TableWalk PhysicalMemoryManager
open PageDirectoryEntry (next)

/-! ### The tables -/

/-- `PAGE_PRESENT` of `prekernel.asm`. -/
def pagePresent : ℕ := 1

/-- `PAGE_READ_WRITE` of `prekernel.asm`. -/
def pageReadWrite : ℕ := 1 <<< 1

/-- `PAGE_GLOBAL` of `prekernel.asm`. -/
def pageGlobal : ℕ := 1 <<< 8

/-- A kernel image with the five page tables of `prekernel.asm` in its data section.  They have to
lie in the 2 MiB that they map, as the kernel accesses page tables at their physical addresses. -/
structure Prekernel extends KernelImage where
  /-- The page of `prekernel_pml4`. -/
  pml4 : ℕ
  start_le_pml4 : kernelPhysical / pageSize ≤ pml4
  tables_le_end : pml4 + 5 ≤ kernelPhysical / pageSize + toKernelImage.byteCount / pageSize
  mapped : pml4 + 5 ≤ 512

namespace Prekernel

variable (k : Prekernel)

/-- The page of `prekernel_pml3`. -/
def pml3 : ℕ := k.pml4 + 1

/-- The page of `prekernel_pml3_high`. -/
def pml3High : ℕ := k.pml4 + 2

/-- The page of `prekernel_pml2`. -/
def pml2 : ℕ := k.pml4 + 3

/-- The page of `prekernel_pml1`. -/
def pml1 : ℕ := k.pml4 + 4

/-- The word `address + flags` for the address of a page. -/
def word (page flags : ℕ) : PageDirectoryEntry := ⟨BitVec.ofNat 64 (page * pageSize + flags)⟩

/-- Physical memory when `prekernel.asm` loads `cr3`: its five tables, and `rest` elsewhere. -/
def ram (rest : PhysicalMemory) : PhysicalMemory := fun f i =>
  if f = k.pml4 then
    if i = 0 then word k.pml3 (pagePresent ||| pageReadWrite)
    else if i = 511 then word k.pml3High (pagePresent ||| pageReadWrite ||| pageGlobal)
    else {}
  else if f = k.pml3 then
    if i = 0 then word k.pml2 (pagePresent ||| pageReadWrite) else {}
  else if f = k.pml3High then
    if i = 510 then word k.pml2 (pagePresent ||| pageReadWrite ||| pageGlobal) else {}
  else if f = k.pml2 then
    if i = 0 then word k.pml1 (pagePresent ||| pageReadWrite ||| pageGlobal) else {}
  else if f = k.pml1 then word i (pagePresent ||| pageReadWrite ||| pageGlobal)
  else rest f i

/-- The machine when `init_physical` is called. -/
def machine (rest : PhysicalMemory) : Machine where
  pmm := boot
  ram := k.ram rest
  activePageMap := 0
  cr3 := k.pml4 * pageSize

/-- The number of pages that the first phase of `init_physical` maps. -/
def identityPages (totalPages : ℕ) : ℕ :=
  pageSteps 0 (min (mul64 totalPages pageSize) initialPageBitmapMaxAddress)

/-- The number of page tables that mapping these pages lacks: one for every 2 MiB but the first. -/
def missingTables (totalPages : ℕ) : ℕ := (identityPages totalPages - 1) / 512

theorem identityPages_le (totalPages : ℕ) :
    identityPages totalPages ≤ initialPageBitmapPageCount := by
  have hle : min (mul64 totalPages pageSize) initialPageBitmapMaxAddress ≤ 16384 * 4096 :=
    Nat.min_le_right _ _
  unfold identityPages pageSteps
  generalize min (mul64 totalPages pageSize) initialPageBitmapMaxAddress = bound at hle ⊢
  show (bound - 0 + 4095) / 4096 ≤ 16384
  omega

theorem next_word {page flags : ℕ} (hpage : page < 2 ^ 40) (hflags : flags < 4096)
    (hpresent : flags.testBit 0 = true) : (word page flags).next = some page := by
  have hvalue : page * pageSize + flags = 2 ^ 12 * page + flags := by
    rw [Nat.mul_comm]
    rfl
  have hbits : ∀ i < 64, (word page flags).value.getLsbD i =
      if i < 12 then flags.testBit i else page.testBit (i - 12) := by
    intro i hi
    have hflags' : flags < 2 ^ 12 := hflags
    rw [word, BitVec.getLsbD_ofNat, decide_eq_true hi, Bool.true_and, hvalue,
      Nat.testBit_two_pow_mul_add _ hflags']
  rw [PageDirectoryEntry.next_of_present]
  · congr 1
    apply Nat.eq_of_testBit_eq
    intro i
    rw [PageDirectoryEntry.address_testBit]
    by_cases hi : i < 40
    · rw [hbits _ (by omega), if_neg (by omega), Nat.add_sub_cancel_left, decide_eq_true hi,
        Bool.true_and]
    · have hlt : page < 2 ^ i := hpage.trans_le (Nat.pow_le_pow_right (by decide) (by omega))
      rw [decide_eq_false hi, Bool.false_and, Nat.testBit_lt_two_pow hlt]
  · rw [PageDirectoryEntry.flag_eq]
    exact (hbits 0 (by decide)).trans hpresent

/-! ### Mapping one more page -/

/-- The three tables that every walk to a low address goes through. -/
def IsUpper (f : ℕ) : Prop := f = k.pml4 ∨ f = k.pml3 ∨ f = k.pml2

/-- The page allocator of the first phase, after at most `r` requests: its bitmap is the initial
one, the upper tables are locked in it, and the cursor has moved little beyond what it covers. -/
structure Serves (r : ℕ) (m : PhysicalMemoryManager) : Prop where
  total : m.totalPages ≤ 2 ^ 52
  size : m.pageMap.size = initialPageBitmapSize
  cursor : m.firstFreePage ≤ initialPageBitmapPageCount + r
  locked : ∀ f, k.IsUpper f → m.pageMap.get f = true

/-- The walk to the first 1 GiB goes through the upper tables, and the first `r` entries of the last
of them point to page tables. -/
structure Reaches (r : ℕ) (ram : PhysicalMemory) : Prop where
  pml4 : (ram k.pml4 0).next = some k.pml3
  pml3 : (ram k.pml3 0).next = some k.pml2
  pml2 : ∀ j : Fin 512, (ram k.pml2 j).next.isSome ↔ (j : ℕ) < r
  pml1 : ∀ (j : Fin 512) (g : ℕ), (ram k.pml2 j).next = some g → ¬ k.IsUpper g

variable {k} {r : ℕ} {m : PhysicalMemoryManager} {s : Machine}

theorem Serves.mono {r' : ℕ} (h : k.Serves r m) (hr : r ≤ r') : k.Serves r' m :=
  ⟨h.total, h.size, h.cursor.trans (Nat.add_le_add_left hr _), h.locked⟩

theorem Serves.get_beyond (h : k.Serves r m) :
    m.pageMap.get (initialPageBitmapPageCount + r) = false := by
  refine Bitmap.get_of_le ?_
  rw [h.size]
  show 2048 ≤ (16384 + r) / 8
  omega

/-- `request_page` returns a low page that is no upper table, or `nullptr`. -/
theorem Serves.requestPage (h : k.Serves r m) : k.Serves (r + 1) m.requestPage.1 ∧
    ¬ k.IsUpper (frameOf m.requestPage.2) ∧
    frameOf m.requestPage.2 ≤ initialPageBitmapPageCount + r := by
  have hbeyond := h.get_beyond
  rcases requestPage_cases h.total with ⟨i, hi, hmin, he⟩ | ⟨hnone, he⟩
  · have hle : i ≤ initialPageBitmapPageCount + r := by
      by_contra hlt
      have := hmin _ ⟨h.cursor, by have := hi.2.1; omega, hbeyond⟩
      omega
    rw [he, frameOf_mul]
    refine ⟨⟨?_, ?_, ?_, fun f hf => ?_⟩, fun hup => ?_, hle⟩
    · rw [handOut_totalPages]
      exact h.total
    · rw [handOut_size]
      exact h.size
    · rw [handOut_firstFreePage]
      omega
    · rw [get_handOut, h.locked f hf, Bool.true_or]
    · exact Bool.false_ne_true (hi.2.2.symm.trans (h.locked i hup))
  · have hle : m.totalPages ≤ initialPageBitmapPageCount + r := by
      by_contra hlt
      exact hnone _ ⟨h.cursor, by omega, hbeyond⟩
    have hcursor := h.cursor
    rw [he]
    dsimp only
    rw [show frameOf 0 = 0 from rfl]
    refine ⟨⟨h.total, h.size, by dsimp only; omega, h.locked⟩, fun hup => ?_, Nat.zero_le _⟩
    -- page 0 lies below the kernel image
    have hpos : 256 ≤ k.pml4 := k.start_le_pml4
    simp only [IsUpper, Prekernel.pml3, Prekernel.pml2] at hup
    omega

theorem Serves.requestPage_low (h : k.Serves r m) (hr : r < 2 ^ 32) :
    k.Serves (r + 1) m.requestPage.1 ∧
    ¬ k.IsUpper (frameOf m.requestPage.2) ∧ frameOf m.requestPage.2 < 2 ^ 40 := by
  obtain ⟨hserves, hup, hle⟩ := h.requestPage
  have hcount : initialPageBitmapPageCount = 16384 := rfl
  exact ⟨hserves, hup, by omega⟩

/-- Edits that keep the pointers of the upper tables. -/
def SameUpper (k : Prekernel) (ram ram' : PhysicalMemory) : Prop :=
  ∀ f, k.IsUpper f → ∀ i, (ram' f i).next = (ram f i).next

theorem Reaches.of_same {ram ram' : PhysicalMemory} (h : k.Reaches r ram)
    (hsame : SameUpper k ram ram') : k.Reaches r ram' := by
  refine ⟨?_, ?_, fun j => ?_, fun j g hg => h.pml1 j g ?_⟩
  · rw [hsame _ (.inl rfl)]
    exact h.pml4
  · rw [hsame _ (.inr (.inl rfl))]
    exact h.pml3
  · rw [hsame _ (.inr (.inr rfl))]
    exact h.pml2 j
  · rwa [hsame _ (.inr (.inr rfl))] at hg

theorem next_enter {f : ℕ} {i : Fin 512} {mf : BitVec 64} (hmf : hasFlag mf .present = true)
    (hp : (s.ram f i).flag .present = true) (g : ℕ) (j : Fin 512) :
    ((s.enter f i mf).ram g j).next = (s.ram g j).next := by
  unfold Machine.enter
  dsimp only
  by_cases h : g = f ∧ j = i
  · obtain ⟨rfl, rfl⟩ := h
    rw [write_self, PageDirectoryEntry.next_setFlags _ hmf,
      PageDirectoryEntry.next_of_present hp]
  · rw [write_of_ne _ _ h]

theorem nextTable_of_next {table f g : ℕ} {i : Fin 512} (mf : BitVec 64) (hf : frameOf table = f)
    (h : (s.ram f i).next = some g) : (s.ram f i).flag .present = true ∧
      s.nextTable table i mf = (s.enter f i mf, g <<< 12) := by
  unfold next at h
  split_ifs at h with hp
  obtain rfl := Option.some.inj h
  refine ⟨hp, ?_⟩
  simp only [Machine.nextTable, hf, hp, ↓reduceIte, Machine.store, Machine.enter,
    PageDirectoryEntry.address_setFlags]

/-- A table that is missing: a page is asked for, cleared, and put below the entry. -/
theorem nextTable_of_absent {table f n : ℕ} {i : Fin 512} {mf : BitVec 64}
    (hmf : hasFlag mf .present = true) (hf : frameOf table = f)
    (habs : (s.ram f i).flag .present = false) (hn : frameOf s.pmm.requestPage.2 = n)
    (hlow : n < 2 ^ 40) : ∃ e : PageDirectoryEntry, e.next = some n ∧ s.nextTable table i mf =
      ({ s with
          pmm := s.pmm.requestPage.1
          ram := write (fill s.ram n PageTable.zero) f i e }, n <<< 12) := by
  refine ⟨((s.ram f i).setAddress n).setFlags mf, ?_, ?_⟩
  · rw [PageDirectoryEntry.next_setFlags _ hmf, PageDirectoryEntry.address_setAddress,
      Nat.mod_eq_of_lt hlow]
  · simp only [Machine.nextTable, hf, habs, Bool.false_eq_true, ↓reduceIte,
      Machine.requestPage, hn, Machine.clearPage, Machine.store,
      PageDirectoryEntry.address_setFlags, PageDirectoryEntry.address_setAddress,
      Nat.mod_eq_of_lt hlow]

theorem ofAddress_page {i : ℕ} (hi : i < 2 ^ 18) : PageMapIndexer.ofAddress (i * pageSize) =
    ⟨0, 0, ⟨i / 512, by omega⟩, ⟨i % 512, Nat.mod_lt _ (by decide)⟩⟩ := by
  simp only [PageMapIndexer.ofAddress, PageMapIndexer.mk.injEq, Fin.ext_iff, lowNine_val,
    Nat.shiftRight_eq_div_pow, pageSize, Fin.val_zero]
  omega

theorem Reaches.install {ram : PhysicalMemory} {j : Fin 512} {n : ℕ} {e : PageDirectoryEntry}
    (h : k.Reaches r ram) (hj : (j : ℕ) = r) (hn : ¬ k.IsUpper n) (he : e.next = some n) :
    k.Reaches (r + 1) (write (fill ram n PageTable.zero) k.pml2 j e) := by
  -- an upper table is not the new page, so only entry `j` of `prekernel_pml2` changes
  have hkeep : ∀ f, k.IsUpper f → ∀ i, (f = k.pml2 → i ≠ j) →
      write (fill ram n PageTable.zero) k.pml2 j e f i = ram f i := by
    intro f hf i hi
    have hfn : f ≠ n := fun e => hn (e ▸ hf)
    rw [write_of_ne _ _ fun e => hi e.1 e.2, fill_of_ne _ _ hfn]
  have h42 : k.pml4 ≠ k.pml2 := by unfold Prekernel.pml2; omega
  have h32 : k.pml3 ≠ k.pml2 := by unfold Prekernel.pml2 Prekernel.pml3; omega
  refine ⟨?_, ?_, fun i => ?_, fun i g hg => ?_⟩
  · rw [hkeep _ (.inl rfl) _ fun e => absurd e h42]
    exact h.pml4
  · rw [hkeep _ (.inr (.inl rfl)) _ fun e => absurd e h32]
    exact h.pml3
  · by_cases hij : i = j
    · subst hij
      rw [write_self, he]
      exact iff_of_true rfl (by omega)
    · have hne : (i : ℕ) ≠ j := fun e => hij (Fin.ext e)
      rw [hkeep _ (.inr (.inr rfl)) _ fun _ => hij, h.pml2 i]
      omega
  · by_cases hij : i = j
    · subst hij
      rw [write_self, he] at hg
      rwa [← Option.some.inj hg]
    · rw [hkeep _ (.inr (.inr rfl)) _ fun _ => hij] at hg
      exact h.pml1 i g hg

theorem Reaches.absent {ram : PhysicalMemory} {j : Fin 512} (h : k.Reaches r ram) (hj : r ≤ j) :
    (ram k.pml2 j).flag .present = false := by
  cases hp : (ram k.pml2 j).flag .present with
  | false => rfl
  | true =>
    have hsome := PageDirectoryEntry.next_of_present hp
    exact absurd ((h.pml2 j).1 (by rw [hsome]; rfl)) (Nat.not_lt_of_le hj)

/-- The last level: the page table below entry `j` of `prekernel_pml2`, which is asked for if there
is none. -/
theorem nextTable_pml2 {table : ℕ} {j : Fin 512} {mf : BitVec 64}
    (hmf : hasFlag mf .present = true) (htable : frameOf table = k.pml2) (h : k.Reaches r s.ram)
    (hs : k.Serves r s.pmm) (hj : (j : ℕ) ≤ r) :
    k.Reaches (max r (j + 1)) (s.nextTable table j mf).1.ram ∧
      (s.nextTable table j mf).1.pmm = (if (j : ℕ) < r then s.pmm else s.pmm.requestPage.1) ∧
      ¬ k.IsUpper (frameOf (s.nextTable table j mf).2) := by
  by_cases hlt : (j : ℕ) < r
  · obtain ⟨g, hg⟩ := Option.isSome_iff_exists.1 ((h.pml2 j).2 hlt)
    obtain ⟨hp, he⟩ := nextTable_of_next mf htable hg
    rw [he, if_pos hlt, max_eq_left hlt, frameOf_shiftLeft]
    exact ⟨h.of_same fun f _ i => next_enter hmf hp f i, rfl, h.pml1 j g hg⟩
  · have hjr : (j : ℕ) = r := by omega
    obtain ⟨-, hup, hlow⟩ := hs.requestPage_low (by omega)
    obtain ⟨e, hnext, he⟩ := nextTable_of_absent hmf htable (h.absent hjr.ge) rfl hlow
    rw [he, if_neg hlt, frameOf_shiftLeft, hjr, max_eq_right (Nat.le_succ r)]
    exact ⟨h.install hjr hup hnext, rfl, hup⟩

theorem map_upper {i p : ℕ} {mf : BitVec 64} (h : k.Reaches r s.ram) (hi : i < 2 ^ 18)
    (hmf : hasFlag mf .present = true) : ∃ u : Machine, u.pmm = s.pmm ∧
      (∀ f j, (u.ram f j).next = (s.ram f j).next) ∧ (∀ f, ¬ k.IsUpper f → u.ram f = s.ram f) ∧
      s.map (k.pml4 * pageSize) (i * pageSize) p mf =
        let pt := u.nextTable (k.pml2 <<< 12) ⟨i / 512, by omega⟩ mf
        let j : Fin 512 := ⟨i % 512, Nat.mod_lt _ (by decide)⟩
        pt.1.store pt.2 j (((pt.1.ram (frameOf pt.2) j).setAddress (p >>> 12)).setFlags mf) := by
  have hpos : 256 ≤ k.pml4 := k.start_le_pml4
  have hne : k.pml4 * pageSize ≠ 0 := by unfold pageSize; omega
  obtain ⟨hp4, he4⟩ := nextTable_of_next mf (frameOf_mul k.pml4) h.pml4
  have hreach4 := h.of_same fun f _ j => next_enter hmf hp4 f j
  obtain ⟨hp3, he3⟩ := nextTable_of_next mf (frameOf_shiftLeft k.pml3) hreach4.pml3
  refine ⟨(s.enter k.pml4 0 mf).enter k.pml3 0 mf, rfl, fun f j => ?_, fun f hf => ?_, ?_⟩
  · exact (next_enter hmf hp3 f j).trans (next_enter hmf hp4 f j)
  · funext j
    refine (write_of_ne _ _ fun e => hf (.inr (.inl e.1))).trans ?_
    exact write_of_ne _ _ fun e => hf (.inl e.1)
  · simp only [Machine.map, if_neg hne, ofAddress_page hi, he4, he3]

/-- **Mapping page `i`**, when the pages below it have page tables: a page is asked for exactly when
`i` is the first page behind them. -/
theorem map_page {i : ℕ} (h : k.Reaches r s.ram) (hs : k.Serves r s.pmm) (hi : i / 512 ≤ r)
    (hr : r < 512) :
    let t := s.map (k.pml4 * pageSize) (i * pageSize) (i * pageSize) Machine.presentWriteGlobal
    k.Reaches (max r (i / 512 + 1)) t.ram ∧
      t.pmm = if i / 512 < r then s.pmm else s.pmm.requestPage.1 := by
  have hmf : hasFlag Machine.presentWriteGlobal .present = true := by decide
  obtain ⟨u, hpmm, hnext, -, he⟩ := map_upper (i := i) (p := i * pageSize) h (by omega) hmf
  have hu := h.of_same fun f _ j => hnext f j
  obtain ⟨hreach, hreq, hup⟩ := nextTable_pml2 (j := ⟨i / 512, by omega⟩) hmf
    (frameOf_shiftLeft k.pml2) hu (hpmm ▸ hs) hi
  rw [hpmm] at hreq
  rw [he]
  generalize u.nextTable (k.pml2 <<< 12) ⟨i / 512, by omega⟩ Machine.presentWriteGlobal = pt
    at hreach hreq hup ⊢
  -- the leaf is written into a page table, which is no upper table
  refine ⟨hreach.of_same fun f hf j => ?_, hreq⟩
  exact congrArg _ (write_of_ne _ _ fun e => hup (e.1 ▸ hf))

/-- **Mapping the first `n` pages** asks for a page for every 2 MiB but the first. -/
theorem mapPages_pmm {n : ℕ} (h : k.Reaches 1 s.ram) (hs : k.Serves 1 s.pmm)
    (hn : n ≤ initialPageBitmapPageCount) :
    let t := Machine.mapPages (k.pml4 * pageSize) Machine.presentWriteGlobal (· * pageSize)
      (· * pageSize) n s
    k.Reaches ((n - 1) / 512 + 1) t.ram ∧ k.Serves ((n - 1) / 512 + 1) t.pmm ∧
      t.pmm = s.pmm.requestTimes ((n - 1) / 512) := by
  have hcount : initialPageBitmapPageCount = 16384 := rfl
  induction n with
  | zero => exact ⟨h, hs, rfl⟩
  | succ n ih =>
    obtain ⟨hreach, hserves, hpmm⟩ := ih (by omega)
    have hle : n / 512 ≤ (n - 1) / 512 + 1 := by omega
    obtain ⟨hreach', hpmm'⟩ := map_page hreach hserves hle (by omega)
    intro t
    rw [max_eq_right (by omega)] at hreach'
    rw [Nat.add_sub_cancel]
    split_ifs at hpmm' with hlt
    · have heq : (n - 1) / 512 = n / 512 := by omega
      rw [heq] at hserves hpmm
      exact ⟨hreach', hpmm' ▸ hserves, hpmm'.trans hpmm⟩
    · have heq : (n - 1) / 512 + 1 = n / 512 := by omega
      rw [← heq]
      refine ⟨heq ▸ hreach', hpmm' ▸ hserves.requestPage.1, hpmm'.trans ?_⟩
      rw [hpmm]
      rfl

/-! ### The first phase of `init_physical` -/

theorem ram_pml2 (k : Prekernel) (rest : PhysicalMemory) (j : Fin 512) : k.ram rest k.pml2 j =
    if j = 0 then word k.pml1 (pagePresent ||| pageReadWrite ||| pageGlobal) else {} := by
  have h2 : k.pml2 ≠ k.pml4 ∧ k.pml2 ≠ k.pml3 ∧ k.pml2 ≠ k.pml3High := by
    unfold pml2 pml3 pml3High
    omega
  simp only [ram, h2.1, h2.2.1, h2.2.2, ↓reduceIte]

theorem next_pml2 (k : Prekernel) (rest : PhysicalMemory) :
    (k.ram rest k.pml2 0).next = some k.pml1 := by
  have hmapped := k.mapped
  rw [ram_pml2, if_pos rfl]
  exact next_word (by unfold pml1; omega) (by decide) (by decide)

theorem next_pml1 (k : Prekernel) (rest : PhysicalMemory) (j : Fin 512) :
    (k.ram rest k.pml1 j).next = some (j : ℕ) := by
  have h1 : k.pml1 ≠ k.pml4 ∧ k.pml1 ≠ k.pml3 ∧ k.pml1 ≠ k.pml3High ∧ k.pml1 ≠ k.pml2 := by
    unfold pml1 pml2 pml3 pml3High
    omega
  simp only [ram, h1.1, h1.2.1, h1.2.2.1, h1.2.2.2, ↓reduceIte]
  exact next_word (by omega) (by decide) (by decide)

theorem reaches_ram (k : Prekernel) (rest : PhysicalMemory) : k.Reaches 1 (k.ram rest) := by
  have hmapped := k.mapped
  have h1 : k.pml3 ≠ k.pml4 := by unfold pml3; omega
  refine ⟨?_, ?_, fun j => ?_, fun j g hg => ?_⟩
  · simp only [ram, ↓reduceIte]
    exact next_word (by unfold pml3; omega) (by decide) (by decide)
  · simp only [ram, h1, ↓reduceIte]
    exact next_word (by unfold pml2; omega) (by decide) (by decide)
  · by_cases hj : j = 0
    · subst hj
      rw [next_pml2]
      exact iff_of_true rfl Nat.one_pos
    · rw [ram_pml2, if_neg hj, PageDirectoryEntry.next_zero]
      refine iff_of_false (by decide) fun hlt => hj (Fin.ext ?_)
      exact Nat.lt_one_iff.1 hlt
  · by_cases hj : j = 0
    · rw [hj, next_pml2] at hg
      rw [← Option.some.inj hg]
      unfold IsUpper pml1 pml2 pml3
      omega
    · rw [ram_pml2, if_neg hj, PageDirectoryEntry.next_zero] at hg
      cases hg

variable {memMap : List EfiMemoryDescriptor}

/-- The tables are whole pages of the kernel image, so they are locked in the initial bitmap. -/
theorem locked_initialBitmap (k : Prekernel) (hmap : WellFormedMap memMap) {f : ℕ}
    (hlo : k.pml4 ≤ f)
    (hhi : f < k.pml4 + 5) :
    (boot.initialBitmap k.toKernelImage memMap).pageMap.get f = true := by
  have hstart := k.start_le_pml4
  have hend := k.tables_le_end
  have hmapped := k.mapped
  rw [get_initialBitmap hmap]
  refine decide_eq_true ⟨?_, .inr ⟨by omega, by omega⟩⟩
  show f < 16384
  omega

theorem serves_initialBitmap (k : Prekernel) (hmap : WellFormedMap memMap) :
    k.Serves 1 (boot.initialBitmap k.toKernelImage memMap) := by
  have hT := (initialBitmap_same boot k.toKernelImage memMap).1
  obtain ⟨hsize, hcursor⟩ := @initialBitmap_keeps memMap boot k.toKernelImage
  refine ⟨?_, hsize, hcursor.trans_le (Nat.zero_le _), fun f hf => ?_⟩
  · rw [hT, countPages_boot (hmap.describedPages_le.trans_lt (by decide))]
    exact hmap.describedPages_le
  · refine k.locked_initialBitmap hmap ?_ ?_ <;> unfold IsUpper pml2 pml3 at hf <;> omega

theorem initialPhase_of_reaches {image : KernelImage} (hactive : s.activePageMap = 0)
    (hcr3 : s.cr3 = k.pml4 * pageSize) (hreach : k.Reaches 1 s.ram)
    (hserves : k.Serves 1 (s.pmm.initialBitmap image memMap)) :
    (s.initialPhase image memMap).pmm = (s.pmm.initialBitmap image memMap).requestTimes
      (missingTables (s.pmm.initialBitmap image memMap).totalPages) := by
  unfold Machine.initialPhase Machine.readActivePageMap
  generalize s.pmm.initialBitmap image memMap = m at hserves ⊢
  dsimp only
  rw [if_pos hactive, hcr3]
  exact (mapPages_pmm (s := ⟨m, s.ram, k.pml4 * pageSize, k.pml4 * pageSize⟩) hreach hserves
    (identityPages_le m.totalPages)).2.2

/-- **The first phase of `init_physical`** leaves the page allocator as `missingTables` calls of
`request_page` leave it. -/
theorem initialPhase_pmm (k : Prekernel) (rest : PhysicalMemory) (hmap : WellFormedMap memMap) :
    ((k.machine rest).initialPhase k.toKernelImage memMap).pmm =
      (boot.initialBitmap k.toKernelImage memMap).requestTimes
        (missingTables (describedPages memMap)) := by
  have hT : (boot.initialBitmap k.toKernelImage memMap).totalPages = describedPages memMap :=
    (initialBitmap_same _ _ _).1.trans
      (countPages_boot (hmap.describedPages_le.trans_lt (by decide)))
  rw [← hT]
  exact initialPhase_of_reaches rfl rfl (k.reaches_ram rest) (k.serves_initialBitmap hmap)

/-- **The page tables that the first phase of `init_physical` takes** are the first vacant pages. -/
theorem mem_handedOut (k : Prekernel) (rest : PhysicalMemory) (hmap : WellFormedMap memMap)
    {m : PhysicalMemoryManager}
    (h : (k.machine rest).initPhysical k.toKernelImage memMap = some m) (p : ℕ) :
    p ∈ m.handedOut ↔ Vacant k.toKernelImage memMap p ∧
      Nat.count (Vacant k.toKernelImage memMap) p < missingTables (describedPages memMap) := by
  have hserves := k.serves_initialBitmap hmap
  have hout : (boot.initialBitmap k.toKernelImage memMap).handedOut = [] :=
    (initialBitmap_same _ _ _).2
  have hmem := mem_handedOut_requestTimes hserves.total
    (missingTables (describedPages memMap)) p
  rw [hout] at hmem
  simp only [List.not_mem_nil, false_or] at hmem
  rw [(initPhysical_handedOut_eq h).1, k.initialPhase_pmm rest hmap, hmem]
  simp only [free_initialBitmap hmap]

end Prekernel

end Eterna
