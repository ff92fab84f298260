import Eterna.Bitmap
import Mathlib.Order.Interval.Finset.Nat

/-!
# The physical memory manager

The page allocator of `physical_memory_manager.cc`: a bitmap of used pages, the counters, and the
cursor `FirstFreePage`, below which `request_page` and `request_pages` never look again.

* `lockPage_sum`, `freePage_sum` : locking and freeing keep the sum of the two counters;
* `requestPage_cases` : everything `request_page` can do;
* `requestPages_cases` : everything `request_pages` can do.

`panic` and `dbgmsg` only print, so they leave no trace in the model.
-/

namespace Eterna

/-- The globals of `physical_memory_manager.cc`. -/
structure PhysicalMemoryManager where
  /-- `PageMap`. -/
  pageMap : Bitmap
  /-- `TotalPages`. -/
  totalPages : ℕ
  /-- `TotalFreePages`. -/
  totalFreePages : ℕ
  /-- `TotalUsedPages`. -/
  totalUsedPages : ℕ
  /-- `MaxFreePagesInARow`. -/
  maxFreePagesInARow : ℕ
  /-- `FirstFreePage`. -/
  firstFreePage : ℕ
  /-- History variable: the numbers of the pages handed out so far, latest first.  No function of
  the source reads it. -/
  handedOut : List ℕ

namespace PhysicalMemoryManager

/-- `total_ram`. -/
def totalRam (m : PhysicalMemoryManager) : ℕ := mul64 m.totalPages pageSize

/-- `free_ram`. -/
def freeRam (m : PhysicalMemoryManager) : ℕ := mul64 m.totalFreePages pageSize

/-- `used_ram`. -/
def usedRam (m : PhysicalMemoryManager) : ℕ := mul64 m.totalUsedPages pageSize

/-- `lock_page`. -/
def lockPage (m : PhysicalMemoryManager) (address : ℕ) : PhysicalMemoryManager :=
  let index := address / pageSize
  if m.pageMap.get index then m
  else
    let r := m.pageMap.set index true
    if r.2 then
      { m with
        pageMap := r.1
        totalFreePages := sub64 m.totalFreePages 1
        totalUsedPages := add64 m.totalUsedPages 1 }
    else { m with pageMap := r.1 }

/-- `lock_pages`. -/
def lockPages (m : PhysicalMemoryManager) (address : ℕ) : ℕ → PhysicalMemoryManager
  | 0 => m
  | i + 1 => lockPage (lockPages m address i) (add64 address (mul64 i pageSize))

/-- `free_page`. -/
def freePage (m : PhysicalMemoryManager) (address : ℕ) : PhysicalMemoryManager :=
  let index := address / pageSize
  if m.pageMap.get index = false then m
  else
    let r := m.pageMap.set index false
    if r.2 then
      { m with
        pageMap := r.1
        totalUsedPages := sub64 m.totalUsedPages 1
        totalFreePages := add64 m.totalFreePages 1 }
    else { m with pageMap := r.1 }

/-- `free_pages`. -/
def freePages (m : PhysicalMemoryManager) (address : ℕ) : ℕ → PhysicalMemoryManager
  | 0 => m
  | i + 1 => freePage (freePages m address i) (add64 address (mul64 i pageSize))

/-- The loop of `request_page`, with `n` iterations left before `FirstFreePage` reaches
`TotalPages`. -/
def requestPageLoop : ℕ → PhysicalMemoryManager → PhysicalMemoryManager × ℕ
  | 0, m => (m, 0)
  | n + 1, m =>
    if m.pageMap.get m.firstFreePage = false then
      let addr := mul64 m.firstFreePage pageSize
      let locked := lockPage m addr
      ({ locked with
          firstFreePage := add64 locked.firstFreePage 1
          handedOut := addr / pageSize :: locked.handedOut }, addr)
    else requestPageLoop n { m with firstFreePage := add64 m.firstFreePage 1 }

/-- `request_page`: the address of the first free page at or above the cursor, or `nullptr`. -/
def requestPage (m : PhysicalMemoryManager) : PhysicalMemoryManager × ℕ :=
  requestPageLoop (m.totalPages - m.firstFreePage) m

/-- What the inner loop of `request_pages` finds. -/
inductive RunCheck where
  /-- All pages of the run are free. -/
  | found
  /-- The page `index` ends the run. -/
  | tooShort (index : ℕ)
  /-- The run reaches `PageMap.length()`; the source panics and returns `nullptr`. -/
  | outOfMemory

/-- The inner loop of `request_pages` at `index`, with `remaining` pages of the run to go. -/
def checkRun (b : Bitmap) : (remaining index : ℕ) → RunCheck
  | 0, _ => .found
  | remaining + 1, index =>
    if b.get index then .tooShort index
    else if b.length ≤ index + 1 then .outOfMemory
    else checkRun b remaining (index + 1)

/-- The outer loop of `request_pages` at page `i`: the first page of a free run, if it finds one.
Every iteration moves `i` up, so `PageMap.length()` iterations are enough. -/
def searchRun (b : Bitmap) (numberOfPages : ℕ) : (iterations i : ℕ) → Option ℕ
  | 0, _ => none
  | iterations + 1, i =>
    if b.length ≤ i then none
    else if b.get i then searchRun b numberOfPages iterations (i + 1)
    else match checkRun b numberOfPages i with
      | .found => some i
      | .outOfMemory => none
      | .tooShort index => searchRun b numberOfPages iterations (index + 1)

/-- `request_pages`. -/
def requestPages (m : PhysicalMemoryManager) (numberOfPages : ℕ) : PhysicalMemoryManager × ℕ :=
  if numberOfPages = 0 then (m, 0)
  else if numberOfPages = 1 then requestPage m
  else if m.totalFreePages < numberOfPages then (m, 0)
  else if m.maxFreePagesInARow < numberOfPages then (m, 0)
  else match searchRun m.pageMap numberOfPages m.pageMap.length m.firstFreePage with
    | none => (m, 0)
    | some i =>
      let out := mul64 i pageSize
      let locked := lockPages m out numberOfPages
      ({ locked with handedOut := List.range' (out / pageSize) numberOfPages ++ locked.handedOut },
        out)

/-! ### Locking and freeing -/

/-- The sum of the two counters, as the machine computes it. -/
def counterSum (m : PhysicalMemoryManager) : ℕ := add64 m.totalFreePages m.totalUsedPages

/-- `m'` differs from `m` at most in the bitmap's bits and the two counters. -/
structure SameButBits (m m' : PhysicalMemoryManager) : Prop where
  size : m'.pageMap.size = m.pageMap.size
  base : m'.pageMap.base = m.pageMap.base
  totalPages : m'.totalPages = m.totalPages
  firstFreePage : m'.firstFreePage = m.firstFreePage
  handedOut : m'.handedOut = m.handedOut

theorem SameButBits.refl (m : PhysicalMemoryManager) : SameButBits m m := ⟨rfl, rfl, rfl, rfl, rfl⟩

theorem SameButBits.trans {m₁ m₂ m₃ : PhysicalMemoryManager} (h : SameButBits m₁ m₂)
    (h' : SameButBits m₂ m₃) : SameButBits m₁ m₃ :=
  ⟨h'.size.trans h.size, h'.base.trans h.base, h'.totalPages.trans h.totalPages,
    h'.firstFreePage.trans h.firstFreePage, h'.handedOut.trans h.handedOut⟩

theorem lockPage_same (m : PhysicalMemoryManager) (a : ℕ) : SameButBits m (m.lockPage a) := by
  unfold lockPage
  dsimp only
  split_ifs <;> constructor <;> simp

theorem freePage_same (m : PhysicalMemoryManager) (a : ℕ) : SameButBits m (m.freePage a) := by
  unfold freePage
  dsimp only
  split_ifs <;> constructor <;> simp

theorem lockPages_same (m : PhysicalMemoryManager) (a n : ℕ) :
    SameButBits m (m.lockPages a n) := by
  induction n with
  | zero => exact .refl m
  | succ n ih => exact ih.trans (lockPage_same _ _)

theorem freePages_same (m : PhysicalMemoryManager) (a n : ℕ) :
    SameButBits m (m.freePages a n) := by
  induction n with
  | zero => exact .refl m
  | succ n ih => exact ih.trans (freePage_same _ _)

/-- `lock_page` sets the page's bit, if the bitmap has it, and no other. -/
theorem get_lockPage (m : PhysicalMemoryManager) (a j : ℕ) :
    (m.lockPage a).pageMap.get j =
      (m.pageMap.get j || decide (j = a / pageSize ∧ a / pageSize / 8 < m.pageMap.size)) := by
  unfold lockPage
  dsimp only
  split_ifs with h1 h2
  · by_cases hj : j = a / pageSize <;> simp [hj, h1]
  all_goals
    rw [Bitmap.get_set]
    by_cases hj : j = a / pageSize ∧ a / pageSize / 8 < m.pageMap.size <;> simp [hj]

theorem get_freePage (m : PhysicalMemoryManager) (a j : ℕ) :
    (m.freePage a).pageMap.get j = (m.pageMap.get j && decide (j ≠ a / pageSize)) := by
  unfold freePage
  dsimp only
  split_ifs with h1 h2
  · by_cases hj : j = a / pageSize <;> simp [hj, h1]
  all_goals
    have hlt := Bitmap.lt_of_get (b := m.pageMap) (i := a / pageSize) (by simpa using h1)
    rw [Bitmap.get_set]
    by_cases hj : j = a / pageSize <;> simp [hj, hlt]

theorem lockPage_sum (m : PhysicalMemoryManager) (a : ℕ) :
    (m.lockPage a).counterSum = m.counterSum := by
  unfold lockPage
  dsimp only
  split_ifs
  · rfl
  · exact add64_sub64_add64 _ _
  · rfl

theorem freePage_sum (m : PhysicalMemoryManager) (a : ℕ) :
    (m.freePage a).counterSum = m.counterSum := by
  unfold freePage
  dsimp only
  split_ifs
  · rfl
  · exact add64_add64_sub64 _ _
  · rfl

theorem lockPages_sum (m : PhysicalMemoryManager) (a n : ℕ) :
    (m.lockPages a n).counterSum = m.counterSum := by
  induction n with
  | zero => rfl
  | succ n ih => exact (lockPage_sum _ _).trans ih

theorem freePages_sum (m : PhysicalMemoryManager) (a n : ℕ) :
    (m.freePages a n).counterSum = m.counterSum := by
  induction n with
  | zero => rfl
  | succ n ih => exact (freePage_sum _ _).trans ih

/-- The page `add64 address (mul64 k pageSize)` is `k` pages above `address`, short of the wrap. -/
theorem pageOfOffset {i k : ℕ} (h : i + k < 2 ^ 52) :
    add64 (i * pageSize) (mul64 k pageSize) / pageSize = i + k := by
  unfold add64 mul64 pageSize; omega

/-- `lock_pages` sets the bits of the range and no other, short of the wrap. -/
theorem get_lockPages (m : PhysicalMemoryManager) {i n : ℕ} (h : i + n ≤ 2 ^ 52) (j : ℕ) :
    (m.lockPages (i * pageSize) n).pageMap.get j =
      (m.pageMap.get j || decide (i ≤ j ∧ j < i + n ∧ j / 8 < m.pageMap.size)) := by
  induction n with
  | zero =>
    have : ¬ (i ≤ j ∧ j < i + 0 ∧ j / 8 < m.pageMap.size) := by omega
    rw [lockPages, decide_eq_false this, Bool.or_false]
  | succ n ih =>
    rw [lockPages, get_lockPage, ih (by omega), pageOfOffset (by omega),
      (lockPages_same _ _ _).size, Bool.or_assoc, ← Bool.decide_or]
    congr 2
    apply propext
    constructor
    · rintro (h | ⟨rfl, h⟩)
      · omega
      · omega
    · rintro ⟨h1, h2, h3⟩
      by_cases hj : j = i + n
      · subst hj; exact .inr ⟨rfl, h3⟩
      · exact .inl ⟨h1, by omega, h3⟩

/-! ### `request_page` -/

/-- The pages `request_page` may hand out: at or above the cursor, below `TotalPages`, and with a
clear bit. -/
def Free (m : PhysicalMemoryManager) (i : ℕ) : Prop :=
  m.firstFreePage ≤ i ∧ i < m.totalPages ∧ m.pageMap.get i = false

instance (m : PhysicalMemoryManager) (i : ℕ) : Decidable (m.Free i) :=
  inferInstanceAs (Decidable (_ ∧ _ ∧ _))

/-- The state after `request_page` has handed out page `i`. -/
def handOut (m : PhysicalMemoryManager) (i : ℕ) : PhysicalMemoryManager :=
  { m.lockPage (i * pageSize) with firstFreePage := i + 1, handedOut := i :: m.handedOut }

theorem lockPage_cursor (m : PhysicalMemoryManager) (c a : ℕ) :
    lockPage { m with firstFreePage := c } a = { lockPage m a with firstFreePage := c } := by
  unfold lockPage
  dsimp only
  split_ifs <;> rfl

theorem requestPageLoop_cases (n : ℕ) : ∀ m : PhysicalMemoryManager, m.totalPages ≤ 2 ^ 52 →
    n = m.totalPages - m.firstFreePage →
    (∃ i, m.Free i ∧ (∀ j, m.Free j → i ≤ j) ∧
      requestPageLoop n m = (m.handOut i, i * pageSize)) ∨
    ((∀ i, ¬ m.Free i) ∧ requestPageLoop n m =
      ({ m with firstFreePage := max m.firstFreePage m.totalPages }, 0)) := by
  induction n with
  | zero =>
    intro m _ hn
    refine .inr ⟨fun i hi => by have := hi.1; have := hi.2.1; omega, ?_⟩
    rw [requestPageLoop, max_eq_left (by omega)]
  | succ n ih =>
    intro m hT hn
    rw [requestPageLoop]
    by_cases hget : m.pageMap.get m.firstFreePage = false
    · have haddr : mul64 m.firstFreePage pageSize = m.firstFreePage * pageSize :=
        mul64_of_lt (by unfold pageSize; omega)
      have hdiv : m.firstFreePage * pageSize / pageSize = m.firstFreePage :=
        Nat.mul_div_cancel _ (by decide)
      refine .inl ⟨m.firstFreePage, ⟨le_rfl, by omega, hget⟩, fun j hj => hj.1, ?_⟩
      have hsame := lockPage_same m (m.firstFreePage * pageSize)
      simp only [hget, ↓reduceIte, haddr, hdiv, hsame.firstFreePage, hsame.handedOut, handOut,
        add64_of_lt (show m.firstFreePage + 1 < 2 ^ 64 by omega)]
    · have hadd : add64 m.firstFreePage 1 = m.firstFreePage + 1 := add64_of_lt (by omega)
      -- the skipped page has its bit set, so the next state has the same free pages
      have hfree : ∀ i, Free { m with firstFreePage := m.firstFreePage + 1 } i ↔ m.Free i := by
        intro i
        constructor
        · rintro ⟨h1, h2, h3⟩
          exact ⟨Nat.le_of_succ_le h1, h2, h3⟩
        · rintro ⟨h1, h2, h3⟩
          have : i ≠ m.firstFreePage := by rintro rfl; exact hget h3
          exact ⟨by simp only; omega, h2, h3⟩
      rw [if_neg hget, hadd]
      rcases ih { m with firstFreePage := m.firstFreePage + 1 } hT (by simp only; omega) with
        ⟨i, hi, hmin, he⟩ | ⟨hnone, he⟩
      · refine .inl ⟨i, (hfree i).1 hi, fun j hj => hmin j ((hfree j).2 hj), ?_⟩
        rw [he]
        simp only [handOut, lockPage_cursor]
      · refine .inr ⟨fun i hi => hnone i ((hfree i).2 hi), ?_⟩
        have hle : m.firstFreePage + 1 ≤ m.totalPages := by omega
        rw [he]
        simp only [max_eq_right hle, max_eq_right (Nat.le_of_succ_le hle)]

/-- **Everything `request_page` can do**: hand out the first free page, or, when there is none,
leave the cursor at `TotalPages` and return `nullptr`. -/
theorem requestPage_cases {m : PhysicalMemoryManager} (hT : m.totalPages ≤ 2 ^ 52) :
    (∃ i, m.Free i ∧ (∀ j, m.Free j → i ≤ j) ∧ m.requestPage = (m.handOut i, i * pageSize)) ∨
    ((∀ i, ¬ m.Free i) ∧ m.requestPage =
      ({ m with firstFreePage := max m.firstFreePage m.totalPages }, 0)) :=
  requestPageLoop_cases _ m hT rfl

theorem requestPage_eq {m : PhysicalMemoryManager} (hT : m.totalPages ≤ 2 ^ 52) {i : ℕ}
    (hi : m.Free i) (hmin : ∀ j, m.Free j → i ≤ j) :
    m.requestPage = (m.handOut i, i * pageSize) := by
  rcases requestPage_cases hT with ⟨j, hj, hjmin, he⟩ | ⟨hnone, -⟩
  · rw [he, Nat.le_antisymm (hjmin i hi) (hmin j hj)]
  · exact absurd hi (hnone i)

theorem requestPageLoop_totalPages (n : ℕ) (m : PhysicalMemoryManager) :
    (requestPageLoop n m).1.totalPages = m.totalPages := by
  induction n generalizing m with
  | zero => rfl
  | succ n ih =>
    rw [requestPageLoop]
    split_ifs
    · exact (lockPage_same _ _).totalPages
    · exact ih _

@[simp] theorem requestPage_totalPages (m : PhysicalMemoryManager) :
    m.requestPage.1.totalPages = m.totalPages := requestPageLoop_totalPages _ _

@[simp] theorem handOut_firstFreePage (m : PhysicalMemoryManager) (i : ℕ) :
    (m.handOut i).firstFreePage = i + 1 := rfl

@[simp] theorem handOut_totalPages (m : PhysicalMemoryManager) (i : ℕ) :
    (m.handOut i).totalPages = m.totalPages := (lockPage_same m _).totalPages

@[simp] theorem handOut_size (m : PhysicalMemoryManager) (i : ℕ) :
    (m.handOut i).pageMap.size = m.pageMap.size := (lockPage_same m _).size

theorem get_handOut (m : PhysicalMemoryManager) (i j : ℕ) :
    (m.handOut i).pageMap.get j =
      (m.pageMap.get j || decide (j = i ∧ i / 8 < m.pageMap.size)) := by
  have hdiv : i * pageSize / pageSize = i := Nat.mul_div_cancel _ (by decide)
  have := get_lockPage m (i * pageSize) j
  rwa [hdiv] at this

theorem free_handOut {m : PhysicalMemoryManager} {i j : ℕ} (hi : m.firstFreePage ≤ i) :
    (m.handOut i).Free j ↔ m.Free j ∧ i < j := by
  simp only [Free, handOut_firstFreePage, handOut_totalPages, get_handOut, Bool.or_eq_false_iff,
    decide_eq_false_iff_not]
  constructor
  · rintro ⟨h1, h2, h3, -⟩
    exact ⟨⟨by omega, h2, h3⟩, h1⟩
  · rintro ⟨⟨-, h2, h3⟩, h4⟩
    exact ⟨h4, h2, h3, fun h => by omega⟩

theorem not_free_handOut {m : PhysicalMemoryManager} {i : ℕ} (hi : m.Free i) :
    ¬ (m.handOut i).Free i := fun hfree => Nat.lt_irrefl i ((free_handOut hi.1).1 hfree).2

/-! ### `request_pages` -/

theorem checkRun_found {b : Bitmap} : ∀ {remaining index : ℕ},
    checkRun b remaining index = .found →
      (∀ k < remaining, b.get (index + k) = false) ∧
        (0 < remaining → index + remaining < b.length)
  | 0, _, _ => ⟨fun _ h => absurd h (Nat.not_lt_zero _), fun h => absurd h (Nat.lt_irrefl _)⟩
  | remaining + 1, index, h => by
    rw [checkRun] at h
    split_ifs at h with hget hlen
    obtain ⟨hfree, hend⟩ := checkRun_found h
    refine ⟨fun k hk => ?_, fun _ => ?_⟩
    · cases k with
      | zero => simpa using hget
      | succ k =>
        have := hfree k (by omega)
        rwa [Nat.add_right_comm] at this
    · cases remaining with
      | zero => omega
      | succ r => have := hend (Nat.succ_pos _); omega

theorem checkRun_tooShort {b : Bitmap} : ∀ {remaining index last : ℕ},
    checkRun b remaining index = .tooShort last → index ≤ last
  | 0, _, _, h => by cases h
  | remaining + 1, index, last, h => by
    rw [checkRun] at h
    split_ifs at h
    · cases h; exact le_rfl
    · exact Nat.le_of_succ_le (checkRun_tooShort h)

theorem searchRun_some {b : Bitmap} {n : ℕ} : ∀ {iterations i j : ℕ},
    searchRun b n iterations i = some j → i ≤ j ∧ j < b.length ∧ checkRun b n j = .found
  | 0, _, _, h => by cases h
  | iterations + 1, i, j, h => by
    rw [searchRun] at h
    split_ifs at h with hlen hget
    · obtain ⟨h1, h2⟩ := searchRun_some h
      exact ⟨Nat.le_of_succ_le h1, h2⟩
    · cases hc : checkRun b n i with
      | found =>
        rw [hc] at h
        cases h
        exact ⟨le_rfl, by omega, hc⟩
      | outOfMemory => rw [hc] at h; cases h
      | tooShort last =>
        rw [hc] at h
        obtain ⟨h1, h2⟩ := searchRun_some h
        have := checkRun_tooShort hc
        exact ⟨by omega, h2⟩

/-- The state after `request_pages` has handed out the `n` pages from page `i` on. -/
def handOutRun (m : PhysicalMemoryManager) (i n : ℕ) : PhysicalMemoryManager :=
  { m.lockPages (i * pageSize) n with handedOut := List.range' i n ++ m.handedOut }

/-- **Everything `request_pages` can do** for two pages or more: hand out a run of pages, all at or
above the cursor, inside the first `PageMap.length()` pages and with a clear bit, or change nothing
and return `nullptr`. -/
theorem requestPages_cases {m : PhysicalMemoryManager} (hsize : m.pageMap.size ≤ 2 ^ 52) {n : ℕ}
    (hn : 2 ≤ n) :
    (∃ i, m.firstFreePage ≤ i ∧ i + n < m.pageMap.size ∧
      (∀ k < n, m.pageMap.get (i + k) = false) ∧
      m.requestPages n = (m.handOutRun i n, i * pageSize)) ∨
    m.requestPages n = (m, 0) := by
  have h0 : n ≠ 0 := by omega
  have h1 : n ≠ 1 := by omega
  unfold requestPages
  simp only [h0, h1, ↓reduceIte]
  split_ifs
  · exact .inr rfl
  · exact .inr rfl
  · cases hs : searchRun m.pageMap n m.pageMap.length m.firstFreePage with
    | none => exact .inr rfl
    | some i =>
      obtain ⟨hle, hlt, hrun⟩ := searchRun_some hs
      obtain ⟨hfree, hend⟩ := checkRun_found hrun
      have hend' : i + n < m.pageMap.size := hend (by omega)
      have haddr : mul64 i pageSize = i * pageSize := mul64_of_lt (by unfold pageSize; omega)
      have hdiv : i * pageSize / pageSize = i := Nat.mul_div_cancel _ (by decide)
      refine .inl ⟨i, hle, hend', hfree, ?_⟩
      simp only [haddr, hdiv, (lockPages_same m (i * pageSize) n).handedOut, handOutRun]

theorem requestPages_outcome {m : PhysicalMemoryManager} (hsize : m.pageMap.size ≤ 2 ^ 52) (n : ℕ) :
    m.requestPages n = (m, 0) ∨ n = 1 ∧ m.requestPages n = m.requestPage ∨
    ∃ i, 2 ≤ n ∧ m.firstFreePage ≤ i ∧ i + n < m.pageMap.size ∧
      (∀ k < n, m.pageMap.get (i + k) = false) ∧
      m.requestPages n = (m.handOutRun i n, i * pageSize) := by
  rcases Nat.lt_or_ge n 2 with hn | hn
  · obtain rfl | rfl : n = 0 ∨ n = 1 := by omega
    · exact .inl rfl
    · exact .inr (.inl ⟨rfl, rfl⟩)
  · rcases requestPages_cases hsize hn with ⟨i, hle, hend, hclear, he⟩ | he
    · exact .inr (.inr ⟨i, hn, hle, hend, hclear, he⟩)
    · exact .inl he

end PhysicalMemoryManager

end Eterna
