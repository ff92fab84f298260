import Eterna.Memory.Physical
import Mathlib.Data.Nat.Count

/-!
# Which pages requests find

`request_page` takes the free pages in ascending order, so what `k` calls of it hand out can be said
by counting: the free pages with fewer than `k` free pages below them.  `request_pages` searches for
a run of clear pages, but only up to `PageMap.length()`, which is a number of bytes.

* `free_requestTimes`, `mem_handedOut_requestTimes` : the state after `k` calls of `request_page`;
* `searchRun_isSome` : the search finds a run whenever one ends below `PageMap.length()`;
* `requestPages_eq_iff` : exactly when `request_pages` hands out a run.
-/

namespace Eterna

namespace PhysicalMemoryManager

/-! ### Successive requests -/

/-- The state after `k` calls of `request_page`. -/
def requestTimes (m : PhysicalMemoryManager) : ℕ → PhysicalMemoryManager
  | 0 => m
  | k + 1 => (requestTimes m k).requestPage.1

theorem exists_count_eq {p : ℕ → Prop} [DecidablePred p] {k n : ℕ} (h : k < Nat.count p n) :
    ∃ i < n, p i ∧ Nat.count p i = k := by
  induction n with
  | zero => exact absurd h (Nat.not_lt_zero k)
  | succ n ih =>
    rw [Nat.count_succ] at h
    by_cases hk : k < Nat.count p n
    · obtain ⟨i, hi, hp⟩ := ih hk
      exact ⟨i, Nat.lt_succ_of_lt hi, hp⟩
    · split_ifs at h with hn
      · exact ⟨n, Nat.lt_succ_self n, hn, by omega⟩
      · exact absurd h hk

variable {m : PhysicalMemoryManager}

@[simp] theorem requestTimes_totalPages (m : PhysicalMemoryManager) (k : ℕ) :
    (m.requestTimes k).totalPages = m.totalPages := by
  induction k with
  | zero => rfl
  | succ k ih => exact (requestPage_totalPages _).trans ih

theorem count_of_first {k i : ℕ} (hi : m.Free i ∧ k ≤ Nat.count m.Free i)
    (hmin : ∀ j, m.Free j ∧ k ≤ Nat.count m.Free j → i ≤ j) : Nat.count m.Free i = k := by
  refine Nat.le_antisymm (Nat.le_of_not_lt fun hlt => ?_) hi.2
  obtain ⟨j, hj, hfree, hcount⟩ := exists_count_eq hlt
  have := hmin j ⟨hfree, hcount.ge⟩
  omega

/-- **What `k` requests leave free**: the free pages with at least `k` free pages below them. -/
theorem free_requestTimes (hT : m.totalPages ≤ 2 ^ 52) (k q : ℕ) :
    (m.requestTimes k).Free q ↔ m.Free q ∧ k ≤ Nat.count m.Free q := by
  induction k generalizing q with
  | zero => exact ⟨fun h => ⟨h, Nat.zero_le _⟩, And.left⟩
  | succ k ih =>
    have hTk : (m.requestTimes k).totalPages ≤ 2 ^ 52 := by rwa [requestTimes_totalPages]
    rcases requestPage_cases hTk with ⟨i, hi, hmin, he⟩ | ⟨hnone, he⟩
    · -- page `i` is the `k`-th free page, and the others with rank `k` and more lie above it
      have hrank : Nat.count m.Free i = k :=
        count_of_first ((ih i).1 hi) fun j hj => hmin j ((ih j).2 hj)
      rw [requestTimes, he, free_handOut hi.1, ih]
      constructor
      · rintro ⟨⟨hq, -⟩, hlt⟩
        exact ⟨hq, hrank ▸ Nat.count_strict_mono ((ih i).1 hi).1 hlt⟩
      · rintro ⟨hq, hle⟩
        exact ⟨⟨hq, by omega⟩, Nat.lt_of_count_lt_count (p := m.Free) (by omega)⟩
    · have hnone' : ∀ j, ¬ (m.Free j ∧ k ≤ Nat.count m.Free j) := fun j hj => hnone j ((ih j).2 hj)
      rw [requestTimes, he]
      refine iff_of_false (fun hq => hnone q ⟨?_, hq.2.1, hq.2.2⟩) fun hq =>
        hnone' q ⟨hq.1, by omega⟩
      exact (le_max_left _ _).trans hq.1

/-- **What `k` requests hand out**: the free pages with fewer than `k` free pages below them. -/
theorem mem_handedOut_requestTimes (hT : m.totalPages ≤ 2 ^ 52) (k p : ℕ) :
    p ∈ (m.requestTimes k).handedOut ↔
      p ∈ m.handedOut ∨ m.Free p ∧ Nat.count m.Free p < k := by
  induction k with
  | zero => simp [requestTimes]
  | succ k ih =>
    have hTk : (m.requestTimes k).totalPages ≤ 2 ^ 52 := by rwa [requestTimes_totalPages]
    have hfree := free_requestTimes hT k
    rcases requestPage_cases hTk with ⟨i, hi, hmin, he⟩ | ⟨hnone, he⟩
    · have hrank : Nat.count m.Free i = k :=
        count_of_first ((hfree i).1 hi) fun j hj => hmin j ((hfree j).2 hj)
      have hout : (m.requestTimes (k + 1)).handedOut = i :: (m.requestTimes k).handedOut := by
        rw [requestTimes, he]
        rfl
      rw [hout, List.mem_cons, ih]
      constructor
      · rintro (rfl | hp | hp)
        · exact .inr ⟨((hfree p).1 hi).1, by omega⟩
        · exact .inl hp
        · exact .inr ⟨hp.1, by omega⟩
      · rintro (hp | ⟨hp, hlt⟩)
        · exact .inr (.inl hp)
        · obtain hlt | heq := Nat.lt_succ_iff_lt_or_eq.1 hlt
          · exact .inr (.inr ⟨hp, hlt⟩)
          · exact .inl (Nat.count_injective hp ((hfree i).1 hi).1 (heq.trans hrank.symm))
    · have hout : (m.requestTimes (k + 1)).handedOut = (m.requestTimes k).handedOut := by
        rw [requestTimes, he]
      rw [hout, ih]
      refine or_congr_right ⟨fun hp => ⟨hp.1, by omega⟩, fun hp => ⟨hp.1, ?_⟩⟩
      by_contra hle
      exact hnone p ((hfree p).2 ⟨hp.1, by omega⟩)

theorem requestPage_requestTimes (hT : m.totalPages ≤ 2 ^ 52) {p : ℕ} (hp : m.Free p) :
    (m.requestTimes (Nat.count m.Free p)).requestPage =
      ((m.requestTimes (Nat.count m.Free p)).handOut p, p * pageSize) := by
  have hfree := free_requestTimes hT (Nat.count m.Free p)
  refine requestPage_eq (by rwa [requestTimes_totalPages]) ((hfree p).2 ⟨hp, le_rfl⟩) fun j hj => ?_
  by_contra hlt
  have hcount := Nat.count_strict_mono ((hfree j).1 hj).1 (Nat.lt_of_not_le hlt)
  have := ((hfree j).1 hj).2
  omega

/-! ### The search of `request_pages` -/

theorem checkRun_eq_found {b : Bitmap} : ∀ {remaining index : ℕ},
    (∀ k < remaining, b.get (index + k) = false) → index + remaining < b.length →
      checkRun b remaining index = .found
  | 0, _, _, _ => rfl
  | remaining + 1, index, hclear, hend => by
    have hget : b.get index = false := hclear 0 (Nat.succ_pos _)
    rw [checkRun, if_neg (by rw [hget]; exact Bool.false_ne_true), if_neg (by omega)]
    refine checkRun_eq_found (fun k hk => ?_) (by omega)
    rw [Nat.add_assoc, Nat.add_comm 1]
    exact hclear (k + 1) (Nat.succ_lt_succ hk)

/-- A run that is too short ends at a set bit. -/
theorem get_of_tooShort {b : Bitmap} : ∀ {remaining index last : ℕ},
    checkRun b remaining index = .tooShort last → last < index + remaining ∧ b.get last = true
  | 0, _, _, h => by cases h
  | remaining + 1, index, last, h => by
    rw [checkRun] at h
    split_ifs at h with hget
    · cases h
      exact ⟨by omega, hget⟩
    · have hlast := get_of_tooShort h
      exact ⟨by omega, hlast.2⟩

/-- The inner loop gives up only where the run would reach `PageMap.length()`. -/
theorem le_of_outOfMemory {b : Bitmap} : ∀ {remaining index : ℕ},
    checkRun b remaining index = .outOfMemory → b.length ≤ index + remaining
  | 0, _, h => by cases h
  | remaining + 1, index, h => by
    rw [checkRun] at h
    split_ifs at h with _ hlen
    · omega
    · have := le_of_outOfMemory h
      omega

/-- **The search finds a run whenever one ends below `PageMap.length()`.** -/
theorem searchRun_isSome {b : Bitmap} {n j : ℕ} (hn : 0 < n)
    (hclear : ∀ k < n, b.get (j + k) = false) (hend : j + n < b.length) :
    ∀ {iterations i : ℕ}, i ≤ j → b.length ≤ i + iterations →
      ∃ i', searchRun b n iterations i = some i'
  | 0, i, hij, hiter => by omega
  | iterations + 1, i, hij, hiter => by
    rw [searchRun, if_neg (by omega)]
    cases hget : b.get i with
    | true =>
      have hne : i ≠ j := by
        rintro rfl
        exact Bool.false_ne_true ((hclear 0 hn).symm.trans hget)
      rw [if_pos rfl]
      exact searchRun_isSome hn hclear hend (by omega) (by omega)
    | false =>
      rw [if_neg Bool.false_ne_true]
      cases hc : checkRun b n i with
      | found => exact ⟨i, rfl⟩
      | outOfMemory =>
        have := le_of_outOfMemory hc
        omega
      | tooShort last =>
        -- the set bit that ends the run at `i` cannot lie in the run at `j`
        obtain ⟨hlast, hset⟩ := get_of_tooShort hc
        have hlt : last < j := by
          by_contra hle
          have hmem := hclear (last - j) (by omega)
          rw [Nat.add_sub_cancel' (Nat.le_of_not_lt hle), hset] at hmem
          cases hmem
        have := checkRun_tooShort hc
        exact searchRun_isSome hn hclear hend (by omega) (by omega)

/-- The `n` pages from page `i` on lie between the cursor and `TotalPages`, and all their bits are
clear. -/
def ClearRun (m : PhysicalMemoryManager) (i n : ℕ) : Prop :=
  m.firstFreePage ≤ i ∧ i + n ≤ m.totalPages ∧ ∀ k < n, m.pageMap.get (i + k) = false

/-- **Exactly when `request_pages` hands out a run**: both counters must let the request pass, and a
clear run must end below `PageMap.length()`. -/
theorem requestPages_eq_iff (hsize : m.pageMap.size ≤ 2 ^ 52) {n : ℕ} (hn : 2 ≤ n) :
    (∃ i, m.requestPages n = (m.handOutRun i n, i * pageSize) ∧ m.firstFreePage ≤ i ∧
        i + n < m.pageMap.length ∧ ∀ k < n, m.pageMap.get (i + k) = false) ↔
      n ≤ m.totalFreePages ∧ n ≤ m.maxFreePagesInARow ∧
        ∃ i, m.firstFreePage ≤ i ∧ i + n < m.pageMap.length ∧
          ∀ k < n, m.pageMap.get (i + k) = false := by
  constructor
  · rintro ⟨i, he, hle, hend, hclear⟩
    have hout : ¬ m.requestPages n = (m, 0) := fun h => by
      have hlen := congrArg (fun r => r.1.handedOut.length) (he.symm.trans h)
      simp only [handOutRun, List.length_append, List.length_range'] at hlen
      omega
    unfold requestPages at hout
    rw [if_neg (by omega), if_neg (by omega)] at hout
    split_ifs at hout with hfree hmax
    · exact absurd rfl hout
    · exact absurd rfl hout
    · exact ⟨Nat.le_of_not_lt hfree, Nat.le_of_not_lt hmax, i, hle, hend, hclear⟩
  · rintro ⟨hfree, hmax, j, hle, hend, hclear⟩
    obtain ⟨i, hi⟩ : ∃ i, searchRun m.pageMap n m.pageMap.length m.firstFreePage = some i :=
      searchRun_isSome (by omega) hclear hend hle (Nat.le_add_left _ _)
    obtain ⟨hle', -, hfound⟩ := searchRun_some hi
    obtain ⟨hclear', hend'⟩ := checkRun_found hfound
    have hlen : i + n < m.pageMap.size := hend' (by omega)
    have haddr : mul64 i pageSize = i * pageSize := mul64_of_lt (by unfold pageSize; omega)
    have hdiv : i * pageSize / pageSize = i := Nat.mul_div_cancel _ (by decide)
    refine ⟨i, ?_, hle', hlen, hclear'⟩
    unfold requestPages
    rw [if_neg (by omega), if_neg (by omega), if_neg (by omega), if_neg (by omega), hi]
    simp only [haddr, hdiv, (lockPages_same m (i * pageSize) n).handedOut, handOutRun]

end PhysicalMemoryManager

end Eterna
