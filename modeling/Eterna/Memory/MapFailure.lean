import Eterna.Memory.LeafEntry
import Eterna.Memory.TableSupply

/-!
# `map` without pages

`map` does not check what `request_page` returns.  Once there is no page left, it clears page 0 and
links it in as the missing table, and as all further ones.

* `PhysicalMemoryManager.requestPage_of_none` : `request_page` fails, and keeps failing;
* `Machine.Stuck` : the state `map` is in then, which it does not leave;
* `Machine.linked` : the frames that `map` links in as tables;
* `Machine.descend_linked` : they are the pages handed out to `map`, as long as there is one for
  every table that is missing;
* `map_allocates_iff` : `map` links in allocated pages only, or changes nothing, exactly if it finds
  a page for every missing table.
-/

namespace Eterna

open TableWalk
open PageDirectoryEntry (next)

namespace PhysicalMemoryManager

variable {m : PhysicalMemoryManager}

theorem requestPageLoop_of_none (n : ℕ) : ∀ m : PhysicalMemoryManager, m.totalPages < 2 ^ 64 →
    n = m.totalPages - m.firstFreePage → (∀ i, ¬ m.Free i) →
    (requestPageLoop n m).2 = 0 ∧ ∀ i, ¬ (requestPageLoop n m).1.Free i := by
  induction n with
  | zero => exact fun m _ _ hnone => ⟨rfl, hnone⟩
  | succ n ih =>
    intro m hT hn hnone
    have hget : ¬ m.pageMap.get m.firstFreePage = false := fun hget =>
      hnone _ ⟨le_rfl, by omega, hget⟩
    have hadd : add64 m.firstFreePage 1 = m.firstFreePage + 1 := add64_of_lt (by omega)
    rw [requestPageLoop, if_neg hget, hadd]
    refine ih _ hT (by simp only; omega) ?_
    rintro i ⟨hcursor, hlt, hclear⟩
    exact hnone i ⟨Nat.le_of_succ_le hcursor, hlt, hclear⟩

/-- Without a free page, `request_page` returns `nullptr`, and leaves none. -/
theorem requestPage_of_none (hT : m.totalPages < 2 ^ 64) (hnone : ∀ i, ¬ m.Free i) :
    m.requestPage.2 = 0 ∧ ∀ i, ¬ m.requestPage.1.Free i :=
  requestPageLoop_of_none _ m hT rfl hnone

end PhysicalMemoryManager

variable {ram ram' : PhysicalMemory} {s : Machine} {pml4 v p d f table : ℕ} {mf : BitVec 64}
  {i j : Fin 512} {is : List (Fin 512)}

namespace Machine

/-! ### Page 0 as a table -/

/-- There is no page left, and `map` has come to page 0, whose entries all lead back to it. -/
structure Stuck (s : Machine) (table : ℕ) : Prop where
  small : s.pmm.totalPages < 2 ^ 64
  none : ∀ i, ¬ s.pmm.Free i
  null : table = 0
  loops : ∀ i, (s.ram 0 i).address = 0

/-- **A missing table without a page** gets `map` stuck. -/
theorem stuck_nextTable (hT : s.pmm.totalPages < 2 ^ 64) (hnone : ∀ i, ¬ s.pmm.Free i)
    (habs : (s.ram (frameOf table) i).flag .present = false) (mf : BitVec 64) :
    Stuck (s.nextTable table i mf).1 (s.nextTable table i mf).2 := by
  obtain ⟨hnull, hleft⟩ := PhysicalMemoryManager.requestPage_of_none hT hnone
  have hresult : s.nextTable table i mf =
      ({ s with
        pmm := s.pmm.requestPage.1
        ram := write (fill s.ram 0 PageTable.zero) (frameOf table) i
          (((s.ram (frameOf table) i).setAddress 0).setFlags mf) }, 0) := by
    simp [nextTable, habs, requestPage, hnull, clearPage, store]
  rw [hresult]
  refine ⟨(s.pmm.requestPage_totalPages).trans_lt hT, hleft, rfl, fun k => ?_⟩
  by_cases hk : 0 = frameOf table ∧ k = i
  · obtain ⟨hk, rfl⟩ := hk
    dsimp only
    rw [← hk, write_self, PageDirectoryEntry.address_setFlags,
      PageDirectoryEntry.address_setAddress]
    rfl
  · dsimp only
    rw [write_of_ne _ _ hk, fill_self]
    exact PageDirectoryEntry.address_zero

theorem Stuck.nextTable (h : Stuck s table) (i : Fin 512) (mf : BitVec 64) :
    Stuck (s.nextTable table i mf).1 (s.nextTable table i mf).2 := by
  cases hpres : (s.ram (frameOf table) i).flag .present with
  | false => exact stuck_nextTable h.small h.none hpres mf
  | true =>
    obtain ⟨hT, hnone, rfl, hloops⟩ := h
    have hframe : frameOf 0 = 0 := rfl
    rw [hframe] at hpres
    simp only [Machine.nextTable, hframe, hpres, ↓reduceIte, store]
    refine ⟨hT, hnone, ?_, fun k => ?_⟩
    · rw [PageDirectoryEntry.address_setFlags, hloops]
      rfl
    · dsimp only
      by_cases hk : k = i
      · rw [hk, write_self, PageDirectoryEntry.address_setFlags, hloops]
      · rw [write_of_ne _ _ fun h => hk h.2, hloops]

theorem Stuck.descend (h : Stuck s table) (mf : BitVec 64) (is : List (Fin 512)) :
    Stuck (s.descend mf table is).1 (s.descend mf table is).2 := by
  induction is generalizing s table with
  | nil => exact h
  | cons i is ih => exact ih (h.nextTable i mf)

theorem stuck_descend (hT : s.pmm.totalPages < 2 ^ 64)
    (hsup : ¬ s.PathSupplied mf table (is ++ [j])) :
    Stuck (s.descend mf table is).1 (s.descend mf table is).2 := by
  induction is generalizing s table with
  | nil => exact absurd trivial hsup
  | cons i is ih =>
    rw [List.cons_append, pathSupplied_cons (by simp), not_and_or] at hsup
    obtain hnext | hrest := hsup
    · rw [NextSupplied, Classical.not_imp, not_exists] at hnext
      exact (stuck_nextTable hT hnext.2 hnext.1 mf).descend mf is
    · exact ih ((nextTable_totalPages s table i mf).trans_lt hT) hrest

theorem address_map_of_not_supplied (h0 : pml4 ≠ 0) (hT : s.pmm.totalPages < 2 ^ 64)
    (hsup : ¬ s.MapSupplied pml4 v mf) (p : ℕ) :
    ((s.map pml4 v p mf).ram 0 (PageMapIndexer.ofAddress v).page).address =
      p >>> 12 % 2 ^ 40 := by
  have hstuck := stuck_descend hT fun hpath => hsup (pathSupplied_iff.1 hpath)
  have hleaf : s.leafStored pml4 v p mf =
      ((s.leafFound pml4 v mf).setAddress (p >>> 12)).setFlags mf := leafStored_eq h0
  have hframe : frameOf 0 = 0 := rfl
  rw [leafStored, hstuck.null, hframe] at hleaf
  rw [hleaf, PageDirectoryEntry.address_setFlags, PageDirectoryEntry.address_setAddress]

/-! ### The frames that `map` links in -/

/-- The frames that `map` links in as tables, from the top: the addresses that it stores in the
entries that are not present. -/
def linked (mf : BitVec 64) : Machine → ℕ → List (Fin 512) → List ℕ
  | _, _, [] => []
  | s, table, i :: is =>
    let r := s.nextTable table i mf
    if (s.ram (frameOf table) i).flag .present then linked mf r.1 r.2 is
    else (r.1.ram (frameOf table) i).address :: linked mf r.1 r.2 is

/-- What one level of `map` takes from `request_page`, and what it links in. -/
theorem linked_cons (hT : s.pmm.totalPages ≤ 2 ^ 40) (mf : BitVec 64) :
    (s.NextSupplied table i ∧ (s.nextTable table i mf).1.pmm = s.pmm ∧
      linked mf s table (i :: is) =
        linked mf (s.nextTable table i mf).1 (s.nextTable table i mf).2 is) ∨
    (∃ n, s.NextSupplied table i ∧ s.pmm.Free n ∧
      (s.nextTable table i mf).1.pmm = s.pmm.handOut n ∧
      linked mf s table (i :: is) =
        n :: linked mf (s.nextTable table i mf).1 (s.nextTable table i mf).2 is) ∨
    (∃ f, ¬ s.NextSupplied table i ∧
      (s.nextTable table i mf).1.pmm.handedOut = s.pmm.handedOut ∧
      linked mf s table (i :: is) =
        f :: linked mf (s.nextTable table i mf).1 (s.nextTable table i mf).2 is) := by
  cases hpres : (s.ram (frameOf table) i).flag .present with
  | true =>
    obtain ⟨hsup, hpmm⟩ := nextTable_pmm_of_present mf hpres
    exact .inl ⟨hsup, hpmm, by rw [linked, hpres, if_pos rfl]⟩
  | false =>
    have hlinked : linked mf s table (i :: is) =
        ((s.nextTable table i mf).1.ram (frameOf table) i).address ::
          linked mf (s.nextTable table i mf).1 (s.nextTable table i mf).2 is := by
      rw [linked, hpres, if_neg Bool.false_ne_true]
    right
    by_cases hsup : s.NextSupplied table i
    · left
      obtain ⟨htrue, -⟩ | ⟨n, -, hn, -, hlt, he⟩ := nextTable_cases hT mf hsup
      · rw [hpres] at htrue
        cases htrue
      · refine ⟨n, hsup, hn, by rw [he]; rfl, ?_⟩
        rw [hlinked, he]
        simp only [install, write_self, PageDirectoryEntry.address_setFlags,
          PageDirectoryEntry.address_setAddress, Nat.mod_eq_of_lt hlt]
    · right
      refine ⟨_, hsup, ?_, hlinked⟩
      rw [NextSupplied, Classical.not_imp, not_exists] at hsup
      obtain ⟨n, hn, -⟩ | ⟨-, he⟩ := PhysicalMemoryManager.requestPage_cases
        (m := s.pmm) (by omega)
      · exact absurd hn (hsup.2 n)
      · simp [nextTable, hpres, requestPage, clearPage, store, he]

/-- **The frames that `map` links in** are the pages that it was handed out, if there was one for
every table that was missing; if not, it links in more frames than it was handed out pages. -/
theorem descend_linked (hT : s.pmm.totalPages ≤ 2 ^ 40) :
    ∃ new, (s.descend mf table is).1.pmm.handedOut = new ++ s.pmm.handedOut ∧
      (s.PathSupplied mf table (is ++ [j]) ∧ linked mf s table is = new.reverse ∧
          (∀ n ∈ new, s.pmm.Free n) ∨
        ¬ s.PathSupplied mf table (is ++ [j]) ∧ new.length < (linked mf s table is).length) := by
  induction is generalizing s table with
  | nil => exact ⟨[], rfl, .inl ⟨trivial, rfl, fun n hn => absurd hn List.not_mem_nil⟩⟩
  | cons i is ih =>
    have hT' : (s.nextTable table i mf).1.pmm.totalPages ≤ 2 ^ 40 :=
      (nextTable_totalPages s table i mf).trans_le hT
    obtain ⟨new, hout, hcases⟩ := @ih (s.nextTable table i mf).1 (s.nextTable table i mf).2 hT'
    rw [List.cons_append, pathSupplied_cons (by simp), descend]
    obtain ⟨hnext, hpmm, hlinked⟩ | ⟨n, hnext, hn, hpmm, hlinked⟩ | ⟨f, hnext, hsame, hlinked⟩ :=
      @linked_cons s table i is hT mf <;> rw [hlinked]
    · rw [hpmm] at hout hcases
      exact ⟨new, hout, by rwa [and_iff_right hnext]⟩
    · rw [hpmm] at hout hcases
      refine ⟨new ++ [n], by rw [hout]; simp [PhysicalMemoryManager.handOut], ?_⟩
      rw [and_iff_right hnext]
      obtain ⟨hpath, hlink, hfree⟩ | ⟨hpath, hlt⟩ := hcases
      · refine .inl ⟨hpath, by rw [hlink]; simp, fun k hk => ?_⟩
        obtain hk | rfl : k ∈ new ∨ k = n := by simpa using hk
        · exact ((PhysicalMemoryManager.free_handOut hn.1).1 (hfree k hk)).1
        · exact hn
      · exact .inr ⟨hpath, by simpa using hlt⟩
    · -- the failed request has handed out nothing
      refine ⟨new, by rw [hout, hsame], .inr ⟨fun h => hnext h.1, ?_⟩⟩
      rw [List.length_cons, Nat.lt_succ_iff]
      obtain ⟨-, hlink, -⟩ | ⟨-, hlt⟩ := hcases
      · rw [hlink, List.length_reverse]
      · exact hlt.le

/-- All missing tables were really allocated: the frames that `map` links in are the pages that
`request_page` has handed out during the call, all of them free before. -/
def AllAllocated (s : Machine) (pml4 v p : ℕ) (mf : BitVec 64) : Prop :=
  ∃ new, (s.map pml4 v p mf).pmm.handedOut = new ++ s.pmm.handedOut ∧
    linked mf s pml4 (PageMapIndexer.ofAddress v).tables = new.reverse ∧
    ∀ n ∈ new, s.pmm.Free n

theorem map_pmm_eq (h0 : pml4 ≠ 0) : (s.map pml4 v p mf).pmm =
    (s.descend mf pml4 (PageMapIndexer.ofAddress v).tables).1.pmm := by
  rw [s.map_eq_mapFrom h0, pathOf, PageMapIndexer.path, mapFrom_eq_store]
  rfl

theorem allAllocated_iff (h0 : pml4 ≠ 0) (hT : s.pmm.totalPages ≤ 2 ^ 40) :
    s.AllAllocated pml4 v p mf ↔ s.MapSupplied pml4 v mf := by
  obtain ⟨new, hout, hcases⟩ := @descend_linked s pml4 mf (PageMapIndexer.ofAddress v).page
    (PageMapIndexer.ofAddress v).tables hT
  rw [← map_pmm_eq (p := p) h0] at hout
  rw [← pathSupplied_iff]
  constructor
  · rintro ⟨new', hout', hlink, -⟩
    obtain rfl : new' = new := List.append_cancel_right (hout'.symm.trans hout)
    obtain ⟨hpath, -⟩ | ⟨-, hlt⟩ := hcases
    · exact hpath
    · rw [hlink, List.length_reverse] at hlt
      exact absurd hlt (Nat.lt_irrefl _)
  · intro hpath
    obtain ⟨-, hlink, hfree⟩ | ⟨hnot, -⟩ := hcases
    · exact ⟨new, hout, hlink, hfree⟩
    · exact absurd hpath hnot

end Machine

/-! ### What `map` leaves -/

/-- Either all tables that were missing were really allocated, or `map` has changed neither the
translation of an address nor page 0. -/
def AllocatesOrKeeps (s : Machine) (pml4 v p : ℕ) (mf : BitVec 64) : Prop :=
  s.AllAllocated pml4 v p mf ∨
    (∀ w, translate (s.map pml4 v p mf).ram pml4 w = translate s.ram pml4 w) ∧
      (s.map pml4 v p mf).ram 0 = s.ram 0

/-- **`map` links in allocated pages only, or changes nothing, exactly if** it finds a page for
every table that is missing; unless the last entry that it stores happens to name the frame that is
named there already, this holds for every physical address by itself.  In a well-formed page map,
there have to be as many pages left as tables are missing. -/
theorem map_allocates_iff (hT : s.pmm.totalPages ≤ 2 ^ 40) :
    ((∀ p, AllocatesOrKeeps s pml4 v p mf) ↔ pml4 = 0 ∨ s.MapSupplied pml4 v mf) ∧
    (∀ p, (s.ram 0 (PageMapIndexer.ofAddress v).page).address ≠ p >>> 12 % 2 ^ 40 →
      (AllocatesOrKeeps s pml4 v p mf ↔ pml4 = 0 ∨ s.MapSupplied pml4 v mf)) ∧
    (WellFormed s.ram pml4 → s.FreshFrames pml4 →
      (s.MapSupplied pml4 v mf ↔
        tablesMissing s.ram (frameOf pml4) (PageMapIndexer.ofAddress v).tables ≤
          s.pmm.pagesLeft.card)) := by
  have hkeeps : pml4 = 0 ∨ s.MapSupplied pml4 v mf → ∀ p, AllocatesOrKeeps s pml4 v p mf := by
    intro hcond p
    by_cases h0 : pml4 = 0
    · have hmap : s.map pml4 v p mf = s := by simp [Machine.map, h0]
      exact .inr ⟨fun w => by rw [hmap], by rw [hmap]⟩
    · exact .inl ((Machine.allAllocated_iff h0 hT).2 (hcond.resolve_left h0))
  have hfails : ∀ p, (s.ram 0 (PageMapIndexer.ofAddress v).page).address ≠ p >>> 12 % 2 ^ 40 →
      AllocatesOrKeeps s pml4 v p mf → pml4 = 0 ∨ s.MapSupplied pml4 v mf := by
    intro p hne hkept
    by_contra hcond
    obtain ⟨h0, hsup⟩ := not_or.1 hcond
    obtain hall | ⟨-, hzero⟩ := hkept
    · exact hsup ((Machine.allAllocated_iff h0 hT).1 hall)
    · refine hne ?_
      rw [← hzero]
      exact Machine.address_map_of_not_supplied h0 (by omega) hsup p
  refine ⟨⟨fun h => ?_, hkeeps⟩, fun p hne => ⟨hfails p hne, fun h => hkeeps h p⟩,
    Machine.mapSupplied_iff_card⟩
  -- one of the frames 0 and 1 is not the one that is named in page 0
  by_cases hzero : (s.ram 0 (PageMapIndexer.ofAddress v).page).address = 0
  · exact hfails pageSize (by rw [hzero]; decide) (h pageSize)
  · exact hfails 0 hzero (h 0)

theorem map_allocates_iff_empty :
    AllocatesOrKeeps (Machine.empty 2 10) pageSize 0x5000 0x8000 Machine.presentWrite := by
  refine (map_allocates_iff (by decide)).1.2 (.inr ?_) 0x8000
  exact (Machine.supply_empty (by decide)).mapSupplied (by decide) _ _ _

/-- On a machine without free pages, `map` writes to page 0. -/
theorem null_page_installed : ¬ ∀ (s : Machine) (pml4 v p : ℕ) (mf : BitVec 64),
    s.pmm.totalPages ≤ 2 ^ 40 → WellFormed s.ram pml4 → s.FreshFrames pml4 →
    AllocatesOrKeeps s pml4 v p mf := by
  intro hclaim
  obtain hall | ⟨-, hzero⟩ := hclaim (Machine.empty 2 2) pageSize 0x5000 0x8000
    Machine.presentWrite (by decide) (Machine.wellFormed_empty 2 2 pageSize)
    (Machine.freshFrames_empty (by decide) (by decide))
  · obtain ⟨n, hn⟩ := ((Machine.allAllocated_iff (by decide) (by decide)).1 hall).1 (by decide)
    obtain ⟨hle, hlt⟩ := Machine.free_empty.1 hn
    omega
  · have hentry := congrFun hzero 5
    revert hentry
    decide +kernel

end Eterna
