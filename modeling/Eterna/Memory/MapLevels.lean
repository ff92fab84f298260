import Eterna.Memory.PageMap
import Mathlib.Data.Finset.Card

/-!
# `map`, level by level

`map` goes down three levels of tables, and takes a page from `request_page` for every table that is
missing.

* `Machine.nextTable_own` : what one level leaves behind, for the tables that belong to nobody else;
* `Machine.mapFrom_elsewhere` : `map` writes to the tables of the page map and to the pages it takes
  from `request_page`, and nowhere else;
* `Machine.pathSupplied_iff_card` : the pages that `map` needs are the tables that are missing.
-/

namespace Eterna

open TableWalk
open PageDirectoryEntry (next)

/-- The three rights of a page. -/
def rights : List PageTableFlag := [.present, .readWrite, .userSuper]

namespace Machine

/-- What `map` does from one table downwards: `nextTable` for each index but the last, and a store
for the last. -/
def mapFrom (mf : BitVec 64) (p : ℕ) : Machine → ℕ → List (Fin 512) → Machine
  | s, _, [] => s
  | s, table, [i] => s.store table i (((s.ram (frameOf table) i).setAddress (p >>> 12)).setFlags mf)
  | s, table, i :: j :: is =>
    mapFrom mf p (s.nextTable table i mf).1 (s.nextTable table i mf).2 (j :: is)

theorem map_eq_mapFrom (s : Machine) {pml4 : ℕ} (h0 : pml4 ≠ 0) (v p : ℕ) (mf : BitVec 64) :
    s.map pml4 v p mf = mapFrom mf p s pml4 (pathOf v) := by
  simp only [map, h0, ↓reduceIte]
  rfl

theorem mapFrom_cons {mf : BitVec 64} {p : ℕ} {s : Machine} {table : ℕ} {i : Fin 512}
    {is : List (Fin 512)} (h : is ≠ []) : mapFrom mf p s table (i :: is) =
      mapFrom mf p (s.nextTable table i mf).1 (s.nextTable table i mf).2 is := by
  cases is with
  | nil => exact absurd rfl h
  | cons j is => rfl

/-- Every call of `request_page` on the way down succeeds. -/
def PathSupplied (mf : BitVec 64) : Machine → ℕ → List (Fin 512) → Prop
  | _, _, [] => True
  | _, _, [_] => True
  | s, table, i :: j :: is => s.NextSupplied table i ∧
      PathSupplied mf (s.nextTable table i mf).1 (s.nextTable table i mf).2 (j :: is)

theorem pathSupplied_iff {s : Machine} {pml4 v : ℕ} {mf : BitVec 64} :
    s.PathSupplied mf pml4 (pathOf v) ↔ s.MapSupplied pml4 v mf := by
  simp only [pathOf, PageMapIndexer.path, PageMapIndexer.tables, List.cons_append,
    List.nil_append, PathSupplied, and_true, MapSupplied]

theorem pathSupplied_cons {mf : BitVec 64} {s : Machine} {table : ℕ} {i : Fin 512}
    {is : List (Fin 512)} (h : is ≠ []) : PathSupplied mf s table (i :: is) ↔
      s.NextSupplied table i ∧
        PathSupplied mf (s.nextTable table i mf).1 (s.nextTable table i mf).2 is := by
  cases is with
  | nil => exact absurd rfl h
  | cons j is => rfl

/-- The tables from `f` down belong to nobody else: they are not shared, and `request_page` hands
out none of them. -/
structure OwnTables (s : Machine) (d f : ℕ) : Prop where
  fits : s.pmm.totalPages ≤ 2 ^ 40
  unshared : Unshared next s.ram d f
  fresh : ∀ g, s.pmm.Free g → ¬ IsTable next s.ram d f g

theorem OwnTables.root {s : Machine} {d f : ℕ} (h : s.OwnTables d f) : ¬ s.pmm.Free f :=
  fun hf => h.fresh f hf (isTable_root d f)

theorem FreshFrames.ownTables {s : Machine} {pml4 : ℕ} (hwf : WellFormed s.ram pml4)
    (hfresh : s.FreshFrames pml4) : s.OwnTables 3 (frameOf pml4) :=
  ⟨hfresh.fits, hwf, hfresh.fresh⟩

/-- What one level of `map` leaves behind. -/
structure NextSpec (s : Machine) (table : ℕ) (i : Fin 512) (mf : BitVec 64) (d : ℕ)
    (r : Machine × ℕ) : Prop where
  own : r.1.OwnTables d (frameOf r.2)
  free : ∀ g, r.1.pmm.Free g → s.pmm.Free g
  /-- The tables below are pages that were free, or the tables that were below before. -/
  tables : ∀ g, IsTable next r.1.ram d (frameOf r.2) g → s.pmm.Free g ∨
    next (s.ram (frameOf table) i) = some (frameOf r.2) ∧ IsTable next s.ram d (frameOf r.2) g
  /-- Only the entry and free pages have changed. -/
  elsewhere : ∀ g j, ¬ s.pmm.Free g → ¬ (g = frameOf table ∧ j = i) → r.1.ram g j = s.ram g j
  address : (r.1.ram (frameOf table) i).address = frameOf r.2
  flag : ∀ f ∈ rights, (r.1.ram (frameOf table) i).flag f = hasFlag mf f
  /-- The table below is the one from before, or a new empty one. -/
  child : next (s.ram (frameOf table) i) = some (frameOf r.2) ∨
    next (s.ram (frameOf table) i) = none ∧ r.1.ram (frameOf r.2) = PageTable.zero

theorem flag_setFlags_of_mem (e : PageDirectoryEntry) (mf : BitVec 64) {f : PageTableFlag}
    (hf : f ∈ rights) : (e.setFlags mf).flag f = hasFlag mf f := by
  rw [PageDirectoryEntry.flag_setFlags]
  simp only [rights, List.mem_cons, List.not_mem_nil, or_false] at hf
  rcases hf with rfl | rfl | rfl <;> rfl

theorem nextTable_own {s : Machine} {d table : ℕ} {i : Fin 512} (mf : BitVec 64)
    (h : s.OwnTables (d + 1) (frameOf table)) (hsup : s.NextSupplied table i) :
    NextSpec s table i mf d (s.nextTable table i mf) := by
  rcases nextTable_cases h.fits mf hsup with ⟨hpres, he⟩ | ⟨n, habs, hn, -, hlt, he⟩
  · -- the entry keeps its address, and no table below it is written
    have hnext := PageDirectoryEntry.next_of_present hpres
    have hagree : ∀ g, IsTable next s.ram d (s.ram (frameOf table) i).address g →
        (s.enter (frameOf table) i mf).ram g = s.ram g := by
      intro g hg
      have hne : g ≠ frameOf table := fun e => h.unshared.root_not_below hnext (e ▸ hg)
      exact funext fun j => write_of_ne _ _ fun hj => hne hj.1
    rw [he]
    refine ⟨⟨h.fits, ?_, fun g hg hgt => ?_⟩, fun g hg => hg, fun g hg => ?_, fun g j _ hj => ?_,
      ?_, fun f hf => ?_, ?_⟩ <;> simp only [frameOf_shiftLeft] at *
    · exact (h.unshared.below hnext).of_agree hagree
    · exact h.fresh g hg (((isTable_of_agree hagree).1 hgt).below hnext)
    · exact .inr ⟨hnext, (isTable_of_agree hagree).1 hg⟩
    · exact write_of_ne _ _ hj
    · simp [enter]
    · simp only [enter, write_self, flag_setFlags_of_mem _ mf hf]
    · exact .inl hnext
  · -- the new table has no entries, so no table is below it
    have hne : frameOf table ≠ n := fun e => h.root (e ▸ hn)
    have hzero : (s.install (frameOf table) i mf n).ram n = PageTable.zero := by
      refine funext fun j => ?_
      simp only [install]
      rw [write_of_ne _ _ fun hj => hne hj.1.symm, fill_self]
    have hempty : ∀ j, next ((s.install (frameOf table) i mf n).ram n j) = none := fun j => by
      rw [hzero]; exact PageDirectoryEntry.next_zero
    rw [he]
    refine ⟨⟨?_, ?_, fun g hg hgt => ?_⟩, fun g hg => ?_, fun g hg => ?_, fun g j hg hj => ?_,
      ?_, fun f hf => ?_, ?_⟩ <;> simp only [frameOf_shiftLeft] at *
    · simpa [install] using h.fits
    · exact unshared_of_empty d hempty
    · rw [isTable_of_empty hempty hgt] at hg
      exact absurd ((PhysicalMemoryManager.free_handOut hn.1).1 hg).2 (Nat.lt_irrefl n)
    · exact ((PhysicalMemoryManager.free_handOut hn.1).1 hg).1
    · rw [isTable_of_empty hempty hg]
      exact .inl hn
    · have hgn : g ≠ n := fun e => hg (e ▸ hn)
      simp only [install]
      rw [write_of_ne _ _ hj, fill_of_ne _ _ hgn]
    · simpa [install] using hlt
    · simp only [install, write_self, flag_setFlags_of_mem _ mf hf]
    · exact .inr ⟨PageDirectoryEntry.next_of_absent habs, hzero⟩

theorem NextSpec.root_not_below {s : Machine} {d table : ℕ} {i : Fin 512} {mf : BitVec 64}
    {r : Machine × ℕ} (h : NextSpec s table i mf d r) (hown : s.OwnTables (d + 1) (frameOf table)) :
    ¬ IsTable next r.1.ram d (frameOf r.2) (frameOf table) := by
  intro ht
  rcases h.tables _ ht with hf | ⟨hi, ht⟩
  · exact hown.root hf
  · exact hown.unshared.root_not_below hi ht

/-- **`map` writes only to its own tables and to free pages.** -/
theorem mapFrom_elsewhere {mf : BitVec 64} {p : ℕ} {is : List (Fin 512)} :
    ∀ {s : Machine} {d table : ℕ}, s.OwnTables d (frameOf table) → is.length ≤ d + 1 →
      s.PathSupplied mf table is → ∀ g, ¬ IsTable next s.ram d (frameOf table) g →
      ¬ s.pmm.Free g → (mapFrom mf p s table is).ram g = s.ram g := by
  induction is with
  | nil => intros; rfl
  | cons i is ih =>
    intro s d table hown hlen hsup g hg hfree
    have hroot : g ≠ frameOf table := fun e => hg (e ▸ isTable_root d _)
    by_cases his : is = []
    · subst his
      exact funext fun j => write_of_ne _ _ fun hj => hroot hj.1
    · obtain ⟨d, rfl⟩ : ∃ e, d = e + 1 :=
        ⟨d - 1, by have := List.length_pos_iff.2 his; simp only [List.length_cons] at hlen; omega⟩
      obtain ⟨hnext, hrest⟩ := (pathSupplied_cons his).1 hsup
      have hspec := nextTable_own mf hown hnext
      rw [mapFrom_cons his, ih hspec.own (by simpa using hlen) hrest g _ fun hf =>
        hfree (hspec.free g hf)]
      · exact funext fun j => hspec.elsewhere g j hfree fun hj => hroot hj.1
      · intro ht
        rcases hspec.tables g ht with hf | ⟨hi, ht⟩
        · exact hfree hf
        · exact hg (ht.below hi)

/-- The tables below a present entry stay as they are. -/
theorem NextSpec.agree {s : Machine} {d table : ℕ} {i : Fin 512} {mf : BitVec 64}
    {r : Machine × ℕ} (h : NextSpec s table i mf d r)
    (hown : s.OwnTables (d + 1) (frameOf table))
    (hchild : next (s.ram (frameOf table) i) = some (frameOf r.2)) (g : ℕ)
    (hg : IsTable next s.ram d (frameOf r.2) g) : r.1.ram g = s.ram g := by
  refine funext fun k => h.elsewhere g k (fun hf => hown.fresh g hf (hg.below hchild)) ?_
  rintro ⟨rfl, -⟩
  exact hown.unshared.root_not_below hchild hg

end Machine

namespace PhysicalMemoryManager

variable {m : PhysicalMemoryManager}

/-- The pages that `request_page` can still hand out. -/
def pagesLeft (m : PhysicalMemoryManager) : Finset ℕ :=
  (Finset.Ico m.firstFreePage m.totalPages).filter fun i => m.pageMap.get i = false

theorem mem_pagesLeft {i : ℕ} : i ∈ m.pagesLeft ↔ m.Free i := by
  rw [pagesLeft, Finset.mem_filter, Finset.mem_Ico, and_assoc]
  rfl

theorem pagesLeft_handOut {n : ℕ} (hn : m.Free n) (hmin : ∀ j, m.Free j → n ≤ j) :
    (m.handOut n).pagesLeft = m.pagesLeft.erase n := by
  ext i
  rw [mem_pagesLeft, Finset.mem_erase, mem_pagesLeft, free_handOut hn.1]
  constructor
  · rintro ⟨hi, hlt⟩
    exact ⟨Nat.ne_of_gt hlt, hi⟩
  · rintro ⟨hne, hi⟩
    exact ⟨hi, Nat.lt_of_le_of_ne (hmin i hi) hne.symm⟩

end PhysicalMemoryManager

/-! ### How many pages `map` needs -/

variable {ram ram' : PhysicalMemory} {s : Machine} {d f table : ℕ} {mf : BitVec 64}
  {i j : Fin 512} {is : List (Fin 512)}

/-- The number of tables along the indices that are missing. -/
def tablesMissing (ram : PhysicalMemory) : ℕ → List (Fin 512) → ℕ
  | _, [] => 0
  | f, i :: is =>
    match next (ram f i) with
    | some g => tablesMissing ram g is
    | none => is.length + 1

theorem tablesMissing_of_agree (h : ∀ g, IsTable next ram d f g → ram' g = ram g)
    (hlen : is.length ≤ d + 1) : tablesMissing ram' f is = tablesMissing ram f is := by
  induction is generalizing d f with
  | nil => rfl
  | cons i is ih =>
    rw [tablesMissing, tablesMissing, h f (isTable_root d f)]
    cases hi : next (ram f i) with
    | none => rfl
    | some g =>
      cases is with
      | nil => rfl
      | cons k is =>
        obtain ⟨d, rfl⟩ : ∃ e, d = e + 1 :=
          ⟨d - 1, by simp only [List.length_cons] at hlen; omega⟩
        exact ih (fun g' hg => h g' (hg.below hi)) (by simpa using hlen)

theorem tablesMissing_of_empty (h : ∀ k, next (ram f k) = none) (is : List (Fin 512)) :
    tablesMissing ram f is = is.length := by
  cases is with
  | nil => rfl
  | cons i is => rw [tablesMissing, h, List.length_cons]

namespace Machine

/-- One level takes a page exactly if the table below is missing. -/
theorem card_nextTable (hown : s.OwnTables (d + 1) (frameOf table)) (hlen : is.length ≤ d)
    (hnext : s.NextSupplied table i) :
    ∃ k, tablesMissing s.ram (frameOf table) (i :: is) =
        k + tablesMissing (s.nextTable table i mf).1.ram (frameOf (s.nextTable table i mf).2) is ∧
      (s.nextTable table i mf).1.pmm.pagesLeft.card + k = s.pmm.pagesLeft.card := by
  have hspec := nextTable_own mf hown hnext
  cases hpres : (s.ram (frameOf table) i).flag .present with
  | true =>
    obtain ⟨-, hpmm⟩ := nextTable_pmm_of_present mf hpres
    obtain hchild | ⟨hnone, -⟩ := hspec.child
    · refine ⟨0, ?_, by rw [hpmm, Nat.add_zero]⟩
      rw [tablesMissing, hchild, tablesMissing_of_agree (hspec.agree hown hchild) (by omega),
        Nat.zero_add]
    · rw [PageDirectoryEntry.next_of_present hpres] at hnone
      cases hnone
  | false =>
    obtain ⟨htrue, -⟩ | ⟨n, -, hn, hmin, -, he⟩ := nextTable_cases hown.fits mf hnext
    · rw [hpres] at htrue
      cases htrue
    · -- the new table is empty, so all further ones are missing, too
      have hempty : ∀ k, next ((s.install (frameOf table) i mf n).ram n k) = none := by
        intro k
        have hne : frameOf table ≠ n := fun e => hown.root (e ▸ hn)
        simp only [install]
        rw [write_of_ne _ _ fun hk => hne hk.1.symm, fill_self]
        exact PageDirectoryEntry.next_zero
      have hmem := PhysicalMemoryManager.mem_pagesLeft.2 hn
      refine ⟨1, ?_, ?_⟩
      · rw [he, frameOf_shiftLeft, tablesMissing_of_empty hempty, tablesMissing,
          PageDirectoryEntry.next_of_absent hpres, Nat.add_comm]
      · rw [he]
        simp only [install]
        rw [PhysicalMemoryManager.pagesLeft_handOut hn hmin]
        exact Finset.card_erase_add_one hmem

/-- **The pages that `map` needs** are as many as the tables that are missing. -/
theorem pathSupplied_iff_card (hown : s.OwnTables d (frameOf table)) (hlen : is.length ≤ d) :
    s.PathSupplied mf table (is ++ [j]) ↔
      tablesMissing s.ram (frameOf table) is ≤ s.pmm.pagesLeft.card := by
  induction is generalizing s d table with
  | nil => exact iff_of_true trivial (Nat.zero_le _)
  | cons i is ih =>
    obtain ⟨d, rfl⟩ : ∃ e, d = e + 1 := ⟨d - 1, by simp only [List.length_cons] at hlen; omega⟩
    have hlen : is.length ≤ d := by simpa using hlen
    rw [List.cons_append, pathSupplied_cons (by simp)]
    by_cases hnext : s.NextSupplied table i
    · obtain ⟨k, hmissing, hleft⟩ := @card_nextTable s d table mf i is hown hlen hnext
      rw [and_iff_right hnext, ih (nextTable_own mf hown hnext).own hlen, hmissing]
      omega
    · have hnext' := hnext
      rw [NextSupplied, Classical.not_imp, not_exists] at hnext'
      obtain ⟨habs, hnone⟩ := hnext'
      refine iff_of_false (fun h => hnext h.1) fun hle => ?_
      rw [tablesMissing, PageDirectoryEntry.next_of_absent habs] at hle
      obtain ⟨n, hn⟩ := Finset.card_pos.1 (Nat.lt_of_lt_of_le (Nat.succ_pos _) hle)
      exact hnone n (PhysicalMemoryManager.mem_pagesLeft.1 hn)

end Machine

end Eterna
