import Eterna.Library.LastWrite
import Eterna.Library.Runs
import Eterna.Memory.Virtual

/-!
# Page maps and what `map` does to them

A page map is read by the four-level walk `walk`; `translate` is the frame the walk ends in.  In a
well-formed page map every table has its own frame (`WellFormed`), and `request_page` hands out
none of them (`Machine.FreshFrames`).

* `Machine.nextTable_cases` : everything one level of `map` can do;
* `Machine.map_spec` : `map` sets the translation of one page and keeps all others, and the page
  map stays well formed;
* `MapRun.translate_eq` : after any sequence of calls of `map`, every address translates as the
  last call for its page says.
-/

namespace Eterna

open TableWalk Runs

/-! ### Walks -/

namespace PageDirectoryEntry

/-- The frame a present entry points to. -/
def next (e : PageDirectoryEntry) : Option ℕ := if e.flag .present then some e.address else none

theorem next_of_present {e : PageDirectoryEntry} (h : e.flag .present = true) :
    e.next = some e.address := if_pos h

theorem next_of_absent {e : PageDirectoryEntry} (h : e.flag .present = false) : e.next = none :=
  if_neg (by rw [h]; exact Bool.false_ne_true)

@[simp] theorem next_zero : ({} : PageDirectoryEntry).next = none :=
  next_of_absent (flag_zero _)

@[simp] theorem address_setFlags (e : PageDirectoryEntry) (mf : BitVec 64) :
    (e.setFlags mf).address = e.address := by simp [setFlags]

/-- `map` stores the flags of `mappingFlags`, except that `Global` ends up as the no-execute bit
and `NX` is never touched. -/
theorem flag_setFlags (e : PageDirectoryEntry) (mf : BitVec 64) (f : PageTableFlag) :
    (e.setFlags mf).flag f = match f with
      | .global => hasFlag mf .nx
      | .nx => e.flag .nx
      | f => hasFlag mf f := by
  cases f <;> simp [setFlags, flag_setFlag]

theorem next_setFlags (e : PageDirectoryEntry) {mf : BitVec 64}
    (h : hasFlag mf .present = true) : (e.setFlags mf).next = some e.address := by
  rw [next_of_present (by rw [flag_setFlags]; exact h), address_setFlags]

end PageDirectoryEntry

open PageDirectoryEntry (next)

@[simp] theorem frameOf_shiftLeft (f : ℕ) : frameOf (f <<< 12) = f := Nat.shiftLeft_shiftRight f 12

@[simp] theorem frameOf_mul (f : ℕ) : frameOf (f * pageSize) = f := by
  rw [frameOf, Nat.shiftRight_eq_div_pow]; exact Nat.mul_div_cancel f (by decide)

/-- The indices of the three upper levels. -/
def PageMapIndexer.tables (x : PageMapIndexer) : List (Fin 512) :=
  [x.pageDirectoryPointer, x.pageDirectory, x.pageTable]

/-- All four indices. -/
def PageMapIndexer.path (x : PageMapIndexer) : List (Fin 512) := x.tables ++ [x.page]

/-- The indices of a virtual address. -/
abbrev pathOf (v : ℕ) : List (Fin 512) := (PageMapIndexer.ofAddress v).path

theorem pathOf_eq_iff {v w : ℕ} : pathOf v = pathOf w ↔ pageNumber v = pageNumber w := by
  rw [← PageMapIndexer.ofAddress_eq_iff]
  constructor
  · intro h
    simp only [PageMapIndexer.path, PageMapIndexer.tables, List.cons_append, List.nil_append,
      List.cons.injEq, and_true] at h
    obtain ⟨h4, h3, h2, h1⟩ := h
    cases hv : PageMapIndexer.ofAddress v
    cases hw : PageMapIndexer.ofAddress w
    simp only [hv, hw] at h1 h2 h3 h4
    rw [h1, h2, h3, h4]
  · intro h; rw [pathOf, h]

/-- The four-level walk of a virtual address: the present leaf entry it ends in, if any. -/
def walk (ram : PhysicalMemory) (pml4 v : ℕ) : Option PageDirectoryEntry :=
  (follow next ram (frameOf pml4) (PageMapIndexer.ofAddress v).tables).bind fun pt =>
    let leaf := ram pt (PageMapIndexer.ofAddress v).page
    if leaf.flag .present then some leaf else none

/-- The frame a virtual address translates to. -/
def translate (ram : PhysicalMemory) (pml4 v : ℕ) : Option ℕ := (walk ram pml4 v).map (·.address)

theorem translate_eq_follow (ram : PhysicalMemory) (pml4 v : ℕ) :
    translate ram pml4 v = follow next ram (frameOf pml4) (pathOf v) := by
  rw [translate, walk, pathOf, PageMapIndexer.path, follow_append]
  cases follow next ram (frameOf pml4) (PageMapIndexer.ofAddress v).tables with
  | none => rfl
  | some pt =>
    simp only [Option.bind_some, follow_cons, follow_nil, next]
    split_ifs <;> rfl

theorem translate_congr_page (ram : PhysicalMemory) (pml4 : ℕ) {v w : ℕ}
    (h : pageNumber v = pageNumber w) : translate ram pml4 v = translate ram pml4 w := by
  rw [translate_eq_follow, translate_eq_follow, pathOf_eq_iff.2 h]

/-- **A well-formed page map**: every present intermediate entry points to a table of its own. -/
def WellFormed (ram : PhysicalMemory) (pml4 : ℕ) : Prop := Unshared next ram 3 (frameOf pml4)

/-- `f` is the frame of one of the tables of the page map. -/
abbrev IsTableOf (ram : PhysicalMemory) (pml4 f : ℕ) : Prop := IsTable next ram 3 (frameOf pml4) f

namespace Machine

/-- `request_page` hands out frames of physical memory that are no tables of this page map. -/
structure FreshFrames (s : Machine) (pml4 : ℕ) : Prop where
  /-- All frames lie below the 52-bit limit of physical addresses. -/
  fits : s.pmm.totalPages ≤ 2 ^ 40
  fresh : ∀ f, s.pmm.Free f → ¬ IsTableOf s.ram pml4 f

/-- If this level of `map` needs a new table, `request_page` has a page for it. -/
def NextSupplied (s : Machine) (table : ℕ) (index : Fin 512) : Prop :=
  (s.ram (frameOf table) index).flag .present = false → ∃ n, s.pmm.Free n

/-- Every call of `request_page` in this call of `map` succeeds. -/
def MapSupplied (s : Machine) (pml4 v : ℕ) (mf : BitVec 64) : Prop :=
  let indexer := PageMapIndexer.ofAddress v
  let pdp := s.nextTable pml4 indexer.pageDirectoryPointer mf
  let pd := pdp.1.nextTable pdp.2 indexer.pageDirectory mf
  s.NextSupplied pml4 indexer.pageDirectoryPointer ∧
    pdp.1.NextSupplied pdp.2 indexer.pageDirectory ∧ pd.1.NextSupplied pd.2 indexer.pageTable

/-- `t` is `s` after work on the page map at `pml4`: the page map is still well formed, its tables
are those it had and pages that were free, and nothing else has changed in memory. -/
structure Extends (pml4 : ℕ) (s t : Machine) : Prop where
  wellFormed : WellFormed t.ram pml4
  freshFrames : t.FreshFrames pml4
  free : ∀ g, t.pmm.Free g → s.pmm.Free g
  tables : ∀ g, IsTableOf t.ram pml4 g → IsTableOf s.ram pml4 g ∨ s.pmm.Free g
  elsewhere : ∀ g, ¬ IsTableOf s.ram pml4 g → ¬ s.pmm.Free g → t.ram g = s.ram g

theorem Extends.refl {pml4 : ℕ} {s : Machine} (hwf : WellFormed s.ram pml4)
    (hfresh : s.FreshFrames pml4) : Extends pml4 s s :=
  ⟨hwf, hfresh, fun _ => id, fun _ => .inl, fun _ _ _ => rfl⟩

theorem Extends.trans {pml4 : ℕ} {s t u : Machine} (h : Extends pml4 s t)
    (h' : Extends pml4 t u) : Extends pml4 s u := by
  refine ⟨h'.wellFormed, h'.freshFrames, fun g hg => h.free g (h'.free g hg), fun g hg => ?_,
    fun g hg hf => ?_⟩
  · rcases h'.tables g hg with hg | hg
    · exact h.tables g hg
    · exact .inr (h.free g hg)
  · have hgt : ¬ IsTableOf t.ram pml4 g := fun hgt => (h.tables g hgt).elim hg hf
    rw [h'.elsewhere g hgt fun hft => hf (h.free g hft), h.elsewhere g hg hf]

/-! ### One level -/

/-- The machine after `nextTable` has found the table below the entry. -/
def enter (s : Machine) (f : ℕ) (i : Fin 512) (mf : BitVec 64) : Machine :=
  { s with ram := write s.ram f i ((s.ram f i).setFlags mf) }

/-- The machine after `nextTable` has put the new table `n` below the entry. -/
def install (s : Machine) (f : ℕ) (i : Fin 512) (mf : BitVec 64) (n : ℕ) : Machine :=
  { s with
    pmm := s.pmm.handOut n
    ram := write (fill s.ram n PageTable.zero) f i (((s.ram f i).setAddress n).setFlags mf) }

/-- **Everything one level of `map` can do**, when pages are available: rewrite the flags of a
present entry, or put a new empty table, in the first free page, below an absent one. -/
theorem nextTable_cases {s : Machine} (hT : s.pmm.totalPages ≤ 2 ^ 40) {table : ℕ} {i : Fin 512}
    (mf : BitVec 64) (hsup : s.NextSupplied table i) :
    ((s.ram (frameOf table) i).flag .present = true ∧
      s.nextTable table i mf =
        (s.enter (frameOf table) i mf, (s.ram (frameOf table) i).address <<< 12)) ∨
    (∃ n, (s.ram (frameOf table) i).flag .present = false ∧ s.pmm.Free n ∧
      (∀ j, s.pmm.Free j → n ≤ j) ∧ n < 2 ^ 40 ∧
      s.nextTable table i mf = (s.install (frameOf table) i mf n, n <<< 12)) := by
  cases hp : (s.ram (frameOf table) i).flag .present
  · obtain ⟨k, hk⟩ := hsup hp
    rcases PhysicalMemoryManager.requestPage_cases (m := s.pmm) (by omega) with
      ⟨n, hn, hmin, he⟩ | ⟨hnone, -⟩
    · have hlt : n < 2 ^ 40 := Nat.lt_of_lt_of_le hn.2.1 hT
      refine .inr ⟨n, rfl, hn, hmin, hlt, ?_⟩
      simp only [nextTable, hp, Bool.false_eq_true, ↓reduceIte, requestPage, he, clearPage, store,
        frameOf_mul, install, PageDirectoryEntry.address_setFlags,
        PageDirectoryEntry.address_setAddress, Nat.mod_eq_of_lt hlt]
    · exact absurd hk (hnone k)
  · refine .inl ⟨rfl, ?_⟩
    simp only [nextTable, hp, ↓reduceIte, store, enter, PageDirectoryEntry.address_setFlags]

/-- One level of `map` with `Present` among the flags: the page map gains at most the table it steps
down to, and all walks that led somewhere else, or to that table, are as before. -/
theorem nextTable_spec {s : Machine} {pml4 table : ℕ} {p : List (Fin 512)} {i : Fin 512}
    {mf : BitVec 64} (hwf : WellFormed s.ram pml4) (hfresh : s.FreshFrames pml4)
    (hp : follow next s.ram (frameOf pml4) p = some (frameOf table)) (hpd : p.length ≤ 2)
    (hmf : hasFlag mf .present = true) (hsup : s.NextSupplied table i) :
    Extends pml4 s (s.nextTable table i mf).1 ∧
      follow next (s.nextTable table i mf).1.ram (frameOf pml4) (p ++ [i]) =
        some (frameOf (s.nextTable table i mf).2) ∧
      ∀ q : List (Fin 512), q.length ≤ 4 →
        (q = p ++ [i] → (follow next s.ram (frameOf pml4) q).isSome) →
        follow next (s.nextTable table i mf).1.ram (frameOf pml4) q =
          follow next s.ram (frameOf pml4) q := by
  have htable : IsTableOf s.ram pml4 (frameOf table) := ⟨p, by omega, hp⟩
  rcases nextTable_cases hfresh.fits mf hsup with ⟨hpres, he⟩ | ⟨n, habs, hn, -, hlt, he⟩
  · -- the pointer stays, so no walk changes
    have hsame : ∀ q, follow next (s.enter (frameOf table) i mf).ram (frameOf pml4) q =
        follow next s.ram (frameOf pml4) q := fun q =>
      follow_write_of_next_eq
        ((PageDirectoryEntry.next_setFlags _ hmf).trans
          (PageDirectoryEntry.next_of_present hpres).symm) _ q
    have htables : ∀ g, IsTableOf (s.enter (frameOf table) i mf).ram pml4 g →
        IsTableOf s.ram pml4 g := by
      rintro g ⟨q, hq, h⟩
      exact ⟨q, hq, by rwa [hsame] at h⟩
    rw [he]
    refine ⟨⟨?_, ⟨hfresh.fits, fun g hg hgt => hfresh.fresh g hg (htables g hgt)⟩, fun _ => id,
      fun g hg => .inl (htables g hg), fun g hg _ => ?_⟩, ?_, fun q _ _ => hsame q⟩
    · intro q q' g hq hq' h h'
      rw [hsame] at h h'
      exact hwf q q' g hq hq' h h'
    · exact funext fun j => write_of_ne _ _ fun h => hg (by rw [h.1]; exact htable)
    · rw [hsame, follow_concat hp, PageDirectoryEntry.next_of_present hpres, frameOf_shiftLeft]
  · -- a new table is installed, from which no walk goes on
    have hnt := hfresh.fresh n hn
    have hnone := PageDirectoryEntry.next_of_absent habs
    have hnext : (((s.ram (frameOf table) i).setAddress n).setFlags mf).next = some n := by
      rw [PageDirectoryEntry.next_setFlags _ hmf, PageDirectoryEntry.address_setAddress,
        Nat.mod_eq_of_lt hlt]
    have hzero : ∀ j, next (PageTable.zero j) = none := fun _ => PageDirectoryEntry.next_zero
    have hfollow := fun q (hq : q.length ≤ 4) =>
      follow_install (q := q) hwf hp (by omega) hnt hnone hnext hzero hq
    have htables : ∀ g, IsTableOf (s.install (frameOf table) i mf n).ram pml4 g →
        g = n ∨ IsTableOf s.ram pml4 g := fun g hg =>
      isTable_install hwf hp (by omega) hnt hnone hnext hzero hg
    have hfree : ∀ g, (s.install (frameOf table) i mf n).pmm.Free g → s.pmm.Free g ∧ n < g :=
      fun g => (PhysicalMemoryManager.free_handOut hn.1).1
    rw [he]
    refine ⟨⟨unshared_install hwf hp (by omega) hnt hnone hnext hzero, ⟨?_, fun g hg hgt => ?_⟩,
      fun g hg => (hfree g hg).1, fun g hg => ?_, fun g hg hgf => ?_⟩, ?_, fun q hq hsome => ?_⟩
    · simpa [install] using hfresh.fits
    · obtain ⟨hgf, hgn⟩ := hfree g hg
      rcases htables g hgt with rfl | hgt
      · exact Nat.lt_irrefl _ hgn
      · exact hfresh.fresh g hgf hgt
    · rcases htables g hg with rfl | hgt
      · exact .inr hn
      · exact .inl hgt
    · have hgn : g ≠ n := fun e => hgf (e ▸ hn)
      funext j
      exact (write_of_ne _ _ fun h => hg (by rw [h.1]; exact htable)).trans
        (congrFun (fill_of_ne _ _ hgn) j)
    · rw [frameOf_shiftLeft]
      exact (hfollow (p ++ [i]) (by simp; omega)).trans (if_pos rfl)
    · refine (hfollow q hq).trans (if_neg fun h => ?_)
      have hsome := hsome h
      rw [h, follow_concat hp, hnone] at hsome
      cases hsome

/-! ### `map` -/

/-- A store into a lowest table is below all tables: the page map gains none. -/
theorem extends_store_last {t : Machine} {pml4 table : ℕ} {p : List (Fin 512)} (i : Fin 512)
    (e : PageDirectoryEntry) (hwf : WellFormed t.ram pml4) (hfresh : t.FreshFrames pml4)
    (hp : follow next t.ram (frameOf pml4) p = some (frameOf table)) (hlen : p.length = 3) :
    Extends pml4 t (t.store table i e) := by
  have htables := fun g => isTable_write_last (g := g) (i := i) (e := e) hwf hp hlen
  refine ⟨unshared_write_last hwf hp hlen, ⟨hfresh.fits, fun g hg hgt => ?_⟩,
    fun _ => id, fun g hg => .inl (htables g hg), fun g hg _ => ?_⟩
  · exact hfresh.fresh g hg (htables g hgt)
  · have htable : IsTableOf t.ram pml4 (frameOf table) := ⟨p, by omega, hp⟩
    exact funext fun j => write_of_ne _ _ fun h => hg (by rw [h.1]; exact htable)

/-- **What `map` does**, with `Present` among the flags: the page of `v` translates to the frame of
`p`, every other page translates as before, and the page map stays well formed, with the tables it
had and those on the way to `v`. -/
theorem map_spec {s : Machine} {pml4 v p : ℕ} {mf : BitVec 64} (h0 : pml4 ≠ 0)
    (hwf : WellFormed s.ram pml4) (hfresh : s.FreshFrames pml4)
    (hsup : s.MapSupplied pml4 v mf) (hmf : hasFlag mf .present = true) (hp : p < 2 ^ 52) :
    Extends pml4 s (s.map pml4 v p mf) ∧
      (∀ w, translate (s.map pml4 v p mf).ram pml4 w =
        if pageNumber w = pageNumber v then some (p / pageSize)
        else translate s.ram pml4 w) ∧
      (follow next (s.map pml4 v p mf).ram (frameOf pml4)
        (PageMapIndexer.ofAddress v).tables).isSome ∧
      ∀ q : List (Fin 512), q.length ≤ 3 →
        (q <+: (PageMapIndexer.ofAddress v).tables →
          (follow next s.ram (frameOf pml4) q).isSome) →
        follow next (s.map pml4 v p mf).ram (frameOf pml4) q =
          follow next s.ram (frameOf pml4) q := by
  obtain ⟨hs4, hs3, hs2⟩ := hsup
  simp only [map, h0, ↓reduceIte]
  generalize hx : PageMapIndexer.ofAddress v = x at hs4 hs3 hs2 ⊢
  obtain ⟨hext4, hp4, hk4⟩ :=
    nextTable_spec (p := []) hwf hfresh rfl (Nat.zero_le _) hmf hs4
  generalize s.nextTable pml4 x.pageDirectoryPointer mf = t4 at hs3 hs2 hext4 hp4 hk4 ⊢
  obtain ⟨hext3, hp3, hk3⟩ :=
    nextTable_spec hext4.wellFormed hext4.freshFrames hp4 (by simp) hmf hs3
  generalize t4.1.nextTable t4.2 x.pageDirectory mf = t3 at hs2 hext3 hp3 hk3 ⊢
  obtain ⟨hext2, hp2, hk2⟩ :=
    nextTable_spec hext3.wellFormed hext3.freshFrames hp3 (by simp) hmf hs2
  generalize t3.1.nextTable t3.2 x.pageTable mf = t2 at hext2 hp2 hk2 ⊢
  have hwf2 := hext2.wellFormed
  -- three steps down have kept every full walk
  have hkeep : ∀ w, follow next t2.1.ram (frameOf pml4) (pathOf w) =
      follow next s.ram (frameOf pml4) (pathOf w) := by
    intro w
    have hlen : (pathOf w).length = 4 := rfl
    rw [hk2 _ hlen.le (fun h => absurd (congrArg List.length h) (by simp [hlen])),
      hk3 _ hlen.le (fun h => absurd (congrArg List.length h) (by simp [hlen])),
      hk4 _ hlen.le (fun h => absurd (congrArg List.length h) (by simp [hlen]))]
  -- and every table that was there or is not on the way
  have htables : ∀ q : List (Fin 512), q.length ≤ 3 →
      (q <+: x.tables → (follow next s.ram (frameOf pml4) q).isSome) →
      follow next t2.1.ram (frameOf pml4) q = follow next s.ram (frameOf pml4) q := by
    intro q hq hsome
    have h4 := hk4 q (by omega) fun h => hsome ⟨[x.pageDirectory, x.pageTable], by rw [h]; rfl⟩
    have h3 := hk3 q (by omega) fun h => h4 ▸ hsome ⟨[x.pageTable], by rw [h]; rfl⟩
    have h2 := hk2 q (by omega) fun h => by
      rw [h3, h4]
      exact hsome ⟨[], by rw [h]; rfl⟩
    rw [h2, h3, h4]
  have hshift : p >>> 12 = p / pageSize := Nat.shiftRight_eq_div_pow p 12
  have hlt : p / pageSize < 2 ^ 40 := by unfold pageSize; omega
  have hnext : (((t2.1.ram (frameOf t2.2) x.page).setAddress (p >>> 12)).setFlags mf).next =
      some (p / pageSize) := by
    rw [PageDirectoryEntry.next_setFlags _ hmf, PageDirectoryEntry.address_setAddress, hshift,
      Nat.mod_eq_of_lt hlt]
  -- the last store is below all tables
  have hlast : ∀ q : List (Fin 512), q.length ≤ 3 →
      follow next (t2.1.store t2.2 x.page
        (((t2.1.ram (frameOf t2.2) x.page).setAddress (p >>> 12)).setFlags mf)).ram
        (frameOf pml4) q = follow next t2.1.ram (frameOf pml4) q := by
    intro q hq
    refine (follow_write hwf2 hp2 rfl (by omega)).trans (if_neg fun h => ?_)
    have := congrArg List.length h
    simp at this
    omega
  refine ⟨(hext4.trans (hext3.trans hext2)).trans
      (extends_store_last x.page _ hwf2 hext2.freshFrames hp2 rfl), fun w => ?_, ?_,
    fun q hq hsome => ?_⟩
  · have hlen : (pathOf w).length ≤ 4 := Nat.le_refl 4
    have hiff : pathOf w = [] ++ [x.pageDirectoryPointer] ++ [x.pageDirectory] ++ [x.pageTable] ++
        [x.page] ↔ pageNumber w = pageNumber v := by
      rw [← pathOf_eq_iff, pathOf, pathOf, hx]; rfl
    rw [translate_eq_follow, translate_eq_follow, ← hkeep w, ← hnext]
    refine (follow_write hwf2 hp2 rfl hlen).trans ?_
    simp only [hiff]
  · rw [hlast x.tables (by simp [PageMapIndexer.tables]),
      show x.tables = [] ++ [x.pageDirectoryPointer] ++
      [x.pageDirectory] ++ [x.pageTable] from rfl, hp2]
    rfl
  · rw [hlast q hq, htables q hq hsome]

/-! ### Supply -/

/-- `k` pages in a row are free, so `k` calls of `request_page` succeed. -/
def Supply (s : Machine) (k : ℕ) : Prop := ∃ c, ∀ j, c ≤ j → j < c + k → s.pmm.Free j

theorem Supply.mono {s : Machine} {k l : ℕ} (h : s.Supply l) (hk : k ≤ l) : s.Supply k := by
  obtain ⟨c, hc⟩ := h
  exact ⟨c, fun j h1 h2 => hc j h1 (by omega)⟩

theorem Supply.nextSupplied {s : Machine} {k : ℕ} (h : s.Supply (k + 1)) (table : ℕ)
    (i : Fin 512) : s.NextSupplied table i := by
  obtain ⟨c, hc⟩ := h
  exact fun _ => ⟨c, hc c le_rfl (by omega)⟩

/-- One level of `map` uses up at most one page. -/
theorem Supply.nextTable {s : Machine} {k : ℕ} (hT : s.pmm.totalPages ≤ 2 ^ 40)
    (h : s.Supply (k + 1)) (table : ℕ) (i : Fin 512) (mf : BitVec 64) :
    (s.nextTable table i mf).1.Supply k := by
  rcases nextTable_cases hT mf (h.nextSupplied table i) with ⟨-, he⟩ | ⟨n, -, hn, hmin, -, he⟩
  · rw [he]
    exact h.mono (Nat.le_succ k)
  · obtain ⟨c, hc⟩ := h
    have hnc := hmin c (hc c le_rfl (by omega))
    rw [he]
    exact ⟨c + 1, fun j h1 h2 =>
      (PhysicalMemoryManager.free_handOut hn.1).2 ⟨hc j (by omega) (by omega), by omega⟩⟩

@[simp] theorem nextTable_totalPages (s : Machine) (table : ℕ) (i : Fin 512) (mf : BitVec 64) :
    (s.nextTable table i mf).1.pmm.totalPages = s.pmm.totalPages := by
  unfold nextTable
  dsimp only
  split_ifs
  · rfl
  · exact s.pmm.requestPage_totalPages

theorem nextTable_pmm_of_present {s : Machine} {table : ℕ} {i : Fin 512} (mf : BitVec 64)
    (h : (s.ram (frameOf table) i).flag .present = true) :
    s.NextSupplied table i ∧ (s.nextTable table i mf).1.pmm = s.pmm := by
  refine ⟨fun habs => ?_, ?_⟩
  · rw [h] at habs; cases habs
  · simp only [nextTable, h, ↓reduceIte, store]

/-- A call of `map` for a page whose tables are all there takes no page. -/
theorem map_pmm_of_tables {s : Machine} {pml4 v : ℕ} {mf : BitVec 64}
    (hwf : WellFormed s.ram pml4) (hfresh : s.FreshFrames pml4)
    (hmf : hasFlag mf .present = true)
    (h : (follow next s.ram (frameOf pml4) (PageMapIndexer.ofAddress v).tables).isSome) (p : ℕ) :
    s.MapSupplied pml4 v mf ∧ (s.map pml4 v p mf).pmm = s.pmm := by
  -- the entry that a longer walk goes through is present
  have hlevel : ∀ {t : Machine} {p : List (Fin 512)} {table : ℕ} {i : Fin 512},
      follow next t.ram (frameOf pml4) p = some (frameOf table) →
      (follow next t.ram (frameOf pml4) (p ++ [i])).isSome →
      (t.ram (frameOf table) i).flag .present = true := by
    intro t p table i hp hi
    rw [follow_concat hp] at hi
    by_contra habs
    rw [PageDirectoryEntry.next_of_absent (by simpa using habs)] at hi
    cases hi
  simp only [MapSupplied, map]
  generalize PageMapIndexer.ofAddress v = x at h ⊢
  obtain ⟨pt, hpt⟩ := Option.isSome_iff_exists.1 h
  have hpd : (follow next s.ram (frameOf pml4)
    [x.pageDirectoryPointer, x.pageDirectory]).isSome := by
    obtain ⟨k, hk, -⟩ := exists_follow_of_append
      (p := [x.pageDirectoryPointer, x.pageDirectory]) (q := [x.pageTable]) hpt
    rw [hk]; rfl
  have hpdp : (follow next s.ram (frameOf pml4) [x.pageDirectoryPointer]).isSome := by
    obtain ⟨k, hk, -⟩ := exists_follow_of_append
      (p := [x.pageDirectoryPointer]) (q := [x.pageDirectory, x.pageTable]) hpt
    rw [hk]; rfl
  obtain ⟨hs4, hm4⟩ := nextTable_pmm_of_present mf (hlevel (p := []) rfl hpdp)
  obtain ⟨hext4, hp4, hk4⟩ := nextTable_spec (p := []) hwf hfresh rfl (Nat.zero_le _) hmf hs4
  have hpd4 := hk4 [x.pageDirectoryPointer, x.pageDirectory] (by simp) fun h => by cases h
  have hpt4 := hk4 x.tables (by simp [PageMapIndexer.tables]) fun h => by cases h
  obtain ⟨hs3, hm3⟩ :=
    nextTable_pmm_of_present mf (hlevel (i := x.pageDirectory) hp4 (hpd4 ▸ hpd))
  obtain ⟨-, hp3, hk3⟩ := nextTable_spec hext4.wellFormed hext4.freshFrames hp4 (by simp) hmf hs3
  have hpt3 := hk3 x.tables (by simp [PageMapIndexer.tables]) fun h => by cases h
  obtain ⟨hs2, hm2⟩ := nextTable_pmm_of_present mf (hlevel (i := x.pageTable) hp3 (by
    rw [show [] ++ [x.pageDirectoryPointer] ++ [x.pageDirectory] ++ [x.pageTable] =
      x.tables from rfl,
      hpt3, hpt4]
    exact h))
  refine ⟨⟨hs4, hs3, hs2⟩, ?_⟩
  split_ifs
  · rfl
  · exact hm2.trans (hm3.trans hm4)

theorem Supply.mapSupplied {s : Machine} (hT : s.pmm.totalPages ≤ 2 ^ 40) (h : s.Supply 3)
    (pml4 v : ℕ) (mf : BitVec 64) : s.MapSupplied pml4 v mf := by
  have h3 := h.nextTable hT pml4 (PageMapIndexer.ofAddress v).pageDirectoryPointer mf
  exact ⟨h.nextSupplied _ _, h3.nextSupplied _ _,
    (h3.nextTable (by simpa using hT) _ _ mf).nextSupplied _ _⟩

theorem Supply.map {s : Machine} {k : ℕ} (hT : s.pmm.totalPages ≤ 2 ^ 40)
    (h : s.Supply (k + 3)) (pml4 v p : ℕ) (mf : BitVec 64) : (s.map pml4 v p mf).Supply k := by
  unfold Machine.map
  split_ifs
  · exact h.mono (by omega)
  · have h3 := h.nextTable hT pml4 (PageMapIndexer.ofAddress v).pageDirectoryPointer mf
    have h2 := h3.nextTable (by simpa using hT)
      (s.nextTable pml4 (PageMapIndexer.ofAddress v).pageDirectoryPointer mf).2
      (PageMapIndexer.ofAddress v).pageDirectory mf
    exact h2.nextTable (by simpa using hT) _ (PageMapIndexer.ofAddress v).pageTable mf

@[simp] theorem map_totalPages (s : Machine) (pml4 v p : ℕ) (mf : BitVec 64) :
    (s.map pml4 v p mf).pmm.totalPages = s.pmm.totalPages := by
  unfold map
  split_ifs
  · rfl
  · simp [store]

end Machine

/-! ### Runs of `map` -/

/-- One call of `map` on a fixed page map. -/
structure MapCall where
  /-- `virtualAddress`. -/
  virtualAddress : ℕ
  /-- `physicalAddress`. -/
  physicalAddress : ℕ
  /-- `mappingFlags`. -/
  mappingFlags : BitVec 64

/-- A call of `map`, with `Present` among the flags and pages for the tables it needs. -/
def MapStep (pml4 : ℕ) (s : Machine) (c : MapCall) (t : Machine) : Prop :=
  hasFlag c.mappingFlags .present = true ∧ c.physicalAddress < 2 ^ 52 ∧
    s.MapSupplied pml4 c.virtualAddress c.mappingFlags ∧
    t = s.map pml4 c.virtualAddress c.physicalAddress c.mappingFlags

/-- A sequence of such calls. -/
abbrev MapRun (pml4 : ℕ) : Machine → List MapCall → Machine → Prop := Run (MapStep pml4)

/-- The last call for the page of `w`. -/
def lastCall (calls : List MapCall) (w : ℕ) : Option MapCall :=
  calls.reverse.find? fun c => decide (pageNumber w = pageNumber c.virtualAddress)

theorem lastCall_concat (calls : List MapCall) (c : MapCall) (w : ℕ) :
    lastCall (calls ++ [c]) w =
      if pageNumber w = pageNumber c.virtualAddress then some c else lastCall calls w :=
  LastWrite.last_concat calls c

/-- What a page translates to after some calls: the frame of the last call for it, or else what it
translated to before. -/
def frameAfter (calls : List MapCall) (before : Option ℕ) (w : ℕ) : Option ℕ :=
  match lastCall calls w with
  | some c => some (c.physicalAddress / pageSize)
  | none => before

/-- **After any sequence of calls of `map`** the page map is well formed, and every address
translates as the last call for its page says. -/
theorem MapRun.translate_eq {pml4 : ℕ} {s t : Machine} {calls : List MapCall} (h0 : pml4 ≠ 0)
    (hwf : WellFormed s.ram pml4) (hfresh : s.FreshFrames pml4) (h : MapRun pml4 s calls t) :
    Machine.Extends pml4 s t ∧
      ∀ w, translate t.ram pml4 w = frameAfter calls (translate s.ram pml4 w) w := by
  refine h.trace_invariant (I := fun cs t => Machine.Extends pml4 s t ∧
    ∀ w, translate t.ram pml4 w = frameAfter cs (translate s.ram pml4 w) w)
    ⟨.refl hwf hfresh, fun _ => rfl⟩ ?_
  rintro cs u c _ ⟨hext, ih⟩ ⟨hmf, hp, hsup, rfl⟩
  obtain ⟨hext', htr, -⟩ := Machine.map_spec h0 hext.wellFormed hext.freshFrames hsup hmf hp
  refine ⟨hext.trans hext', fun w => ?_⟩
  rw [htr, ih, frameAfter, frameAfter, lastCall_concat]
  split_ifs <;> rfl

/-- **`map` sets one page and keeps all others.**  One call of `map` on a well-formed page map makes
the walk of `v` end in the frame of `p`, keeps the walk of every address with other bits 12 to 47,
and leaves a well-formed page map; so after any sequence of calls every address translates to the
frame of the last call for its page. -/
theorem map_functional {s : Machine} {pml4 : ℕ} (h0 : pml4 ≠ 0) (hwf : WellFormed s.ram pml4)
    (hfresh : s.FreshFrames pml4) :
    (∀ v p mf, hasFlag mf .present = true → p < 2 ^ 52 → s.MapSupplied pml4 v mf →
      WellFormed (s.map pml4 v p mf).ram pml4 ∧
      translate (s.map pml4 v p mf).ram pml4 v = some (p / pageSize) ∧
      ∀ w, pageNumber w ≠ pageNumber v →
        translate (s.map pml4 v p mf).ram pml4 w = translate s.ram pml4 w) ∧
    ∀ calls t, MapRun pml4 s calls t →
      WellFormed t.ram pml4 ∧ ∀ w, translate t.ram pml4 w = match lastCall calls w with
        | some c => some (c.physicalAddress / pageSize)
        | none => translate s.ram pml4 w := by
  refine ⟨fun v p mf hmf hp hsup => ?_, fun calls t hrun => ?_⟩
  · obtain ⟨hext, htr, -⟩ := Machine.map_spec h0 hwf hfresh hsup hmf hp
    refine ⟨hext.wellFormed, ?_, fun w hw => ?_⟩
    · rw [htr, if_pos rfl]
    · rw [htr, if_neg hw]
  · obtain ⟨hext, htr⟩ := hrun.translate_eq h0 hwf hfresh
    exact ⟨hext.wellFormed, htr⟩

/-! ### A machine with empty memory -/

/-- A machine of zeroed memory whose free pages are those from `first` up to `pages`.  Page 1 is
taken by an empty page map, which is active. -/
def Machine.empty (first pages : ℕ) : Machine where
  pmm :=
    { pageMap := { size := pages / 8 + 1, buffer := 0, bytes := fun _ => 0#8 }
      totalPages := pages
      totalFreePages := pages - first
      totalUsedPages := first
      maxFreePagesInARow := pages - first
      firstFreePage := first
      handedOut := [] }
  ram := fun _ => PageTable.zero
  activePageMap := pageSize
  cr3 := pageSize

namespace Machine

theorem free_empty {first pages j : ℕ} :
    (empty first pages).pmm.Free j ↔ first ≤ j ∧ j < pages := by
  have hget : (empty first pages).pmm.pageMap.get j = false := by simp [Bitmap.get_eq, empty]
  simp only [PhysicalMemoryManager.Free, hget, and_true]
  exact Iff.rfl

theorem wellFormed_empty (first pages pml4 : ℕ) : WellFormed (empty first pages).ram pml4 :=
  unshared_of_empty 3 fun _ => PageDirectoryEntry.next_zero

theorem freshFrames_empty {first pages pml4 : ℕ} (h : pages ≤ 2 ^ 40)
    (hpml4 : frameOf pml4 < first) : (empty first pages).FreshFrames pml4 where
  fits := h
  fresh := by
    intro f hf ht
    have h2 := (free_empty.1 hf).1
    have h1 : f = frameOf pml4 := isTable_of_empty (fun _ => PageDirectoryEntry.next_zero) ht
    omega

theorem supply_empty {first pages k : ℕ} (h : first + k ≤ pages) : (empty first pages).Supply k :=
  ⟨first, fun j _ _ => free_empty.2 ⟨by omega, by omega⟩⟩

end Machine

theorem map_functional_two_calls :
    translate ((Machine.empty 2 10).map pageSize 0x5000 0x8000 Machine.presentWrite).ram pageSize
      0x5000 =
        some 8 ∧
      ∃ t, MapRun pageSize (Machine.empty 2 10)
        [⟨0x5000, 0x8000, Machine.presentWrite⟩, ⟨0x5000, 0x9000, Machine.presentWrite⟩] t ∧
        translate t.ram pageSize 0x5fff = some 9 := by
  have hsup : (Machine.empty 2 10).Supply 6 := Machine.supply_empty (by decide)
  have hlt : 0x8000 < 2 ^ 52 ∧ 0x9000 < 2 ^ 52 := by decide
  have hflag : hasFlag Machine.presentWrite .present = true := by decide
  have hfun := map_functional (s := Machine.empty 2 10) (by decide : pageSize ≠ 0)
    (Machine.wellFormed_empty 2 10 pageSize) (Machine.freshFrames_empty (by decide) (by decide))
  have h1 := (hsup.mono (by decide : 3 ≤ 6)).mapSupplied (by decide) pageSize 0x5000
    Machine.presentWrite
  have h2 := (hsup.map (by decide) pageSize 0x5000 0x8000 Machine.presentWrite).mapSupplied
    (by simp; decide) pageSize 0x5000 Machine.presentWrite
  have step1 : MapStep pageSize (Machine.empty 2 10) ⟨0x5000, 0x8000, Machine.presentWrite⟩
      ((Machine.empty 2 10).map pageSize 0x5000 0x8000 Machine.presentWrite) :=
    ⟨hflag, hlt.1, h1, rfl⟩
  have step2 : MapStep pageSize _ ⟨0x5000, 0x9000, Machine.presentWrite⟩ _ :=
    ⟨hflag, hlt.2, h2, rfl⟩
  have hrun := (Run.single step1).snoc step2
  exact ⟨(hfun.1 0x5000 0x8000 Machine.presentWrite hflag hlt.1 h1).2.1, _, hrun,
    (hfun.2 _ _ hrun).2 0x5fff⟩

end Eterna
