import Eterna.Memory.Rights

/-!
# The leaf entry of a page

`map` and `unmap` both end with a store to the entry of the page in a table of the lowest level.

* `Machine.descend_entry` : the entry that `map` finds there is the one from before the call, or an
  empty one;
* `leaf_flags_iff` : exactly when the entry that `map` stores has the flags that it was given;
* `unmap_iff` : exactly when `unmap` removes the mapping of the page and changes nothing else.

`unmap` follows the address bits of the entries above whether they are present or not; `trail` is
the frame in which that ends.
-/

namespace Eterna

open TableWalk
open PageDirectoryEntry (next)

variable {ram : PhysicalMemory} {s : Machine} {pml4 v w p d f g table : ℕ} {mf : BitVec 64}
  {i j : Fin 512} {is : List (Fin 512)}

/-- The frame that the address bits of the entries along the indices lead to. -/
def trail (ram : PhysicalMemory) : ℕ → List (Fin 512) → ℕ
  | f, [] => f
  | f, i :: is => trail ram (ram f i).address is

theorem trail_of_follow (h : follow next ram f is = some g) : trail ram f is = g := by
  induction is generalizing f with
  | nil => exact Option.some.inj h
  | cons i is ih =>
    rw [follow_cons] at h
    obtain ⟨k, hk, hg⟩ := Option.bind_eq_some_iff.1 h
    have hp : (ram f i).flag .present = true := by
      by_contra habs
      rw [PageDirectoryEntry.next_of_absent (by simpa using habs)] at hk
      cases hk
    rw [PageDirectoryEntry.next_of_present hp] at hk
    rw [trail, Option.some.inj hk]
    exact ih hg

/-- The entry of the page of `v` in the table that the address bits lead to. -/
def leafEntry (ram : PhysicalMemory) (pml4 v : ℕ) : PageDirectoryEntry :=
  ram (trail ram (frameOf pml4) (PageMapIndexer.ofAddress v).tables)
    (PageMapIndexer.ofAddress v).page

/-- The entry of the page of `v`, which is empty as long as one of the tables above is missing. -/
def leafBefore (ram : PhysicalMemory) (pml4 v : ℕ) : PageDirectoryEntry :=
  (follow next ram (frameOf pml4) (PageMapIndexer.ofAddress v).tables).elim {}
    (ram · (PageMapIndexer.ofAddress v).page)

/-! ### The entry that `map` stores -/

namespace Machine

/-- The steps of `map` down to the table of the lowest level. -/
def descend (mf : BitVec 64) : Machine → ℕ → List (Fin 512) → Machine × ℕ
  | s, table, [] => (s, table)
  | s, table, i :: is => descend mf (s.nextTable table i mf).1 (s.nextTable table i mf).2 is

theorem mapFrom_eq_store : mapFrom mf p s table (is ++ [j]) =
    (s.descend mf table is).1.store (s.descend mf table is).2 j
      ((((s.descend mf table is).1.ram (frameOf (s.descend mf table is).2) j).setAddress
        (p >>> 12)).setFlags mf) := by
  induction is generalizing s table with
  | nil => rfl
  | cons i is ih =>
    rw [List.cons_append, mapFrom_cons (by simp)]
    exact ih

/-- The entry of the lowest level that `map` finds. -/
def leafFound (s : Machine) (pml4 v : ℕ) (mf : BitVec 64) : PageDirectoryEntry :=
  let r := s.descend mf pml4 (PageMapIndexer.ofAddress v).tables
  r.1.ram (frameOf r.2) (PageMapIndexer.ofAddress v).page

/-- That entry after the call. -/
def leafStored (s : Machine) (pml4 v p : ℕ) (mf : BitVec 64) : PageDirectoryEntry :=
  (s.map pml4 v p mf).ram (frameOf (s.descend mf pml4 (PageMapIndexer.ofAddress v).tables).2)
    (PageMapIndexer.ofAddress v).page

theorem leafStored_eq (h0 : pml4 ≠ 0) : s.leafStored pml4 v p mf =
    ((s.leafFound pml4 v mf).setAddress (p >>> 12)).setFlags mf := by
  rw [leafStored, s.map_eq_mapFrom h0, pathOf, PageMapIndexer.path, mapFrom_eq_store]
  exact write_self _ _ _ _

/-- **The entry that `map` finds** is the one from before the call. -/
theorem descend_entry (hown : s.OwnTables d (frameOf table)) (hlen : is.length ≤ d)
    (hsup : s.PathSupplied mf table (is ++ [j])) :
    (s.descend mf table is).1.ram (frameOf (s.descend mf table is).2) j =
      (follow next s.ram (frameOf table) is).elim {} (s.ram · j) := by
  induction is generalizing s d table with
  | nil => rfl
  | cons i is ih =>
    obtain ⟨d, rfl⟩ : ∃ e, d = e + 1 := ⟨d - 1, by simp only [List.length_cons] at hlen; omega⟩
    have hlen : is.length ≤ d := by simpa using hlen
    rw [List.cons_append] at hsup
    obtain ⟨hnext, hrest⟩ := (pathSupplied_cons (by simp)).1 hsup
    have hspec := nextTable_own mf hown hnext
    rw [descend, ih hspec.own hlen hrest, follow_cons]
    obtain hchild | ⟨hnone, hzero⟩ := hspec.child
    · -- the tables below the entry are as they were
      have hagree := hspec.agree hown hchild
      rw [hchild, Option.bind_some, follow_eq_of_agree hagree (by omega)]
      cases hfollow : follow next s.ram (frameOf (s.nextTable table i mf).2) is with
      | none => rfl
      | some g => exact congrFun (hagree g ⟨is, hlen, hfollow⟩) j
    · -- the table below the entry is new
      rw [hnone, Option.bind_none]
      cases hfollow : follow next (s.nextTable table i mf).1.ram
          (frameOf (s.nextTable table i mf).2) is with
      | none => rfl
      | some g =>
        have hempty : ∀ k, next ((s.nextTable table i mf).1.ram
            (frameOf (s.nextTable table i mf).2) k) = none := fun k => by
          rw [hzero]
          exact PageDirectoryEntry.next_zero
        rw [(eq_nil_of_empty hempty hfollow).2]
        exact congrFun hzero j

theorem trail_mapFrom (hown : s.OwnTables d (frameOf table)) (hlen : is.length ≤ d)
    (hsup : s.PathSupplied mf table (is ++ [j])) :
    trail (mapFrom mf p s table (is ++ [j])).ram (frameOf table) is =
      frameOf (s.descend mf table is).2 := by
  induction is generalizing s d table with
  | nil => rfl
  | cons i is ih =>
    obtain ⟨d, rfl⟩ : ∃ e, d = e + 1 := ⟨d - 1, by simp only [List.length_cons] at hlen; omega⟩
    have hlen : is.length ≤ d := by simpa using hlen
    rw [List.cons_append] at hsup
    obtain ⟨hnext, hrest⟩ := (pathSupplied_cons (by simp)).1 hsup
    have hspec := nextTable_own mf hown hnext
    rw [List.cons_append, mapFrom_cons (by simp), trail,
      mapFrom_elsewhere hspec.own (by simpa using hlen) hrest _ (hspec.root_not_below hown)
        fun hf => hown.root (hspec.free _ hf), hspec.address]
    exact ih hspec.own hlen hrest

end Machine

theorem PageDirectoryEntry.flags_stored_iff {e : PageDirectoryEntry} :
    (∀ f, ((e.setAddress p).setFlags mf).flag f = hasFlag mf f) ↔
      hasFlag mf .global = hasFlag mf .nx ∧ e.flag .nx = hasFlag mf .nx := by
  constructor
  · intro hflags
    have hglobal := hflags .global
    have hnx := hflags .nx
    rw [flag_setFlags] at hglobal hnx
    exact ⟨hglobal.symm, by simpa using hnx⟩
  · rintro ⟨hglobal, hnx⟩ f
    rw [flag_setFlags]
    cases f with
    | global => exact hglobal.symm
    | nx => simpa using hnx
    | _ => rfl

/-- **Which flags `map` leaves in the leaf entry.**  They are those of `mappingFlags` exactly if its
`Global` bit and the `NX` bit of the entry before the call are both equal to its `NX` bit.  In a
well-formed page map for which there are pages, this is the entry of the page of `v`. -/
theorem leaf_flags_iff (h0 : pml4 ≠ 0) :
    ((∀ f, (s.leafStored pml4 v p mf).flag f = hasFlag mf f) ↔
      hasFlag mf .global = hasFlag mf .nx ∧ (s.leafFound pml4 v mf).flag .nx = hasFlag mf .nx) ∧
    (WellFormed s.ram pml4 → s.FreshFrames pml4 → s.MapSupplied pml4 v mf →
      ((∀ f, (leafEntry (s.map pml4 v p mf).ram pml4 v).flag f = hasFlag mf f) ↔
        hasFlag mf .global = hasFlag mf .nx ∧
          (leafBefore s.ram pml4 v).flag .nx = hasFlag mf .nx)) := by
  refine ⟨?_, fun hwf hfresh hsup => ?_⟩
  · rw [Machine.leafStored_eq h0]
    exact PageDirectoryEntry.flags_stored_iff
  · have hown := hfresh.ownTables hwf
    have hpath := Machine.pathSupplied_iff.2 hsup
    have hstored : leafEntry (s.map pml4 v p mf).ram pml4 v = s.leafStored pml4 v p mf := by
      rw [leafEntry, Machine.leafStored, s.map_eq_mapFrom h0, pathOf, PageMapIndexer.path,
        Machine.trail_mapFrom hown (le_refl 3) hpath]
    have hfound : s.leafFound pml4 v mf = leafBefore s.ram pml4 v :=
      Machine.descend_entry hown (le_refl 3) hpath
    rw [hstored, Machine.leafStored_eq h0, ← hfound]
    exact PageDirectoryEntry.flags_stored_iff

theorem leaf_flags_iff_first_page :
    (leafEntry ((Machine.empty 2 10).map pageSize 0x5000 0x8000 Machine.presentWrite).ram
        pageSize 0x5000).flag .present = true ∧
      (leafEntry ((Machine.empty 2 10).map pageSize 0x5000 0x8000 Machine.presentWrite).ram
        pageSize 0x5000).flag .nx = false := by
  have hiff := (@leaf_flags_iff (Machine.empty 2 10) pageSize 0x5000 0x8000 Machine.presentWrite
    (by decide)).2 (Machine.wellFormed_empty 2 10 pageSize)
    (Machine.freshFrames_empty (by decide) (by decide))
    ((Machine.supply_empty (by decide)).mapSupplied (by decide) _ _ _)
  have hflags := hiff.2 ⟨by decide, by decide⟩
  exact ⟨hflags .present, hflags .nx⟩

/-- With the flags of the heap, `Global` is not set. -/
theorem global_not_stored : ¬ ∀ (s : Machine) (pml4 v p : ℕ) (mf : BitVec 64), pml4 ≠ 0 →
    WellFormed s.ram pml4 → s.FreshFrames pml4 → s.MapSupplied pml4 v mf →
    ∀ f, (leafEntry (s.map pml4 v p mf).ram pml4 v).flag f = hasFlag mf f := by
  intro hclaim
  have hglobal := hclaim (Machine.empty 2 10) pageSize 0x5000 0x8000 Machine.presentWriteGlobal
    (by decide) (Machine.wellFormed_empty 2 10 pageSize)
    (Machine.freshFrames_empty (by decide) (by decide))
    ((Machine.supply_empty (by decide)).mapSupplied (by decide) _ _ _) .global
  revert hglobal
  decide +kernel

/-! ### The entry that `unmap` clears -/

/-- `unmap` removes the mapping of the page of `v`, keeps those of all other pages, and changes no
entry but that of the page of `v`. -/
structure UnmapsOnly (ram ram' : PhysicalMemory) (pml4 v : ℕ) : Prop where
  absent : walk ram' pml4 v = none
  others : ∀ w, pageNumber w ≠ pageNumber v → walk ram' pml4 w = walk ram pml4 w
  elsewhere : ∀ g j, ram' g j ≠ ram g j →
    follow next ram (frameOf pml4) (PageMapIndexer.ofAddress v).tables = some g ∧
      j = (PageMapIndexer.ofAddress v).page

theorem unmap_ram (s : Machine) (pml4 v : ℕ) : (s.unmap pml4 v).ram =
    write s.ram (trail s.ram (frameOf pml4) (PageMapIndexer.ofAddress v).tables)
      (PageMapIndexer.ofAddress v).page ((leafEntry s.ram pml4 v).setFlag .present false) := by
  simp only [Machine.unmap, Machine.store, frameOf_shiftLeft]
  rfl

theorem PageDirectoryEntry.setFlag_of_flag {e : PageDirectoryEntry} {f : PageTableFlag} {b : Bool}
    (h : e.flag f = b) : e.setFlag f b = e := by
  have hvalue : (e.setFlag f b).value = e.value := by
    refine BitVec.eq_of_getLsbD_eq fun k _ => ?_
    rw [getLsbD_setFlag]
    split_ifs with hk
    · rw [hk, ← flag_eq, h]
    · rfl
  cases e
  exact congrArg PageDirectoryEntry.mk hvalue

theorem unmap_of_tables (hwf : WellFormed s.ram pml4)
    (ht : follow next s.ram (frameOf pml4) (PageMapIndexer.ofAddress v).tables = some g) :
    UnmapsOnly s.ram (s.unmap pml4 v).ram pml4 v := by
  rw [unmap_ram, leafEntry, trail_of_follow ht]
  -- the tables stay
  have htables : ∀ w, follow next (write s.ram g (PageMapIndexer.ofAddress v).page
      ((s.ram g (PageMapIndexer.ofAddress v).page).setFlag .present false)) (frameOf pml4)
      (PageMapIndexer.ofAddress w).tables =
      follow next s.ram (frameOf pml4) (PageMapIndexer.ofAddress w).tables := by
    intro w
    have hlen : (PageMapIndexer.ofAddress w).tables.length = 3 := rfl
    refine (follow_write hwf ht rfl (by omega)).trans (if_neg fun h => ?_)
    have hlen' := congrArg List.length h
    simp [PageMapIndexer.tables] at hlen'
  refine ⟨?_, fun w hw => ?_, fun k j hkj => ?_⟩
  · rw [walk, htables, ht, Option.bind_some, write_self]
    exact if_neg (by simp [PageDirectoryEntry.flag_setFlag])
  · rw [walk, walk, htables]
    cases hk : follow next s.ram (frameOf pml4) (PageMapIndexer.ofAddress w).tables with
    | none => rfl
    | some k =>
      rw [Option.bind_some, Option.bind_some, write_of_ne]
      rintro ⟨rfl, hpage⟩
      have hsame : (PageMapIndexer.ofAddress w).tables = (PageMapIndexer.ofAddress v).tables :=
        hwf _ _ k (le_refl 3) (le_refl 3) hk ht
      refine hw (pathOf_eq_iff.1 ?_)
      rw [pathOf, pathOf, PageMapIndexer.path, PageMapIndexer.path, hsame, hpage]
  · by_contra hne
    refine hkj (write_of_ne _ _ ?_)
    rintro ⟨rfl, rfl⟩
    exact hne ⟨ht, rfl⟩

/-- **`unmap` removes the mapping of the page and changes nothing else exactly if** the entries
above are all present, or the entry that their address bits lead to is not. -/
theorem unmap_iff (hwf : WellFormed s.ram pml4) :
    UnmapsOnly s.ram (s.unmap pml4 v).ram pml4 v ↔
      (follow next s.ram (frameOf pml4) (PageMapIndexer.ofAddress v).tables).isSome ∨
        (leafEntry s.ram pml4 v).flag .present = false := by
  constructor
  · intro hunmap
    by_contra hcond
    obtain ⟨hnone, hpresent⟩ := not_or.1 hcond
    have hchanged : (s.unmap pml4 v).ram
        (trail s.ram (frameOf pml4) (PageMapIndexer.ofAddress v).tables)
        (PageMapIndexer.ofAddress v).page ≠ leafEntry s.ram pml4 v := by
      rw [unmap_ram, write_self]
      intro hsame
      have hflag := congrArg (·.flag .present) hsame
      rw [PageDirectoryEntry.flag_setFlag, if_pos rfl] at hflag
      exact hpresent hflag.symm
    rw [(hunmap.elsewhere _ _ hchanged).1] at hnone
    exact hnone rfl
  · intro hcond
    cases ht : follow next s.ram (frameOf pml4) (PageMapIndexer.ofAddress v).tables with
    | some g => exact unmap_of_tables hwf ht
    | none =>
      -- what is stored is what was there
      rw [ht] at hcond
      have hflag := hcond.resolve_left Bool.false_ne_true
      have hram : (s.unmap pml4 v).ram = s.ram := by
        rw [unmap_ram, PageDirectoryEntry.setFlag_of_flag hflag]
        funext g j
        by_cases hgj : g = trail s.ram (frameOf pml4) (PageMapIndexer.ofAddress v).tables ∧
            j = (PageMapIndexer.ofAddress v).page
        · obtain ⟨rfl, rfl⟩ := hgj
          exact write_self _ _ _ _
        · exact write_of_ne _ _ hgj
      rw [hram]
      exact ⟨by rw [walk, ht]; rfl, fun _ _ => rfl, fun g j hgj => absurd rfl hgj⟩

/-- The page, and one whose page directory is missing. -/
theorem unmap_iff_onePage :
    UnmapsOnly Machine.onePage.ram (Machine.onePage.unmap pageSize 0x5000).ram pageSize 0x5000 ∧
    UnmapsOnly Machine.onePage.ram (Machine.onePage.unmap pageSize 0x40000000).ram
      pageSize 0x40000000 := by
  constructor
  · exact (unmap_iff Machine.extends_onePage.wellFormed).2 (.inl (by decide +kernel))
  · exact (unmap_iff Machine.extends_onePage.wellFormed).2 (.inr (by decide +kernel))

/-- An empty page map in frame 1, and a page 0 whose entry 5 has bit 0 set. -/
def Machine.strayBit : Machine :=
  { Machine.empty 2 10 with ram := write (Machine.empty 2 10).ram 0 ⟨5, by decide⟩ ⟨1#64⟩ }

theorem Machine.wellFormed_strayBit : WellFormed Machine.strayBit.ram pageSize := by
  refine unshared_of_empty 3 fun i => ?_
  have hentry : Machine.strayBit.ram 1 i = {} := by
    simp [Machine.strayBit, Machine.empty, write, PageTable.zero]
  exact (congrArg next hentry).trans PageDirectoryEntry.next_zero

/-- For a page that is not mapped, `unmap` clears a bit of page 0. -/
theorem unmapped_page_written : ¬ ∀ (s : Machine) (pml4 v : ℕ), WellFormed s.ram pml4 →
    UnmapsOnly s.ram (s.unmap pml4 v).ram pml4 v := by
  intro hclaim
  have helsewhere := (hclaim _ pageSize 0x5000 Machine.wellFormed_strayBit).elsewhere 0 5
    (by decide +kernel)
  revert helsewhere
  decide +kernel

end Eterna
