import Eterna.Memory.CloneFailure
import Eterna.Memory.CloneTables
import Eterna.Memory.HeapPages
import Eterna.Memory.LeafEntry
import Mathlib.Logic.Function.Basic

/-!
# Address spaces

Several page maps live in one physical memory: the one `init_virtual` sets up and the clones made
for processes.  `map` and `unmap` may work on any of them, in any order, between calls of the page
allocator and stores to other pages.

* `AddressSpaces` : the abstract model, a frame for each page of each address space;
* `SystemStep` : what the kernel does, on the machine;
* `PagedSystem.Refines.step` : one step keeps the page maps apart and does on the machine what it
  does in the model;
* `address_spaces_refine` : so every run is a run of the model.
-/

namespace Eterna

open TableWalk Runs PhysicalMemoryManager
open PageDirectoryEntry (next)

/-! ### The abstract model -/

/-- A step of the kernel that concerns page maps, or might. -/
inductive VmmCall where
  | map (pageMap virtualAddress physicalAddress : ℕ) (mappingFlags : BitVec 64)
  | unmap (pageMap virtualAddress : ℕ)
  /-- `clone_active_page_map()` returned `newPageTable`. -/
  | clone (newPageTable : ℕ)
  | flush (pageMap : ℕ)
  | pmm (c : PmmCall)
  /-- A page that is no table is filled with other contents. -/
  | storePage (frame : ℕ) (contents : PageTable)

/-- The address spaces: the frame behind each page of each page map, and the active page map.  Page
maps are named by their frames, pages by bits 12 to 47 of their addresses. -/
structure AddressSpaces where
  /-- The frame behind a page of a page map. -/
  frame : ℕ → ℕ → Option ℕ
  /-- The active page map. -/
  active : ℕ

namespace AddressSpaces

/-- Put a frame, or none, behind the page of an address. -/
def set (a : AddressSpaces) (pageMap v : ℕ) (f : Option ℕ) : AddressSpaces :=
  ⟨Function.update a.frame pageMap (Function.update (a.frame pageMap) (pageNumber v) f), a.active⟩

/-- What a step means. -/
def apply (a : AddressSpaces) : VmmCall → AddressSpaces
  | .map m v p _ => a.set (frameOf m) v (some (p / pageSize))
  | .unmap m v => a.set (frameOf m) v none
  | .clone m =>
    if m = 0 then a else ⟨Function.update a.frame (frameOf m) (a.frame a.active), a.active⟩
  | .flush m => { a with active := frameOf m }
  | .pmm _ => a
  | .storePage _ _ => a

theorem frame_set (a : AddressSpaces) (r r' v w : ℕ) (f : Option ℕ) :
    (a.set r v f).frame r' (pageNumber w) =
      if r' = r ∧ pageNumber w = pageNumber v then f else a.frame r' (pageNumber w) := by
  unfold set
  by_cases hr : r' = r
  · subst hr
    simp only [Function.update_self, Function.update_apply, true_and]
  · simp only [Function.update_of_ne hr, hr, false_and, ↓reduceIte]

end AddressSpaces

/-! ### The machine -/

/-- The machine, and the frames of the page maps that are in use. -/
structure PagedSystem where
  /-- The machine. -/
  machine : Machine
  /-- The frames of the page maps. -/
  pageMaps : Set ℕ

/-- `f` is a table of one of the page maps. -/
def PagedSystem.Table (s : PagedSystem) (f : ℕ) : Prop :=
  ∃ r ∈ s.pageMaps, IsTable next s.machine.ram 3 r f

/-- **One step**: `map` is called with `Present` and pages for the tables it needs, `unmap` for a
page whose tables are there, the pages that are freed or stored to are no tables, and the copies of
a clone keep no pointer from before. -/
def SystemStep (s : PagedSystem) (c : VmmCall) (t : PagedSystem) : Prop :=
  match c with
  | .map m v p mf => frameOf m ∈ s.pageMaps ∧ m ≠ 0 ∧ hasFlag mf .present = true ∧ p < 2 ^ 52 ∧
      s.machine.MapSupplied m v mf ∧ t = { s with machine := s.machine.map m v p mf }
  | .unmap m v => frameOf m ∈ s.pageMaps ∧
      (follow next s.machine.ram (frameOf m) (PageMapIndexer.ofAddress v).tables).isSome ∧
      t = { s with machine := s.machine.unmap m v }
  | .clone m => m = s.machine.cloneActivePageMap.2 ∧ (m ≠ 0 → s.machine.CloneCovered) ∧
      t = ⟨s.machine.cloneActivePageMap.1,
        if m = 0 then s.pageMaps else insert (frameOf m) s.pageMaps⟩
  | .flush m => frameOf m ∈ s.pageMaps ∧ t = { s with machine := s.machine.flushPageMap m }
  | .pmm c => (∀ f ∈ c.freed, ¬ s.Table f) ∧
      t = { s with machine := { s.machine with pmm := s.machine.pmm.call c } }
  | .storePage f contents => ¬ s.Table f ∧
      t = { s with machine := { s.machine with ram := fill s.machine.ram f contents } }

/-- **The machine and the model agree**: the page maps are well formed and have no table in common,
none of their tables is a free page, and every walk ends in the frame of the model. -/
structure PagedSystem.Refines (s : PagedSystem) (a : AddressSpaces) : Prop where
  forest : Forest next s.machine.ram 3 s.pageMaps s.machine.pmm.Free
  fits : s.machine.pmm.Fits
  small : s.machine.pmm.totalPages ≤ 2 ^ 40
  active : frameOf s.machine.readActivePageMap.2 = a.active
  active_mem : a.active ∈ s.pageMaps
  frame_eq : ∀ m, frameOf m ∈ s.pageMaps → ∀ v,
    translate s.machine.ram m v = a.frame (frameOf m) (pageNumber v)

namespace PagedSystem

variable {s t : PagedSystem} {a : AddressSpaces} {m v : ℕ}

theorem Refines.freshFrames (h : s.Refines a) (hm : frameOf m ∈ s.pageMaps) :
    s.machine.FreshFrames m :=
  ⟨h.small, fun f hf htable => h.forest.used _ hm f htable hf⟩

theorem translate_of_agree {M M' : PhysicalMemory}
    (h : ∀ f, IsTable next M 3 (frameOf m) f → M' f = M f) (v : ℕ) :
    translate M' m v = translate M m v := by
  rw [translate_eq_follow, translate_eq_follow]
  exact follow_eq_of_agree h (Nat.le_refl 4)

/-- Changes outside all tables. -/
theorem Refines.of_agree (h : s.Refines a) {u : Machine}
    (hram : ∀ f, s.Table f → u.ram f = s.machine.ram f)
    (hfree : ∀ f, s.Table f → ¬ u.pmm.Free f) (hfits : u.pmm.Fits)
    (hsmall : u.pmm.totalPages ≤ 2 ^ 40)
    (hactive : u.readActivePageMap.2 = s.machine.readActivePageMap.2) :
    Refines { s with machine := u } a where
  forest := h.forest.of_agree (fun r hr f hf => hram f ⟨r, hr, hf⟩)
    fun r hr f hf => hfree f ⟨r, hr, hf⟩
  fits := hfits
  small := hsmall
  active := by rw [hactive, h.active]
  active_mem := h.active_mem
  frame_eq m hm v := by
    rw [translate_of_agree fun f hf => hram f ⟨_, hm, hf⟩, h.frame_eq m hm v]

/-- **Work on one page map** that changes the frame behind one page. -/
theorem Refines.work (h : s.Refines a) (hm : frameOf m ∈ s.pageMaps) {u : Machine} {f : Option ℕ}
    (hext : Machine.Extends m s.machine u) (hfits : u.pmm.Fits)
    (hactive : u.readActivePageMap.2 = s.machine.readActivePageMap.2)
    (htr : ∀ w, translate u.ram m w =
      if pageNumber w = pageNumber v then f else translate s.machine.ram m w) :
    Refines { s with machine := u } (a.set (frameOf m) v f) := by
  obtain ⟨hforest, hagree⟩ := h.forest.work hm
    ⟨hext.wellFormed, fun g hg hgf => hext.freshFrames.fresh g hgf hg, hext.tables,
      hext.elsewhere, hext.free⟩
  refine ⟨hforest, hfits, hext.freshFrames.fits, by rw [hactive, h.active]; rfl, h.active_mem,
    fun m' hm' w => ?_⟩
  rw [AddressSpaces.frame_set]
  by_cases hsame : frameOf m' = frameOf m
  · have hname : translate u.ram m' w = translate u.ram m w := by
      rw [translate_eq_follow, translate_eq_follow, hsame]
    rw [hname, htr, ← h.frame_eq m' hm', translate_eq_follow _ m', hsame, ← translate_eq_follow]
    simp only [true_and]
  · rw [if_neg fun hboth => hsame hboth.1, ← h.frame_eq m' hm' w]
    exact translate_of_agree (hagree _ hm' hsame) w

/-! ### The steps -/

theorem map_registers (u : Machine) (m v p : ℕ) (mf : BitVec 64) :
    (u.map m v p mf).readActivePageMap.2 = u.readActivePageMap.2 := by
  have hlevel : ∀ (u : Machine) table i, (u.nextTable table i mf).1.activePageMap =
      u.activePageMap ∧ (u.nextTable table i mf).1.cr3 = u.cr3 := by
    intro u table i
    unfold Machine.nextTable
    dsimp only
    split_ifs <;> exact ⟨rfl, rfl⟩
  have hmap : (u.map m v p mf).activePageMap = u.activePageMap ∧
      (u.map m v p mf).cr3 = u.cr3 := by
    unfold Machine.map
    split_ifs
    · exact ⟨rfl, rfl⟩
    · simp only [Machine.store, hlevel, and_self]
  exact Machine.readActivePageMap_congr hmap.1 hmap.2

theorem Refines.map (h : s.Refines a) {p : ℕ} {mf : BitVec 64} (hm : frameOf m ∈ s.pageMaps)
    (h0 : m ≠ 0) (hmf : hasFlag mf .present = true) (hp : p < 2 ^ 52)
    (hsup : s.machine.MapSupplied m v mf) :
    Refines { s with machine := s.machine.map m v p mf }
      (a.set (frameOf m) v (some (p / pageSize))) := by
  obtain ⟨hext, htr, -, -⟩ :=
    Machine.map_spec h0 (h.forest.unshared _ hm) (h.freshFrames hm) hsup hmf hp
  exact h.work hm hext (Machine.map_draws h.fits m v p mf).fits (map_registers _ m v p mf) htr

theorem Refines.unmap (h : s.Refines a) (hm : frameOf m ∈ s.pageMaps)
    (htables : (follow next s.machine.ram (frameOf m)
      (PageMapIndexer.ofAddress v).tables).isSome) :
    Refines { s with machine := s.machine.unmap m v } (a.set (frameOf m) v none) := by
  obtain ⟨g, hg⟩ := Option.isSome_iff_exists.1 htables
  have hwf : WellFormed s.machine.ram m := h.forest.unshared _ hm
  have honly := unmap_of_tables hwf hg
  -- what is stored is the entry of the page in its lowest table
  have hstore : s.machine.unmap m v = s.machine.store (g <<< 12) (PageMapIndexer.ofAddress v).page
      ((s.machine.ram g (PageMapIndexer.ofAddress v).page).setFlag .present false) := by
    have hram := unmap_ram s.machine m v
    rw [leafEntry, trail_of_follow hg] at hram
    have hparts : s.machine.unmap m v = { s.machine with ram := (s.machine.unmap m v).ram } := rfl
    rw [hparts, hram]
    simp only [Machine.store, frameOf_shiftLeft]
  have hext : Machine.Extends m s.machine (s.machine.unmap m v) := by
    rw [hstore]
    exact Machine.extends_store_last _ _ hwf (h.freshFrames hm)
      (by rw [frameOf_shiftLeft]; exact hg) rfl
  refine h.work hm hext h.fits (Machine.readActivePageMap_congr rfl rfl) fun w => ?_
  split_ifs with hw
  · rw [translate_congr_page _ _ hw, translate, honly.absent]
    rfl
  · rw [translate, honly.others w hw]
    rfl

theorem Refines.flush (h : s.Refines a) (hm : frameOf m ∈ s.pageMaps) :
    Refines { s with machine := s.machine.flushPageMap m } { a with active := frameOf m } := by
  refine ⟨h.forest, h.fits, h.small, ?_, hm, h.frame_eq⟩
  unfold Machine.readActivePageMap Machine.flushPageMap
  split_ifs <;> rfl

/-- A clone is a further address space, in which every page has the frame it has in the active
one. -/
theorem Refines.clone (h : s.Refines a) (hok : s.machine.cloneActivePageMap.2 ≠ 0)
    (hcov : s.machine.CloneCovered) :
    Refines ⟨s.machine.cloneActivePageMap.1,
        insert (frameOf s.machine.cloneActivePageMap.2) s.pageMaps⟩
      ⟨Function.update a.frame (frameOf s.machine.cloneActivePageMap.2) (a.frame a.active),
        a.active⟩ := by
  have hmem : frameOf s.machine.readActivePageMap.2 ∈ s.pageMaps := h.active ▸ h.active_mem
  have hfresh := h.freshFrames hmem
  have hdrains := Machine.drains_cloneActivePageMap (s := s.machine) h.fits
  have hplanted := Machine.cloneActivePageMap_planted hfresh hok hcov
  have hcopy := Machine.exactCopy_of_covered hfresh hok hcov
  have hactive := Machine.cloneActivePageMap_active s.machine
  generalize s.machine.cloneActivePageMap = c at hok hdrains hplanted hcopy hactive ⊢
  have helse : ∀ f, ¬ s.machine.pmm.Free f → c.1.ram f = s.machine.ram f := fun f hf =>
    hdrains.works.elsewhere f id fun hu => hf hu.1
  have hforest := h.forest.plant hplanted.unshared hplanted.used helse hdrains.works.free
  have hnew : frameOf c.2 ∉ s.pageMaps := fun hin =>
    h.forest.used _ hin _ (isTable_root 3 _) (hplanted.used _ (isTable_root 3 _)).1
  refine ⟨hforest, hdrains.takes.fits h.fits, hdrains.works.totalPages.trans_le h.small,
    by rw [hactive, h.active], Set.mem_insert_of_mem _ h.active_mem, fun m hm v => ?_⟩
  by_cases hsame : frameOf m = frameOf c.2
  · -- the walk in the clone ends where it ends in the active page map
    have hleaf : translate c.1.ram c.2 v =
        translate s.machine.ram s.machine.readActivePageMap.2 v := by
      have hpair := congrArg (Option.map Prod.fst) (hcopy.same v)
      simp only [leafOf, Option.map_map] at hpair
      exact hpair
    have hname : translate c.1.ram m v = translate c.1.ram c.2 v := by
      rw [translate_eq_follow, translate_eq_follow, hsame]
    simp only [hsame, Function.update_self]
    rw [hname, hleaf, h.frame_eq _ hmem, h.active]
  · have hold : frameOf m ∈ s.pageMaps := (Set.mem_insert_iff.1 hm).resolve_left hsame
    simp only [Function.update_of_ne hsame]
    rw [← h.frame_eq m hold]
    exact translate_of_agree (fun f hf => helse f (h.forest.used _ hold f hf)) v

/-- **One step** of the kernel is the step of the model. -/
theorem Refines.step (h : s.Refines a) {c : VmmCall} (hstep : SystemStep s c t) :
    t.Refines (a.apply c) := by
  cases c with
  | map m v p mf =>
    obtain ⟨hm, h0, hmf, hp, hsup, rfl⟩ := hstep
    exact h.map hm h0 hmf hp hsup
  | unmap m v =>
    obtain ⟨hm, htables, rfl⟩ := hstep
    exact h.unmap hm htables
  | clone m =>
    obtain ⟨rfl, hcov, rfl⟩ := hstep
    by_cases hok : s.machine.cloneActivePageMap.2 = 0
    · -- a clone that failed has written to free pages only
      have hdrains := Machine.drains_cloneActivePageMap (s := s.machine) h.fits
      have hkept : ∀ f, s.Table f → ¬ s.machine.pmm.Free f := by
        rintro f ⟨r, hr, hf⟩
        exact h.forest.used r hr f hf
      simp only [AddressSpaces.apply, hok, ↓reduceIte]
      exact h.of_agree (fun f hf => hdrains.works.elsewhere f id fun hu => hkept f hf hu.1)
        (fun f hf hfree => hkept f hf (hdrains.works.free f hfree)) (hdrains.takes.fits h.fits)
        (hdrains.works.totalPages.trans_le h.small) (Machine.cloneActivePageMap_active s.machine)
    · simp only [AddressSpaces.apply, hok, ↓reduceIte]
      exact h.clone hok (hcov hok)
  | flush m =>
    obtain ⟨hm, rfl⟩ := hstep
    exact h.flush hm
  | pmm c =>
    obtain ⟨hfreed, rfl⟩ := hstep
    refine h.of_agree (fun _ _ => rfl) (fun f hf hfree => ?_) (call_fits h.fits c)
      ((call_sum _ c).2.trans_le h.small) (Machine.readActivePageMap_congr rfl rfl)
    have hbefore := free_of_free_call h.fits.covered hfree fun hin => hfreed f hin hf
    obtain ⟨r, hr, hf⟩ := hf
    exact h.forest.used r hr f hf hbefore
  | storePage f contents =>
    obtain ⟨hf, rfl⟩ := hstep
    refine h.of_agree (fun g hg => fill_of_ne _ _ fun he => hf (he ▸ hg)) ?_ h.fits h.small
      (Machine.readActivePageMap_congr rfl rfl)
    rintro g ⟨r, hr, hg⟩
    exact h.forest.used r hr g hg

end PagedSystem

/-- **Every run is a run of the model.**  However the calls on the page maps, the requests of the
page allocator, the clonings and the stores to other pages are interleaved, each page map translates
as the calls on it alone say, a clone starts with the translations of the page map that was active
and goes its own way from there, and no two page maps ever have a table in common. -/
theorem address_spaces_refine {s t : PagedSystem} {a : AddressSpaces} {calls : List VmmCall}
    (h : s.Refines a) (hrun : Run SystemStep s calls t) :
    (∀ m, frameOf m ∈ t.pageMaps → ∀ v, translate t.machine.ram m v =
      (calls.foldl AddressSpaces.apply a).frame (frameOf m) (pageNumber v)) ∧
    ∀ m m', frameOf m ∈ t.pageMaps → frameOf m' ∈ t.pageMaps → frameOf m ≠ frameOf m' →
      ∀ f, IsTableOf t.machine.ram m f → ¬ IsTableOf t.machine.ram m' f := by
  have hinv : t.Refines (calls.foldl AddressSpaces.apply a) := by
    refine hrun.trace_invariant
      (I := fun calls t => t.Refines (calls.foldl AddressSpaces.apply a)) h ?_
    intro calls s c t hs hstep
    rw [List.foldl_append]
    exact hs.step hstep
  exact ⟨hinv.frame_eq, fun m m' hm hm' hne => hinv.forest.apart _ hm _ hm' hne⟩

/-- The machine with one page mapped, and its only page map. -/
def onePage : PagedSystem :=
  ⟨(Machine.empty 2 10).map pageSize 0x5000 0x8000 Machine.presentWrite, {1}⟩

theorem refines_onePage : ∃ a : AddressSpaces, onePage.Refines a ∧ a.active = 1 ∧
    a.frame 1 (pageNumber 0x5000) = some 8 := by
  have hempty : PagedSystem.Refines ⟨Machine.empty 2 10, {1}⟩ ⟨fun _ _ => none, 1⟩ := by
    refine ⟨⟨fun r _ => unshared_of_empty 3 fun _ => PageDirectoryEntry.next_zero, ?_, ?_⟩,
      ⟨by decide, by decide⟩, by decide, by decide, rfl, fun m _ v => ?_⟩
    · rintro r rfl f hf hfree
      obtain rfl := isTable_of_empty (fun _ => PageDirectoryEntry.next_zero) hf
      exact absurd (Machine.free_empty.1 hfree).1 (by decide)
    · rintro r rfl r' rfl hne
      exact absurd rfl hne
    · rw [translate_eq_follow, pathOf, PageMapIndexer.path, PageMapIndexer.tables,
        List.cons_append, follow_cons]
      exact Option.bind_eq_none_iff.2 fun g hg =>
        absurd (hg.symm.trans PageDirectoryEntry.next_zero) (by simp)
  have hsup := (Machine.supply_empty (by decide : 2 + 3 ≤ 10)).mapSupplied (by decide) pageSize
    0x5000 Machine.presentWrite
  have hmap := hempty.map (m := pageSize) (v := 0x5000) (p := 0x8000) rfl (by decide) (by decide)
    (by decide) hsup
  exact ⟨_, hmap, rfl, by rw [AddressSpaces.frame_set]; rfl⟩

theorem clones_onePage : onePage.machine.cloneActivePageMap.2 ≠ 0 ∧
    onePage.machine.CloneCovered := by
  have hpmm : onePage.machine.pmm.firstFreePage = 5 ∧ onePage.machine.pmm.totalPages = 10 := by
    decide +kernel
  have hclean : ∀ n < 10, 5 ≤ n → ∀ i : Fin 512,
      (onePage.machine.ram n i).flag .present = false := by decide +kernel
  refine ⟨by decide +kernel, Machine.cloneCovered_of_clean (fun n hn i => ?_) fun q hq h0 => ?_⟩
  · have hcursor := hn.1
    have hbelow := hn.2.1
    rw [hpmm.1] at hcursor
    rw [hpmm.2] at hbelow
    exact hclean n hbelow hcursor i
  · have hsup := (Machine.supply_empty (by decide : 2 + 3 ≤ 10)).mapSupplied (by decide) pageSize
      0x5000 Machine.presentWrite
    obtain ⟨hext, -⟩ := Machine.map_spec (p := 0x8000) (by decide)
      (Machine.wellFormed_empty 2 10 pageSize)
      (Machine.freshFrames_empty (by decide) (by decide)) hsup (by decide) (by decide)
    obtain hold | hfree := hext.tables 0 ⟨q, hq.le, h0⟩
    · exact absurd (isTable_of_empty (fun _ => PageDirectoryEntry.next_zero) hold) (by decide)
    · exact absurd (Machine.free_empty.1 hfree).1 (by decide)

/-- Unmapping the page in a clone leaves it mapped in the original. -/
theorem address_spaces_refine_clone : ∃ r t, Run SystemStep onePage [.clone r, .unmap r 0x5000] t ∧
    translate t.machine.ram pageSize 0x5000 = some 8 ∧ translate t.machine.ram r 0x5000 = none := by
  obtain ⟨a, href, hactive, hframe⟩ := refines_onePage
  obtain ⟨hok, hcov⟩ := clones_onePage
  have hclone : SystemStep onePage (.clone onePage.machine.cloneActivePageMap.2) _ :=
    ⟨rfl, fun _ => hcov, rfl⟩
  have hcloned := href.clone hok hcov
  have hnew : frameOf onePage.machine.cloneActivePageMap.2 ≠ 1 := by
    intro hsame
    have hfree := (Machine.cloneActivePageMap_planted (href.freshFrames (href.active ▸
      href.active_mem)) hok hcov).used _ (isTable_root 3 _)
    rw [hsame] at hfree
    exact href.forest.used 1 rfl 1 (isTable_root 3 1) hfree.1
  rw [if_neg hok] at hclone
  generalize onePage.machine.cloneActivePageMap = c at hok hclone hcloned hnew
  -- in the clone the page is mapped, so its tables are there
  have htr := hcloned.frame_eq c.2 (Set.mem_insert _ _) 0x5000
  simp only [Function.update_self, hactive, hframe] at htr
  have htables : (follow next c.1.ram (frameOf c.2)
      (PageMapIndexer.ofAddress 0x5000).tables).isSome := by
    rw [translate_eq_follow, pathOf, PageMapIndexer.path] at htr
    obtain ⟨k, hk, -⟩ := exists_follow_of_append htr
    rw [hk]
    rfl
  have hrun : Run SystemStep onePage [.clone c.2, .unmap c.2 0x5000] _ :=
    (Run.single hclone).snoc ⟨Set.mem_insert _ _, htables, rfl⟩
  obtain ⟨hmodel, -⟩ := address_spaces_refine href hrun
  refine ⟨c.2, _, hrun, ?_, ?_⟩
  · rw [hmodel pageSize (Set.mem_insert_of_mem _ rfl)]
    simp only [List.foldl_cons, List.foldl_nil, AddressSpaces.apply, hok, ↓reduceIte]
    rw [AddressSpaces.frame_set, if_neg fun hsame => hnew hsame.1.symm]
    exact (congrFun (Function.update_of_ne (Ne.symm hnew) _ _) _).trans hframe
  · rw [hmodel c.2 (Set.mem_insert _ _)]
    simp only [List.foldl_cons, List.foldl_nil, AddressSpaces.apply, hok, ↓reduceIte]
    rw [AddressSpaces.frame_set, if_pos ⟨rfl, rfl⟩]

end Eterna
