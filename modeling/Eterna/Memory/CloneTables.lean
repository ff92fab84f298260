import Eterna.Library.TableForest
import Eterna.Memory.Clone

/-!
# The tables of a clone

`clone_active_page_map` takes a page from the allocator for every table it copies.  If no copy keeps
a pointer from before (`Covered`), the clone is a page map of its own.

* `Machine.cloneEntries_trees` : the copies that one loop makes have no table in common;
* `Machine.cloneActivePageMap_tree` : so the clone is well formed, and all its tables are pages that
  were handed out while it was made.
-/

namespace Eterna

open TableWalk
open PageDirectoryEntry (next)

namespace Machine

/-- From `s` to `r`, a tree of depth `d` has been built at `n`, on pages handed out in between. -/
structure Planted (s r : Machine) (d n : ℕ) : Prop where
  unshared : Unshared next r.ram d n
  used : ∀ f, IsTable next r.ram d n f → Used s r f

theorem Planted.mono {s r t u : Machine} {d n : ℕ} (h : Planted s r d n)
    (hram : ∀ f, Used s r f → u.ram f = r.ram f) (hused : ∀ f, Used s r f → Used t u f) :
    Planted t u d n := by
  have hagree : ∀ f, IsTable next r.ram d n f → u.ram f = r.ram f := fun f hf =>
    hram f (h.used f hf)
  exact ⟨h.unshared.of_agree hagree, fun f hf =>
    hused f (h.used f ((isTable_of_agree hagree).1 hf))⟩

/-- The function plants its copies, in any state that the cloning started in `s₀` can reach. -/
def Plants (s₀ : Machine) (d : ℕ) (copy : Machine → ℕ → Machine × ℕ) : Prop :=
  ∀ s o, Works (fun _ => False) s₀ s → (∀ f, IsTable next s₀.ram d o f → ¬ s₀.pmm.Free f) →
    Covered s₀.ram s₀.pmm.Free d o → (copy s (o <<< 12)).2 ≠ 0 →
    Planted s (copy s (o <<< 12)).1 d (frameOf (copy s (o <<< 12)).2)

/-- The trees below the entries of the new table `n` that copy present entries of `o`. -/
structure Branches (s₀ t c : Machine) (o n d : ℕ) (is : List (Fin 512)) : Prop where
  planted : ∀ i ∈ is, (s₀.ram o i).flag .present = true →
    ∀ g, next (c.ram n i) = some g → Planted t c d g
  apart : ∀ i ∈ is, ∀ j ∈ is, i ≠ j → (s₀.ram o i).flag .present = true →
    (s₀.ram o j).flag .present = true → ∀ g g', next (c.ram n i) = some g →
      next (c.ram n j) = some g' → ∀ f, IsTable next c.ram d g f → ¬ IsTable next c.ram d g' f

section Clone

variable {s₀ : Machine} {d o n : ℕ} {copy : Machine → ℕ → Machine × ℕ}

/-- An absent entry adds no branch. -/
theorem Branches.skip {t c : Machine} {i : Fin 512} {is : List (Fin 512)}
    (h : Branches s₀ t c o n d is) (hi : (s₀.ram o i).flag .present = false) :
    Branches s₀ t c o n d (i :: is) := by
  have hmem : ∀ j ∈ i :: is, (s₀.ram o j).flag .present = true → j ∈ is := by
    intro j hj hp
    obtain rfl | hj := List.mem_cons.1 hj
    · rw [hi] at hp
      cases hp
    · exact hj
  exact ⟨fun j hj hp => h.planted j (hmem j hj hp) hp,
    fun j hj k hk hne hp hp' => h.apart j (hmem j hj hp) k (hmem k hk hp') hne hp hp'⟩

/-- A present entry adds the branch that was planted for it, on pages that were gone before the
others were planted. -/
theorem Branches.cons {t r u c : Machine} {i : Fin 512} {is : List (Fin 512)} {m : ℕ}
    (hrest : Branches s₀ u c o n d is) (hi : next (c.ram n i) = some m)
    (hm : Planted t r d m) (hkeep : ∀ f, Used t r f → c.ram f = r.ram f)
    (htr : ∀ f, r.pmm.Free f → t.pmm.Free f) (hru : u.pmm = r.pmm)
    (hrc : ∀ f, c.pmm.Free f → u.pmm.Free f) :
    Branches s₀ t c o n d (i :: is) := by
  have hm' : Planted t c d m := hm.mono hkeep fun f hf =>
    ⟨hf.1, fun h => hf.2 (hru ▸ hrc f h)⟩
  have hlate : ∀ j ∈ is, (s₀.ram o j).flag .present = true → ∀ g, next (c.ram n j) = some g →
      ∀ f, IsTable next c.ram d m f → ¬ IsTable next c.ram d g f := by
    intro j hj hp g hg f hf hf'
    have hearly : Used t r f := hm.used f ((isTable_of_agree fun f hf =>
      hkeep f (hm.used f hf)).1 hf)
    exact hearly.2 (hru ▸ ((hrest.planted j hj hp g hg).used f hf').1)
  have htail : ∀ j ∈ is, (s₀.ram o j).flag .present = true → ∀ g, next (c.ram n j) = some g →
      Planted t c d g := fun j hj hp g hg =>
    (hrest.planted j hj hp g hg).mono (fun _ _ => rfl) fun f hf => ⟨htr f (hru ▸ hf.1), hf.2⟩
  refine ⟨fun j hj hp g hg => ?_, fun j hj k hk hne hp hp' g g' hg hg' f hf hf' => ?_⟩
  · obtain rfl | hj := List.mem_cons.1 hj
    · rw [← Option.some.inj (hi.symm.trans hg)]
      exact hm'
    · exact htail j hj hp g hg
  · obtain rfl | hjs := List.mem_cons.1 hj <;> obtain rfl | hks := List.mem_cons.1 hk
    · exact hne rfl
    · rw [← Option.some.inj (hi.symm.trans hg)] at hf
      exact hlate k hks hp' g' hg' f hf hf'
    · rw [← Option.some.inj (hi.symm.trans hg')] at hf'
      exact hlate j hjs hp g hg f hf' hf
    · exact hrest.apart j hjs k hks hne hp hp' g g' hg hg' f hf hf'

/-- **The branches of one level** are planted one after the other, each on pages of its own. -/
theorem cloneEntries_trees {old new : ℕ} (hcopy : Copies s₀ d copy) (hplants : Plants s₀ d copy)
    (ho : frameOf old = o) (hnew : frameOf new = n)
    (hold : ∀ f, IsTable next s₀.ram (d + 1) o f → ¬ s₀.pmm.Free f)
    (hcov : ∀ i, (s₀.ram o i).flag .present = true →
      Covered s₀.ram s₀.pmm.Free d (s₀.ram o i).address) {is : List (Fin 512)} :
    ∀ {t : Machine}, Works (fun _ => False) s₀ t → Used s₀ t n → is.Nodup →
      (cloneEntries copy old new is t).2 = true →
      Branches s₀ t (cloneEntries copy old new is t).1 o n d is := by
  induction is with
  | nil =>
    intro t _ _ _ _
    exact ⟨fun i hi => absurd hi List.not_mem_nil, fun i hi => absurd hi List.not_mem_nil⟩
  | cons i is ih =>
    intro t ht hn hnodup hok
    obtain ⟨hi, hnodup⟩ := List.nodup_cons.1 hnodup
    have hread : ∀ {u : Machine}, Works (fun _ => False) s₀ u → u.ram o i = s₀.ram o i :=
      fun hu => by rw [hu.elsewhere o id fun h => hold o (isTable_root _ o) h.1]
    rw [cloneEntries] at hok ⊢
    simp only [ho, hread ht] at hok ⊢
    cases hp : (s₀.ram o i).flag .present with
    | false =>
      simp only [hp, ↓reduceIte] at hok ⊢
      exact (ih ht hn hnodup hok).skip hp
    | true =>
      simp only [hp, Bool.true_eq_false, ↓reduceIte] at hok ⊢
      by_cases hr0 : (copy t ((s₀.ram o i).address <<< 12)).2 = 0
      · rw [if_pos hr0] at hok; cases hok
      rw [if_neg hr0] at hok ⊢
      have hbelow : ∀ f, IsTable next s₀.ram d (s₀.ram o i).address f → ¬ s₀.pmm.Free f :=
        fun f hf => hold f (hf.below (PageDirectoryEntry.next_of_present hp))
      obtain ⟨hw, hm, -⟩ := hcopy t (s₀.ram o i).address ht hbelow hr0
      have hplanted := hplants t (s₀.ram o i).address ht hbelow (hcov i hp) hr0
      generalize copy t ((s₀.ram o i).address <<< 12) = r at hok hr0 hw hm hplanted ⊢
      have hsr := ht.trans hw
      rw [hread hsr] at hok ⊢
      have hst := works_store r.1 new i ((s₀.ram o i).setAddress (frameOf r.2)) hnew
      have hnr : Used s₀ r.1 n := ⟨hn.1, fun h => hn.2 (hw.free n h)⟩
      have hsst : Works (fun _ => False) s₀
          (r.1.store new i ((s₀.ram o i).setAddress (frameOf r.2))) :=
        (hsr.absorb fun _ => False.elim).trans hst |>.absorb fun f hf => .inr (hf ▸ hnr)
      obtain ⟨hworks, hout, -⟩ := cloneEntries_spec hcopy ho hnew hold hsst hnr hnodup hok
      have hrest := ih hsst hnr hnodup hok
      generalize cloneEntries copy old new is
        (r.1.store new i ((s₀.ram o i).setAddress (frameOf r.2))) = c at hworks hout hrest ⊢
      -- the pages of the copy just made are not touched again
      have hkeep : ∀ f, Used t r.1 f → c.1.ram f = r.1.ram f := fun f hf => by
        have hfn : f ≠ n := fun h => hn.2 (h ▸ hf.1)
        rw [hworks.elsewhere f hfn fun hu => hf.2 hu.1, hst.elsewhere f hfn fun hu => hf.2 hu.1]
      have hentry : next (c.1.ram n i) = some (frameOf r.2) := by
        rw [hout i hi, show (r.1.store new i ((s₀.ram o i).setAddress (frameOf r.2))).ram n i =
          (s₀.ram o i).setAddress (frameOf r.2) by simp only [store, hnew, write_self],
          next_setAddress hp hm]
      exact hrest.cons hentry hplanted hkeep hw.free rfl hworks.free

/-- The new table and the branches below it make one tree, if its other entries are absent. -/
theorem Branches.planted_root {s t c : Machine} (h : Branches s₀ t c o n d (List.finRange 512))
    (habs : ∀ i, (s₀.ram o i).flag .present = false → next (c.ram n i) = none)
    (hst : ∀ f, t.pmm.Free f → s.pmm.Free f) (hn : Used s c n) (hnt : ¬ t.pmm.Free n) :
    Planted s c (d + 1) n := by
  have hpres : ∀ i g, next (c.ram n i) = some g → (s₀.ram o i).flag .present = true := by
    intro i g hg
    by_contra hp
    rw [habs i (Bool.not_eq_true _ ▸ hp)] at hg
    cases hg
  have hbranch : ∀ i g, next (c.ram n i) = some g → Planted t c d g := fun i g hg =>
    h.planted i (List.mem_finRange i) (hpres i g hg) g hg
  refine ⟨unshared_of_subtrees (fun i g hg => (hbranch i g hg).unshared)
    (fun i g hg hroot => hnt ((hbranch i g hg).used n hroot).1)
    fun i j g g' hij hg hg' => h.apart i (List.mem_finRange i) j (List.mem_finRange j) hij
      (hpres i g hg) (hpres j g' hg') g g' hg hg', fun f hf => ?_⟩
  obtain rfl | ⟨i, g, hg, hf⟩ := isTable_succ_iff.1 hf
  · exact hn
  · have hused := (hbranch i g hg).used f hf
    exact ⟨hst f hused.1, hused.2⟩

theorem clonePageTable_plants (hT : s₀.pmm.totalPages ≤ 2 ^ 40) : Plants s₀ 0 clonePageTable := by
  intro s o hs hold _ hne
  obtain ⟨-, -, hcopied⟩ := clonePageTable_copies hT s o hs hold hne
  exact ⟨unshared_zero, fun f hf => isTable_zero_iff.1 hf ▸ hcopied.used⟩

theorem cloneTable_plants (hT : s₀.pmm.totalPages ≤ 2 ^ 40) (hcopy : Copies s₀ d copy)
    (hplants : Plants s₀ d copy) : Plants s₀ (d + 1) (cloneTable copy) := by
  intro s o hs hold hcov hne
  have hreq : s.requestPage.2 ≠ 0 := fun h => hne (by simp [cloneTable, h])
  obtain ⟨n, hlt, hn, he⟩ := requestPage_spec (hs.totalPages.trans_le hT) hreq
  have hn0 : n * pageSize ≠ 0 := by rwa [he] at hreq
  have hs1 : Works (fun _ => False) s { s with pmm := s.pmm.handOut n } :=
    works_handOut rfl hn fun _ _ => rfl
  have hnt : ¬ (s.pmm.handOut n).Free n := PhysicalMemoryManager.not_free_handOut hn
  have hstart : s.ram n = s₀.ram n := hs.elsewhere n id fun hu => hu.2 hn
  simp only [cloneTable, he, hn0, ↓reduceIte] at hne ⊢
  cases hok : (cloneEntries copy (o <<< 12) (n * pageSize) (List.finRange 512)
      { s with pmm := s.pmm.handOut n }).2 with
  | false => rw [hok] at hne; exact absurd rfl hne
  | true =>
    obtain ⟨hw, -, hin⟩ := cloneEntries_spec hcopy (frameOf_shiftLeft o) (frameOf_mul n) hold
      (hs.trans hs1) ⟨hs.free n hn, hnt⟩ (List.nodup_finRange 512) hok
    have htrees := cloneEntries_trees hcopy hplants (frameOf_shiftLeft o) (frameOf_mul n) hold
      (fun i hi => (hcov i).2 hi) (hs.trans hs1) ⟨hs.free n hn, hnt⟩
      (List.nodup_finRange 512) hok
    simp only [↓reduceIte, frameOf_mul]
    refine htrees.planted_root (fun i habs => ?_) hs1.free ⟨hn, fun h => hnt (hw.free n h)⟩ hnt
    -- where the original has a gap, the page held no present entry before
    have hentry := ((hin i (List.mem_finRange i)).1 habs).trans (congrFun hstart i)
    rw [hentry, PageDirectoryEntry.next_of_absent ((hcov i).1 habs n (hs.free n hn))]

/-- The copies of the tables below the present entries of the active page map keep no pointer from
before. -/
def CloneCovered (s : Machine) : Prop :=
  ∀ i, (s.ram (frameOf s.readActivePageMap.2) i).flag .present = true →
    Covered s.ram s.pmm.Free 2 (s.ram (frameOf s.readActivePageMap.2) i).address

/-- If no free page holds a present entry and no lowest table is the frame 0, all is covered. -/
theorem cloneCovered_of_clean {s : Machine}
    (hclean : ∀ n, s.pmm.Free n → ∀ i, (s.ram n i).flag .present = false)
    (hnonnull : ∀ q : List (Fin 512), q.length = 3 →
      follow next s.ram (frameOf s.readActivePageMap.2) q ≠ some 0) : s.CloneCovered :=
  fun _ hi => covered_of_gaps (fun _ _ i _ _ _ n hn => hclean n hn i) hnonnull hi

/-- **The clone is a page map of its own**: it is well formed, and all its tables are pages that
were handed out while it was made. -/
theorem cloneActivePageMap_planted {s : Machine} (hfresh : s.FreshFrames s.readActivePageMap.2)
    (hok : s.cloneActivePageMap.2 ≠ 0) (hcov : s.CloneCovered) :
    Planted s s.cloneActivePageMap.1 3 (frameOf s.cloneActivePageMap.2) := by
  obtain ⟨s', a, hread, hpmm, hram⟩ := s.readActivePageMap_eq
  obtain ⟨hT, hold⟩ := not_free_of_read hfresh hread
  have hsame : ∀ f, s'.pmm.Free f ↔ s.pmm.Free f := fun f => by rw [hpmm]
  simp only [CloneCovered, cloneActivePageMap, hread] at hok hcov ⊢
  have hreq : s'.requestPage.2 ≠ 0 := fun h => hok (by simp [h])
  obtain ⟨n, hlt, hn, he⟩ := requestPage_spec hT hreq
  have hn0 : n * pageSize ≠ 0 := by rwa [he] at hreq
  have hused : ¬ (s'.pmm.handOut n).Free n := PhysicalMemoryManager.not_free_handOut hn
  simp only [he, hn0, ↓reduceIte, clearPage, frameOf_mul] at hok ⊢
  have hs1 : Works (fun _ => False) s'
      { s' with pmm := s'.pmm.handOut n, ram := fill s'.ram n PageTable.zero } :=
    works_handOut rfl hn fun f hf => fill_of_ne _ _ hf
  -- the three levels below the root
  have hcopy1 := cloneTable_copies hT (clonePageTable_copies hT)
  have hcopy2 := cloneTable_copies hT hcopy1
  have hplants := cloneTable_plants hT hcopy1
    (cloneTable_plants hT (clonePageTable_copies hT) (clonePageTable_plants hT))
  cases hc : (cloneEntries (cloneTable (cloneTable clonePageTable)) a (n * pageSize)
      (List.finRange 512)
      { s' with pmm := s'.pmm.handOut n, ram := fill s'.ram n PageTable.zero }).2 with
  | false => rw [hc] at hok; exact absurd rfl hok
  | true =>
    obtain ⟨hw, -, hin⟩ := cloneEntries_spec hcopy2 rfl (frameOf_mul n) hold hs1 ⟨hn, hused⟩
      (List.nodup_finRange 512) hc
    have htrees := cloneEntries_trees hcopy2 hplants rfl (frameOf_mul n) hold
      (fun i hi => by rw [hram, hpmm]; rw [hram] at hi; exact hcov i hi) hs1 ⟨hn, hused⟩
      (List.nodup_finRange 512) hc
    simp only [↓reduceIte, frameOf_mul]
    have hnc := fun h => hused (hw.free n h)
    refine (htrees.planted_root (s := s') (fun i habs => ?_) hs1.free ⟨hn, hnc⟩ hused).mono
      (fun _ _ => rfl) fun f hf => ⟨(hsame f).1 hf.1, hf.2⟩
    -- the page of the new page map has been cleared
    rw [(hin i (List.mem_finRange i)).1 habs]
    simp only [fill_self]
    exact PageDirectoryEntry.next_zero

end Clone

/-! ### The registers -/

/-- Copying changes neither `ActivePageMap` nor `cr3`. -/
def KeepsRegisters (copy : Machine → ℕ → Machine × ℕ) : Prop :=
  ∀ s o, (copy s o).1.activePageMap = s.activePageMap ∧ (copy s o).1.cr3 = s.cr3

theorem keepsRegisters_clonePageTable : KeepsRegisters clonePageTable := by
  intro s o
  unfold clonePageTable copyPage
  dsimp only
  split_ifs <;> exact ⟨rfl, rfl⟩

theorem cloneEntries_registers {copy : Machine → ℕ → Machine × ℕ} (h : KeepsRegisters copy)
    (old new : ℕ) (is : List (Fin 512)) : ∀ s : Machine,
      (cloneEntries copy old new is s).1.activePageMap = s.activePageMap ∧
      (cloneEntries copy old new is s).1.cr3 = s.cr3 := by
  induction is with
  | nil => intro s; exact ⟨rfl, rfl⟩
  | cons i is ih =>
    intro s
    rw [cloneEntries]
    dsimp only
    split_ifs
    · exact ih s
    · exact h s _
    · obtain ⟨h1, h2⟩ := ih ((copy s ((s.ram (frameOf old) i).address <<< 12)).1.store new i
        (((copy s ((s.ram (frameOf old) i).address <<< 12)).1.ram (frameOf old) i).setAddress
          (frameOf (copy s ((s.ram (frameOf old) i).address <<< 12)).2)))
      obtain ⟨h3, h4⟩ := h s ((s.ram (frameOf old) i).address <<< 12)
      exact ⟨h1.trans h3, h2.trans h4⟩

theorem KeepsRegisters.cloneTable {copy : Machine → ℕ → Machine × ℕ} (h : KeepsRegisters copy) :
    KeepsRegisters (cloneTable copy) := by
  intro s o
  have hloop := cloneEntries_registers h o s.requestPage.2 (List.finRange 512) s.requestPage.1
  unfold Machine.cloneTable
  dsimp only
  generalize cloneEntries copy o s.requestPage.2 (List.finRange 512) s.requestPage.1 = c at hloop ⊢
  split_ifs
  · exact ⟨rfl, rfl⟩
  · exact hloop
  · exact hloop

theorem readActivePageMap_congr {s t : Machine} (hactive : t.activePageMap = s.activePageMap)
    (hcr3 : t.cr3 = s.cr3) : t.readActivePageMap.2 = s.readActivePageMap.2 := by
  unfold readActivePageMap
  rw [hactive, hcr3]
  split_ifs <;> rfl

theorem readActivePageMap_twice (s : Machine) :
    s.readActivePageMap.1.readActivePageMap.2 = s.readActivePageMap.2 := by
  by_cases h0 : s.activePageMap = 0
  · simp only [readActivePageMap, h0, ↓reduceIte]
    split_ifs <;> rfl
  · simp only [readActivePageMap, h0, ↓reduceIte]

theorem cloneActivePageMap_active (s : Machine) :
    s.cloneActivePageMap.1.readActivePageMap.2 = s.readActivePageMap.2 := by
  have hloop := cloneEntries_registers keepsRegisters_clonePageTable.cloneTable.cloneTable
    s.readActivePageMap.2 s.readActivePageMap.1.requestPage.2 (List.finRange 512)
    (s.readActivePageMap.1.requestPage.1.clearPage s.readActivePageMap.1.requestPage.2)
  unfold cloneActivePageMap
  dsimp only
  generalize cloneEntries (Machine.cloneTable (Machine.cloneTable clonePageTable))
    s.readActivePageMap.2 s.readActivePageMap.1.requestPage.2 (List.finRange 512)
    (s.readActivePageMap.1.requestPage.1.clearPage s.readActivePageMap.1.requestPage.2) = c
    at hloop ⊢
  rw [← readActivePageMap_twice s]
  split_ifs
  · exact readActivePageMap_congr rfl rfl
  · exact readActivePageMap_congr hloop.1 hloop.2
  · exact readActivePageMap_congr hloop.1 hloop.2

end Machine

end Eterna
