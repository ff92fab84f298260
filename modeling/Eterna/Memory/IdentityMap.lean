import Eterna.Memory.InitReserved

/-!
# The identity map that `init_physical` builds

The loop of `init_physical` that maps up to 64 MiB extends the page map it runs on: every 2 MiB it
needs one more page table, and clears and fills it at its physical address.  So this page has to be
identity-mapped when `map` takes it.  The page map starts with the first 2 MiB, and grows by one
page in each iteration.

* `Prekernel.map_page_cases` : what mapping one more page does to the tables, entry by entry;
* `Prekernel.LowMapped` : the first 2 MiB stay mapped whatever pages are taken;
* `Prekernel.MappedTo` : the other mapped pages stay mapped while no two page tables share a page;
* `loop_stays_mapped_iff` : exactly when the loop touches mapped pages only.
-/

namespace Eterna

open TableWalk PhysicalMemoryManager
open PageDirectoryEntry (next)

namespace Prekernel

variable {k : Prekernel} {r i : ℕ} {s t : Machine} {ram : PhysicalMemory}

/-! ### One iteration -/

/-- The index of page `p` in `prekernel_pml2`, below 1 GiB. -/
def region (p : ℕ) : Fin 512 := ⟨p / 512 % 512, Nat.mod_lt _ (by decide)⟩

/-- The index of page `p` in its page table. -/
def slot (p : ℕ) : Fin 512 := ⟨p % 512, Nat.mod_lt _ (by decide)⟩

theorem region_eq {p : ℕ} (h : p / 512 < 512) : (⟨p / 512, h⟩ : Fin 512) = region p :=
  Fin.ext (Nat.mod_eq_of_lt h).symm

theorem slot_eq {p : ℕ} (h : p % 512 < 512) : (⟨p % 512, h⟩ : Fin 512) = slot p := rfl

theorem region_val {p : ℕ} (hp : p < 2 ^ 18) : (region p : ℕ) = p / 512 :=
  Nat.mod_eq_of_lt (by omega)

theorem slot_ne {p q : ℕ} (hp : p < 2 ^ 18) (hq : q < 2 ^ 18) (hne : p ≠ q)
    (hregion : region p = region q) : slot p ≠ slot q := by
  intro hslot
  have h1 := congrArg Fin.val hregion
  have h2 : p % 512 = q % 512 := congrArg Fin.val hslot
  rw [region_val hp, region_val hq] at h1
  omega

/-- What mapping page `i` leaves: its page table `g` is in place and maps it, and nothing else moves
in the upper tables or outside them. -/
structure MapsPage (k : Prekernel) (i : ℕ) (s t : Machine) (g : ℕ) : Prop where
  table : (t.ram k.pml2 (region i)).next = some g
  leaf : (t.ram g (slot i)).next = some i
  notUpper : ¬ k.IsUpper g
  upper : ∀ j, j ≠ region i → (t.ram k.pml2 j).next = (s.ram k.pml2 j).next
  others : ∀ f, ¬ k.IsUpper f → f ≠ g → t.ram f = s.ram f

/-- The page table was there before: only the entry of page `i` in it changes. -/
structure KeepsTable (k : Prekernel) (i : ℕ) (s t : Machine) (g : ℕ) : Prop where
  before : (s.ram k.pml2 (region i)).next = some g
  pmm : t.pmm = s.pmm
  slots : ∀ j, j ≠ slot i → (t.ram g j).next = (s.ram g j).next

/-- The page table is the page that was asked for. -/
structure TakesTable (s t : Machine) (g : ℕ) : Prop where
  requested : g = frameOf s.pmm.requestPage.2
  pmm : t.pmm = s.pmm.requestPage.1

theorem ram_store (s : Machine) (g : ℕ) (j : Fin 512) (e : PageDirectoryEntry) :
    (s.store (g <<< 12) j e).ram = write s.ram g j e := by
  rw [Machine.store, frameOf_shiftLeft]

theorem mapsPage_store {w : Machine} {g : ℕ} {e : PageDirectoryEntry} (he : e.next = some i)
    (htable : (w.ram k.pml2 (region i)).next = some g) (hg : ¬ k.IsUpper g)
    (hupper : ∀ j, j ≠ region i → (w.ram k.pml2 j).next = (s.ram k.pml2 j).next)
    (hothers : ∀ f, ¬ k.IsUpper f → f ≠ g → w.ram f = s.ram f) :
    k.MapsPage i s (w.store (g <<< 12) (slot i) e) g := by
  have h2g : k.pml2 ≠ g := fun h => hg (h ▸ .inr (.inr rfl))
  have h2 : ∀ j, (w.store (g <<< 12) (slot i) e).ram k.pml2 j = w.ram k.pml2 j := fun j => by
    rw [ram_store, write_of_ne _ _ fun h => h2g h.1]
  refine ⟨?_, ?_, hg, fun j hj => ?_, fun f hf hfg => ?_⟩
  · rw [h2, htable]
  · rw [ram_store, write_self, he]
  · rw [h2, hupper j hj]
  · funext j
    rw [ram_store, write_of_ne _ _ fun h => hfg h.1, hothers f hf hfg]

/-- **One iteration of the loop**, entry by entry. -/
theorem map_page_cases (h : k.Reaches r s.ram) (hs : k.Serves r s.pmm) (hi : i / 512 ≤ r)
    (hr : r < 512) :
    let t := s.map (k.pml4 * pageSize) (i * pageSize) (i * pageSize) Machine.presentWriteGlobal
    ∃ g, k.MapsPage i s t g ∧
      (i / 512 < r ∧ k.KeepsTable i s t g ∨ i / 512 = r ∧ TakesTable s t g) := by
  have hmf : hasFlag Machine.presentWriteGlobal .present = true := by decide
  obtain ⟨u, hpmm, hnext, hother, he⟩ := map_upper (i := i) (p := i * pageSize) h (by omega) hmf
  have hu := h.of_same fun f _ j => hnext f j
  have hframe : (i * pageSize) >>> 12 = i := frameOf_mul i
  have hne : ∀ {f : ℕ}, ¬ k.IsUpper f → f ≠ k.pml2 := fun hf e => hf (e ▸ .inr (.inr rfl))
  have hleaf : ∀ e : PageDirectoryEntry,
      ((e.setAddress i).setFlags Machine.presentWriteGlobal).next = some i := fun e => by
    rw [PageDirectoryEntry.next_setFlags _ hmf, PageDirectoryEntry.address_setAddress,
      Nat.mod_eq_of_lt (by omega)]
  rw [hframe, region_eq (by omega), slot_eq] at he
  rw [he]
  intro t
  by_cases hlt : i / 512 < r
  · -- the region has a table
    obtain ⟨g, hg⟩ := Option.isSome_iff_exists.1
      ((hu.pml2 (region i)).2 (by rw [region_val (by omega)]; exact hlt))
    have hgup := hu.pml1 _ _ hg
    obtain ⟨hp, he'⟩ := nextTable_of_next Machine.presentWriteGlobal (frameOf_shiftLeft k.pml2) hg
    have hkeep := fun f j => (next_enter hmf hp f j).trans (hnext f j)
    refine ⟨g, ?_, .inl ⟨hlt, ?_⟩⟩
    · dsimp only [t]
      rw [he']
      refine mapsPage_store (hleaf _) ?_ hgup (fun j _ => hkeep _ j) fun f hf _ => ?_
      · rw [next_enter hmf hp, hg]
      · funext j
        exact (write_of_ne _ _ fun e => hne hf e.1).trans (congrFun (hother f hf) j)
    · dsimp only [t]
      rw [he']
      refine ⟨?_, hpmm, fun j hj => ?_⟩
      · rw [← hnext, hg]
      · rw [ram_store, write_of_ne _ _ fun e => hj e.2, hkeep]
  · -- the first page of a region, for which a page is requested
    have hir : i / 512 = r := by omega
    obtain ⟨-, hgup, hlow⟩ := (hpmm ▸ hs : k.Serves r u.pmm).requestPage_low (by omega)
    obtain ⟨e, hnext', he'⟩ := nextTable_of_absent hmf (frameOf_shiftLeft k.pml2)
      (hu.absent (j := region i) (by rw [region_val (by omega)]; omega)) rfl hlow
    refine ⟨frameOf u.pmm.requestPage.2, ?_, .inr ⟨hir, ?_⟩⟩
    · have h2g := (hne hgup).symm
      dsimp only [t]
      rw [he']
      refine mapsPage_store (hleaf _) ?_ hgup (fun j hj => ?_) fun f hf hfg => ?_
      · dsimp only
        rw [write_self, hnext']
      · dsimp only
        rw [write_of_ne _ _ fun e => hj e.2, fill_of_ne _ _ h2g, hnext]
      · funext j
        dsimp only
        rw [write_of_ne _ _ fun e => hne hf e.1, fill_of_ne _ _ hfg, hother f hf]
    · dsimp only [t]
      rw [he']
      exact ⟨by rw [hpmm], by rw [← hpmm]; rfl⟩

theorem TakesTable.cases {g : ℕ} (h : TakesTable s t g) (hT : s.pmm.totalPages ≤ 2 ^ 52) :
    (s.pmm.Free g ∧ (∀ p, s.pmm.Free p → g ≤ p) ∧ t.pmm = s.pmm.handOut g) ∨
      (g = 0 ∧ (∀ p, ¬ s.pmm.Free p) ∧ (∀ p, ¬ t.pmm.Free p) ∧ t.pmm.pageMap = s.pmm.pageMap ∧
        t.pmm.handedOut = s.pmm.handedOut) := by
  obtain ⟨hg, ht⟩ := h
  rcases requestPage_cases hT with ⟨p, hp, hmin, he⟩ | ⟨hnone, he⟩
  · rw [he, frameOf_mul] at hg
    rw [he] at ht
    subst hg
    exact .inl ⟨hp, hmin, ht⟩
  · rw [he] at hg ht
    refine .inr ⟨hg.trans (Nat.zero_shiftRight 12), hnone, fun p hp => hnone p ?_, ?_, ?_⟩
    · rw [ht] at hp
      exact ⟨(le_max_left _ _).trans hp.1, hp.2⟩
    · rw [ht]
    · rw [ht]

/-! ### What is mapped -/

/-- The lower two levels map page `p` to itself. -/
def SelfMapped (k : Prekernel) (ram : PhysicalMemory) (p : ℕ) : Prop :=
  ∃ g, (ram k.pml2 (region p)).next = some g ∧ (ram g (slot p)).next = some p

/-- The page map at `prekernel_pml4` translates the address of page `p` to itself. -/
def IdentityMapped (k : Prekernel) (ram : PhysicalMemory) (p : ℕ) : Prop :=
  translate ram (k.pml4 * pageSize) (p * pageSize) = some p

theorem Reaches.identityMapped_iff (h : k.Reaches r ram) {p : ℕ} (hp : p < 2 ^ 18) :
    k.IdentityMapped ram p ↔ k.SelfMapped ram p := by
  have hpath : pathOf (p * pageSize) = [0, 0, region p, slot p] := by
    rw [pathOf, PageMapIndexer.path, ofAddress_page hp, region_eq, slot_eq]
    rfl
  rw [IdentityMapped, SelfMapped, translate_eq_follow, hpath, frameOf_mul, follow_cons, h.pml4,
    Option.bind_some, follow_cons, h.pml3, Option.bind_some, follow_cons, Option.bind_eq_some_iff]
  refine exists_congr fun g => and_congr_right fun _ => ?_
  rw [follow_cons]
  cases (ram g (slot p)).next <;> rfl

/-- The first 2 MiB are mapped by `prekernel_pml1`, which stays out of the page allocator's
hands. -/
structure LowMapped (k : Prekernel) (s : Machine) : Prop where
  table : (s.ram k.pml2 0).next = some k.pml1
  slots : ∀ j : Fin 512, (s.ram k.pml1 j).next = some (j : ℕ)
  own : ∀ j, (s.ram k.pml2 j).next = some k.pml1 → j = 0
  locked : s.pmm.pageMap.get k.pml1 = true

theorem region_of_lt {p : ℕ} (hp : p < 512) : region p = 0 :=
  Fin.ext (by rw [region_val (by omega)]; exact Nat.div_eq_of_lt hp)

theorem LowMapped.selfMapped (h : k.LowMapped s) {p : ℕ} (hp : p < 512) : k.SelfMapped s.ram p := by
  have hslot : (slot p : ℕ) = p := Nat.mod_eq_of_lt hp
  refine ⟨k.pml1, ?_, ?_⟩
  · rw [region_of_lt hp, h.table]
  · rw [h.slots, hslot]

theorem TakesTable.of_locked {g p : ℕ} (h : TakesTable s t g) (hT : s.pmm.totalPages ≤ 2 ^ 52)
    (hp : s.pmm.pageMap.get p = true) (h0 : p ≠ 0) : g ≠ p ∧ t.pmm.pageMap.get p = true := by
  rcases h.cases hT with ⟨hfree, -, ht⟩ | ⟨rfl, -, -, hbits, -⟩
  · rw [ht, get_handOut, hp]
    refine ⟨?_, rfl⟩
    rintro rfl
    exact Bool.false_ne_true (hfree.2.2.symm.trans hp)
  · rw [hbits]
    exact ⟨h0.symm, hp⟩

theorem pml1_not_upper (k : Prekernel) : ¬ k.IsUpper k.pml1 := by
  unfold IsUpper pml1 pml2 pml3
  omega

/-- **The first 2 MiB stay mapped.** -/
theorem LowMapped.step {g : ℕ} (h : k.LowMapped s) (hT : s.pmm.totalPages ≤ 2 ^ 52) (hr : 0 < r)
    (hi : i < 2 ^ 18) (hm : k.MapsPage i s t g)
    (hcase : i / 512 < r ∧ k.KeepsTable i s t g ∨ i / 512 = r ∧ TakesTable s t g) :
    k.LowMapped t := by
  -- page `i` goes into `prekernel_pml1` only if it lies in the first 2 MiB
  obtain ⟨hg, hslots, hlocked⟩ : (g = k.pml1 ↔ region i = 0) ∧
      (g = k.pml1 → ∀ j, j ≠ slot i → (t.ram k.pml1 j).next = (s.ram k.pml1 j).next) ∧
      t.pmm.pageMap.get k.pml1 = true := by
    rcases hcase with ⟨-, hkeep⟩ | ⟨hir, htake⟩
    · refine ⟨⟨?_, fun h0 => ?_⟩, ?_, hkeep.pmm ▸ h.locked⟩
      · rintro rfl
        exact h.own _ hkeep.before
      · have hbefore := hkeep.before
        rw [h0, h.table] at hbefore
        exact (Option.some.inj hbefore).symm
      · rintro rfl
        exact hkeep.slots
    · have hpos : k.pml1 ≠ 0 := by unfold pml1; omega
      obtain ⟨hne, hlocked⟩ := htake.of_locked hT h.locked hpos
      have hregion : region i ≠ 0 := fun h0 => by
        have := congrArg Fin.val h0
        rw [region_val hi, hir] at this
        exact hr.ne' this
      exact ⟨iff_of_false hne hregion, fun e => absurd e hne, hlocked⟩
  refine ⟨?_, fun j => ?_, fun j hj => ?_, hlocked⟩
  · by_cases h0 : region i = 0
    · rw [← h0, hm.table, hg.2 h0]
    · rw [hm.upper 0 (Ne.symm h0), h.table]
  · by_cases hgp : g = k.pml1
    · by_cases hj : j = slot i
      · have hlow : i / 512 = 0 := by rw [← region_val hi, hg.1 hgp]; rfl
        have hslot : (slot i : ℕ) = i := Nat.mod_eq_of_lt (by omega)
        rw [hj, ← hgp, hm.leaf, hslot]
      · rw [hslots hgp j hj, h.slots]
    · rw [hm.others _ k.pml1_not_upper (Ne.symm hgp), h.slots]
  · by_cases hji : j = region i
    · rw [hji, hm.table] at hj
      rw [hji, hg.1 (Option.some.inj hj)]
    · rw [hm.upper j hji] at hj
      exact h.own j hj

/-- While every page table has a page of its own, the first `i` pages are mapped.  The tables come
from below the cursor of the page allocator and from the pages that were mapped before they were
needed. -/
structure MappedTo (k : Prekernel) (i : ℕ) (s : Machine) : Prop where
  pages : ∀ p < i, k.SelfMapped s.ram p
  distinct : ∀ j j' g, (s.ram k.pml2 j).next = some g → (s.ram k.pml2 j').next = some g → j = j'
  taken : ∀ j ≠ 0, ∀ g, (s.ram k.pml2 j).next = some g → g < s.pmm.firstFreePage
  low : ∀ j ≠ 0, ∀ g, (s.ram k.pml2 j).next = some g → g < 512 * (j : ℕ)

/-- Once no page is free, page 0 is the page table of every further region. -/
structure Exhausted (k : Prekernel) (i : ℕ) (s : Machine) : Prop where
  none : ∀ p, ¬ s.pmm.Free p
  table : (s.ram k.pml2 (region (i - 1))).next = some 0

theorem MappedTo.keep {g : ℕ} (h : k.MappedTo i s) (hreach : k.Reaches r s.ram) (hi : i < 2 ^ 18)
    (hm : k.MapsPage i s t g) (hkeep : k.KeepsTable i s t g) : k.MappedTo (i + 1) t := by
  have hsame : ∀ j, (t.ram k.pml2 j).next = (s.ram k.pml2 j).next := fun j => by
    by_cases hj : j = region i
    · rw [hj, hm.table, hkeep.before]
    · exact hm.upper j hj
  refine ⟨fun p hp => ?_, ?_, ?_, ?_⟩
  · obtain hlt | rfl := Nat.lt_succ_iff_lt_or_eq.1 hp
    · obtain ⟨g', htable, hslot⟩ := h.pages p hlt
      refine ⟨g', (hsame _).trans htable, ?_⟩
      by_cases hgg : g' = g
      · subst hgg
        have hregion := h.distinct _ _ _ htable hkeep.before
        rw [hkeep.slots _ (slot_ne (hlt.trans hi) hi hlt.ne hregion), hslot]
      · rw [hm.others _ (hreach.pml1 _ _ htable) hgg, hslot]
    · exact ⟨g, hm.table, hm.leaf⟩
  · simpa only [hsame] using h.distinct
  · simpa only [hsame, hkeep.pmm] using h.taken
  · simpa only [hsame] using h.low

theorem MappedTo.take {g : ℕ} (h : k.MappedTo i s) (hlow : k.LowMapped s)
    (hreach : k.Reaches r s.ram)
    (hi : i < 2 ^ 18) (hir : i / 512 = r) (hm : k.MapsPage i s t g) (hfree : s.pmm.Free g)
    (hpmm : t.pmm = s.pmm.handOut g) (hg : g < 512 * r) : k.MappedTo (i + 1) t := by
  have hval : (region i : ℕ) = r := (region_val hi).trans hir
  have hnone : ∀ g', (s.ram k.pml2 (region i)).next ≠ some g' := fun g' hsome =>
    absurd ((hreach.pml2 (region i)).1 (by rw [hsome]; rfl)) (by omega)
  -- the tables that were there lie below the cursor, and so below the new one
  have hne : ∀ j g', (s.ram k.pml2 j).next = some g' → g' ≠ g := by
    rintro j g' hj rfl
    by_cases h0 : j = 0
    · rw [h0, hlow.table] at hj
      obtain rfl := Option.some.inj hj
      exact Bool.false_ne_true (hfree.2.2.symm.trans hlow.locked)
    · exact absurd (h.taken j h0 _ hj) (Nat.not_lt_of_le hfree.1)
  have hcases : ∀ j g', (t.ram k.pml2 j).next = some g' →
      j = region i ∧ g' = g ∨ j ≠ region i ∧ (s.ram k.pml2 j).next = some g' := by
    intro j g' hj
    by_cases hji : j = region i
    · rw [hji, hm.table] at hj
      exact .inl ⟨hji, (Option.some.inj hj).symm⟩
    · exact .inr ⟨hji, hm.upper j hji ▸ hj⟩
  refine ⟨fun p hp => ?_, fun j j' g' hj hj' => ?_, fun j hj g' hg' => ?_, fun j hj g' hg' => ?_⟩
  · obtain hlt | rfl := Nat.lt_succ_iff_lt_or_eq.1 hp
    · obtain ⟨g', htable, hslot⟩ := h.pages p hlt
      have hregion : region p ≠ region i := fun e => hnone g' (e ▸ htable)
      refine ⟨g', (hm.upper _ hregion).trans htable, ?_⟩
      rw [hm.others _ (hreach.pml1 _ _ htable) (hne _ _ htable), hslot]
    · exact ⟨g, hm.table, hm.leaf⟩
  · rcases hcases j g' hj with ⟨rfl, rfl⟩ | ⟨-, hs⟩ <;>
      rcases hcases j' g' hj' with ⟨rfl, he⟩ | ⟨-, hs'⟩
    · rfl
    · exact absurd rfl (hne _ _ hs')
    · exact absurd he (hne _ _ hs)
    · exact h.distinct j j' g' hs hs'
  · rw [hpmm, handOut_firstFreePage]
    rcases hcases j g' hg' with ⟨-, rfl⟩ | ⟨-, hs⟩
    · exact Nat.lt_succ_self g'
    · have := h.taken j hj g' hs
      have := hfree.1
      omega
  · rcases hcases j g' hg' with ⟨rfl, rfl⟩ | ⟨-, hs⟩
    · rwa [hval]
    · exact h.low j hj g' hs

/-- `map` takes page `f` or changes it. -/
def Touches (s t : Machine) (f : ℕ) : Prop := f ∈ newPages s.pmm t.pmm ∨ t.ram f ≠ s.ram f

theorem MapsPage.of_touches {f g : ℕ} (hm : k.MapsPage i s t g) (hT : s.pmm.totalPages ≤ 2 ^ 52)
    (hcase : i / 512 < r ∧ k.KeepsTable i s t g ∨ i / 512 = r ∧ TakesTable s t g)
    (hf : Touches s t f) : k.IsUpper f ∨ f = g := by
  rcases hf with hnew | hram
  · refine .inr ?_
    rcases hcase with ⟨-, hkeep⟩ | ⟨-, htake⟩
    · rw [hkeep.pmm, newPages_eq (l := []) rfl] at hnew
      exact absurd hnew List.not_mem_nil
    · rcases htake.cases hT with ⟨-, -, ht⟩ | ⟨-, -, -, -, hout⟩
      · rw [ht, newPages_eq (l := [g]) rfl] at hnew
        exact List.mem_singleton.1 hnew
      · rw [newPages_eq (l := []) hout] at hnew
        exact absurd hnew List.not_mem_nil
  · by_contra hor
    rw [not_or] at hor
    exact hram (hm.others f hor.1 hor.2)

/-- **The step of the loop**: if a free page that is taken lies in the pages that are mapped, what
is touched is mapped, and the next page is mapped as well or no page was free. -/
theorem mapped_step {g : ℕ} (hlow : k.LowMapped s) (h : k.MappedTo i s ∨ k.Exhausted i s)
    (hreach : k.Reaches r s.ram) (hT : s.pmm.totalPages ≤ 2 ^ 52) (hr : 0 < r)
    (hir : i / 512 < r → i / 512 = (i - 1) / 512) (hi : i < 2 ^ 18) (hm : k.MapsPage i s t g)
    (hcase : i / 512 < r ∧ k.KeepsTable i s t g ∨ i / 512 = r ∧ TakesTable s t g)
    (hfirst : i / 512 = r → s.pmm.Free g → (∀ p, s.pmm.Free p → g ≤ p) → g < 512 * r) :
    (k.MappedTo (i + 1) t ∨ k.Exhausted (i + 1) t) ∧ k.SelfMapped s.ram g ∧ g < 512 * r := by
  have hzero : k.SelfMapped s.ram 0 := hlow.selfMapped (by decide)
  rcases hcase with ⟨hlt, hkeep⟩ | ⟨heq, htake⟩
  · obtain hto | hout := h
    · refine ⟨.inl (hto.keep hreach hi hm hkeep), ?_⟩
      by_cases h0 : region i = 0
      · have hbefore := hkeep.before
        rw [h0, hlow.table] at hbefore
        obtain rfl := Option.some.inj hbefore
        have := k.mapped
        have hpml1 : k.pml1 < 512 := by unfold pml1; omega
        exact ⟨hlow.selfMapped hpml1, by omega⟩
      · have hg := hto.low _ h0 g hkeep.before
        rw [region_val hi] at hg
        exact ⟨hto.pages g (by omega), by omega⟩
    · -- for want of a page, the table of this region has been page 0
      have hregion : region i = region (i - 1) := Fin.ext (by
        rw [region_val hi, region_val (by omega), hir hlt])
      have hg : g = 0 := by
        have hbefore := hkeep.before
        rw [hregion, hout.table] at hbefore
        exact (Option.some.inj hbefore).symm
      subst hg
      refine ⟨.inr ⟨?_, ?_⟩, hzero, by omega⟩
      · rw [hkeep.pmm]
        exact hout.none
      · rw [Nat.add_sub_cancel, hm.table]
  · rcases htake.cases hT with ⟨hfree, hmin, ht⟩ | ⟨rfl, -, hnone, -⟩
    · obtain hto | hout := h
      · have hg := hfirst heq hfree hmin
        exact ⟨.inl (hto.take hlow hreach hi heq hm hfree ht hg), hto.pages g (by omega), hg⟩
      · exact absurd hfree (hout.none g)
    · exact ⟨.inr ⟨hnone, by rw [Nat.add_sub_cancel, hm.table]⟩, hzero, by omega⟩

/-! ### The loop -/

section Loop

variable (k) (rest : PhysicalMemory) (memMap : List EfiMemoryDescriptor)

/-- The machine when the loop of `init_physical` starts. -/
def loopStart : Machine :=
  { k.machine rest with
    pmm := boot.initialBitmap k.toKernelImage memMap
    activePageMap := k.pml4 * pageSize }

/-- The machine after `i` iterations of the loop. -/
def loopState (i : ℕ) : Machine :=
  Machine.mapPages (k.pml4 * pageSize) Machine.presentWriteGlobal (· * pageSize) (· * pageSize) i
    (k.loopStart rest memMap)

/-- The number of iterations. -/
def loopCount : ℕ :=
  pageSteps 0 (min (k.loopStart rest memMap).pmm.totalRam initialPageBitmapMaxAddress)

theorem initialPhase_eq : (k.machine rest).initialPhase k.toKernelImage memMap =
    k.loopState rest memMap (k.loopCount rest memMap) := by
  unfold Machine.initialPhase Machine.readActivePageMap
  dsimp only
  rw [if_pos (show (k.machine rest).activePageMap = 0 from rfl)]
  rfl

end Loop

variable (rest : PhysicalMemory) {memMap : List EfiMemoryDescriptor}

theorem loopState_facts (hmap : WellFormedMap memMap) (hi : i ≤ initialPageBitmapPageCount) :
    k.Reaches ((i - 1) / 512 + 1) (k.loopState rest memMap i).ram ∧
      k.Serves ((i - 1) / 512 + 1) (k.loopState rest memMap i).pmm ∧
      (k.loopState rest memMap i).pmm =
        (boot.initialBitmap k.toKernelImage memMap).requestTimes ((i - 1) / 512) :=
  mapPages_pmm (s := k.loopStart rest memMap) (k.reaches_ram rest) (k.serves_initialBitmap hmap) hi

theorem loopCount_eq (hmap : WellFormedMap memMap) :
    k.loopCount rest memMap = identityPages (describedPages memMap) := by
  have hT : (boot.initialBitmap k.toKernelImage memMap).totalPages = describedPages memMap :=
    (initialBitmap_same _ _ _).1.trans
      (countPages_boot (hmap.describedPages_le.trans_lt (by decide)))
  rw [← hT]
  rfl

theorem lowMapped_loopStart (hmap : WellFormedMap memMap) :
    k.LowMapped (k.loopStart rest memMap) := by
  refine ⟨k.next_pml2 rest, k.next_pml1 rest, fun j hj => ?_, k.locked_initialBitmap hmap ?_ ?_⟩
  · exact Fin.ext (Nat.lt_one_iff.1 (((k.reaches_ram rest).pml2 j).1 (Option.isSome_of_eq_some hj)))
  · unfold pml1
    omega
  · unfold pml1
    omega

theorem mappedTo_loopStart : k.MappedTo 0 (k.loopStart rest memMap) := by
  have hzero : ∀ j g, ((k.loopStart rest memMap).ram k.pml2 j).next = some g →
    j = 0 := fun j g hj =>
    Fin.ext (Nat.lt_one_iff.1 (((k.reaches_ram rest).pml2 j).1 (Option.isSome_of_eq_some hj)))
  refine ⟨fun p hp => absurd hp (Nat.not_lt_zero p), fun j j' g hj hj' => ?_, fun j h0 g hj => ?_,
    fun j h0 g hj => ?_⟩
  · rw [hzero j g hj, hzero j' g hj']
  · exact absurd (hzero j g hj) h0
  · exact absurd (hzero j g hj) h0

/-- The next iteration, with the page table that it uses. -/
theorem loopState_succ (hmap : WellFormedMap memMap) (hi : i < initialPageBitmapPageCount) :
    ∃ g, k.MapsPage i (k.loopState rest memMap i) (k.loopState rest memMap (i + 1)) g ∧
      (i / 512 < (i - 1) / 512 + 1 ∧
          k.KeepsTable i (k.loopState rest memMap i) (k.loopState rest memMap (i + 1)) g ∨
        i / 512 = (i - 1) / 512 + 1 ∧
          TakesTable (k.loopState rest memMap i) (k.loopState rest memMap (i + 1)) g) := by
  have hcount : initialPageBitmapPageCount = 16384 := rfl
  obtain ⟨hreach, hserves, -⟩ := loopState_facts (k := k) rest hmap hi.le
  exact map_page_cases hreach hserves (by omega) (by omega)

/-- Every vacant page that the loop takes for a page table lies in the pages that are mapped
before. -/
def TablesLow (image : KernelImage) (memMap : List EfiMemoryDescriptor) : Prop :=
  ∀ p, Vacant image memMap p →
    Nat.count (Vacant image memMap) p < missingTables (describedPages memMap) →
    p < 512 * (Nat.count (Vacant image memMap) p + 1)

theorem count_vacant_of_first (hmap : WellFormedMap memMap) {n g : ℕ}
    (hfree : ((boot.initialBitmap k.toKernelImage memMap).requestTimes n).Free g)
    (hmin : ∀ p, ((boot.initialBitmap k.toKernelImage memMap).requestTimes n).Free p → g ≤ p) :
    Vacant k.toKernelImage memMap g ∧ Nat.count (Vacant k.toKernelImage memMap) g = n := by
  have hiff := free_requestTimes (k.serves_initialBitmap hmap).total n
  have hfirst := count_of_first ((hiff g).1 hfree) fun p hp => hmin p ((hiff p).2 hp)
  have hvacant := ((hiff g).1 hfree).1
  simp only [free_initialBitmap hmap] at hfirst hvacant
  exact ⟨hvacant, hfirst⟩

/-- One iteration under the invariant of the loop. -/
theorem loop_step (hmap : WellFormedMap memMap) (htables : TablesLow k.toKernelImage memMap)
    (hi : i < k.loopCount rest memMap) (hlow : k.LowMapped (k.loopState rest memMap i))
    (h : k.MappedTo i (k.loopState rest memMap i) ∨ k.Exhausted i (k.loopState rest memMap i)) :
    k.LowMapped (k.loopState rest memMap (i + 1)) ∧
      (k.MappedTo (i + 1) (k.loopState rest memMap (i + 1)) ∨
        k.Exhausted (i + 1) (k.loopState rest memMap (i + 1))) ∧
      ∀ f, Touches (k.loopState rest memMap i) (k.loopState rest memMap (i + 1)) f →
        k.IdentityMapped (k.loopState rest memMap i).ram f := by
  have hcount : initialPageBitmapPageCount = 16384 := rfl
  have hmapped := k.mapped
  have hle := identityPages_le (describedPages memMap)
  rw [loopCount_eq rest hmap] at hi
  obtain ⟨hreach, hserves, hpmm⟩ := loopState_facts (k := k) rest hmap (hi.le.trans hle)
  obtain ⟨g, hm, hcase⟩ := loopState_succ (k := k) rest hmap (hi.trans_le hle)
  obtain ⟨hinv, hself, hsmall⟩ :=
    mapped_step hlow h hreach hserves.total (Nat.succ_pos _) (by omega)
    (by omega) hm hcase fun hnew hfree hmin => by
      rw [hpmm] at hfree hmin
      obtain ⟨hvacant, hcountg⟩ := count_vacant_of_first hmap hfree hmin
      have := htables g hvacant (by rw [hcountg, missingTables]; omega)
      rwa [hcountg] at this
  refine ⟨hlow.step hserves.total (Nat.succ_pos _) (by omega) hm hcase, hinv, fun f hf => ?_⟩
  rcases hm.of_touches hserves.total hcase hf with hup | rfl
  · have hf512 : f < 512 := by
      unfold IsUpper pml2 pml3 at hup
      omega
    exact (hreach.identityMapped_iff (by omega)).2 (hlow.selfMapped hf512)
  · exact (hreach.identityMapped_iff (by omega)).2 hself

/-- **The loop invariant**: the first 2 MiB are mapped, and the pages so far are mapped as well
unless no page was free. -/
theorem loop_mapped (hmap : WellFormedMap memMap) (htables : TablesLow k.toKernelImage memMap)
    (hi : i ≤ k.loopCount rest memMap) : k.LowMapped (k.loopState rest memMap i) ∧
      (k.MappedTo i (k.loopState rest memMap i) ∨ k.Exhausted i (k.loopState rest memMap i)) := by
  induction i with
  | zero => exact ⟨lowMapped_loopStart rest hmap, .inl (mappedTo_loopStart rest)⟩
  | succ i ih =>
    obtain ⟨hlow, hinv⟩ := ih (by omega)
    obtain ⟨hlow', hinv', -⟩ := loop_step rest hmap htables hi hlow hinv
    exact ⟨hlow', hinv'⟩

theorem loop_takes (hmap : WellFormedMap memMap) {p : ℕ} (hp : Vacant k.toKernelImage memMap p)
    (hcount : Nat.count (Vacant k.toKernelImage memMap) p < missingTables (describedPages memMap)) :
    let i := 512 * (Nat.count (Vacant k.toKernelImage memMap) p + 1)
    i < k.loopCount rest memMap ∧ p < 2 ^ 18 ∧
      Touches (k.loopState rest memMap i) (k.loopState rest memMap (i + 1)) p := by
  have hpages : initialPageBitmapPageCount = 16384 := rfl
  have hle := identityPages_le (describedPages memMap)
  have hfree := free_initialBitmap hmap k.toKernelImage
  have hT := (k.serves_initialBitmap hmap).total
  unfold missingTables at hcount
  generalize hc : Nat.count (Vacant k.toKernelImage memMap) p = c at hcount ⊢
  intro i
  have hi : i < identityPages (describedPages memMap) := by dsimp only [i]; omega
  have hprev : (i - 1) / 512 = c := by dsimp only [i]; omega
  obtain ⟨-, hserves, hpmm⟩ := loopState_facts (k := k) rest hmap (hi.le.trans hle)
  obtain ⟨g, -, hcase⟩ := loopState_succ (k := k) rest hmap (hi.trans_le hle)
  have htake := (hcase.resolve_left fun h => by dsimp only [i] at h hprev; omega).2
  -- the request of this iteration is the one that hands out `p`
  have hreq : (k.loopState rest memMap i).pmm.requestPage =
      ((k.loopState rest memMap i).pmm.handOut p, p * pageSize) := by
    have hserved := requestPage_requestTimes hT (p := p) (by rw [hfree]; exact hp)
    simp only [hfree, hc] at hserved
    rw [hpmm, hprev, hserved]
  have hlow := (hserves.requestPage).2.2
  rw [hreq, frameOf_mul] at hlow
  refine ⟨by rwa [loopCount_eq rest hmap], by omega, .inl ?_⟩
  rw [htake.pmm, hreq, newPages_eq (l := [p]) rfl]
  exact List.mem_singleton_self p

end Prekernel

/-! ### Exactly when the loop stays in the mapped pages -/

/-- `init_physical` finds a free segment below 64 MiB, so it gets to the loop. -/
def HasSegment (memMap : List EfiMemoryDescriptor) : Prop :=
  (largestFreeMemorySegment memMap).1 ≠ 0 ∧ (largestFreeMemorySegment memMap).2 ≠ 0

/-- In every iteration, each page that `map` takes for a page table and each page that it changes is
identity-mapped in the active page map. -/
def LoopStaysMapped (k : Prekernel) (rest : PhysicalMemory) (memMap : List EfiMemoryDescriptor) :
    Prop :=
  HasSegment memMap → ∀ i < k.loopCount rest memMap, ∀ f,
    Prekernel.Touches (k.loopState rest memMap i) (k.loopState rest memMap (i + 1)) f →
    k.IdentityMapped (k.loopState rest memMap i).ram f

section

open Prekernel

variable {k : Prekernel} {rest : PhysicalMemory} {memMap : List EfiMemoryDescriptor}

theorem LoopStaysMapped.tablesLow (h : LoopStaysMapped k rest memMap) (hmap : WellFormedMap memMap)
    (hseg : HasSegment memMap) : TablesLow k.toKernelImage memMap := by
  intro p hp hlt
  have hcount : initialPageBitmapPageCount = 16384 := rfl
  obtain ⟨hi, hlow, htouch⟩ := loop_takes rest hmap hp hlt
  have hmapped := h hseg _ hi p htouch
  rw [loopCount_eq rest hmap] at hi
  obtain ⟨hreach, -, -⟩ := loopState_facts (k := k) rest hmap
    (hi.le.trans (identityPages_le _))
  obtain ⟨g, htable, -⟩ := (hreach.identityMapped_iff hlow).1 hmapped
  have hregion := (hreach.pml2 _).1 (Option.isSome_of_eq_some htable)
  rw [region_val hlow] at hregion
  omega

/-- **The loop never touches an unmapped page** exactly if the `n`-th vacant page, counted from 0,
lies below the `n + 1`-st multiple of 2 MiB, for each page table that the loop lacks. -/
theorem loop_stays_mapped_iff (hmap : WellFormedMap memMap) :
    LoopStaysMapped k rest memMap ↔ (HasSegment memMap → TablesLow k.toKernelImage memMap) := by
  refine ⟨fun h hseg => h.tablesLow hmap hseg, fun htables hseg i hi f hf => ?_⟩
  obtain ⟨hlow, hinv⟩ := loop_mapped rest hmap (htables hseg) hi.le
  exact (loop_step rest hmap (htables hseg) hi hlow hinv).2.2 f hf

end

theorem loop_stays_mapped_iff_split :
    LoopStaysMapped Prekernel.small (fun _ => PageTable.zero) splitMap ↔
      (HasSegment splitMap → Prekernel.TablesLow Prekernel.small.toKernelImage splitMap) :=
  loop_stays_mapped_iff wellFormedMap_splitMap

/-- A memory map whose free memory starts at 4 MiB. -/
def highMap : List EfiMemoryDescriptor :=
  [⟨loaderData, 0x100000, 32⟩, ⟨loaderData, 0x200000, 512⟩, ⟨conventionalMemory, 0x400000, 1000⟩]

theorem wellFormedMap_highMap : WellFormedMap highMap where
  aligned := by decide
  inside := by decide
  disjoint := by
    simp only [highMap, List.pairwise_cons, List.mem_cons, List.not_mem_nil, or_false,
      forall_eq_or_imp, forall_eq, IsEmpty.forall_iff, implies_true, List.Pairwise.nil, and_true,
      Finset.disjoint_left, EfiMemoryDescriptor.pages, Finset.mem_Ico, pageSize]
    refine ⟨⟨fun p _ => ?_, fun p _ => ?_⟩, fun p _ => ?_⟩ <;> omega

theorem conventional_highMap {p : ℕ} : Conventional highMap p ↔ 1024 ≤ p ∧ p < 2024 := by
  simp [Conventional, highMap, EfiMemoryDescriptor.pages, loaderData, conventionalMemory, pageSize]

/-- The first page table that the loop asks for is page 1024, when the pages below 512 are
mapped. -/
theorem table_not_mapped : ¬ ∀ (k : Prekernel) (rest : PhysicalMemory)
    (memMap : List EfiMemoryDescriptor), WellFormedMap memMap → LoopStaysMapped k rest memMap := by
  intro hall
  have htables := (hall Prekernel.small (fun _ => PageTable.zero) highMap
    wellFormedMap_highMap).tablesLow wellFormedMap_highMap ⟨by decide, by decide⟩
  have hvacant : Vacant Prekernel.small.toKernelImage highMap 1024 :=
    ⟨by decide, .inr ⟨conventional_highMap.2 (by decide), by decide⟩⟩
  have hcount : Nat.count (Vacant Prekernel.small.toKernelImage highMap) 1024 = 0 := by
    refine (Nat.count_iff_forall_not).2 fun p hp hvac => ?_
    rcases hvac.2 with hle | ⟨hconv, -⟩
    · have : initialPageBitmapPageCount = 16384 := rfl
      omega
    · have := (conventional_highMap.1 hconv).1
      omega
  have hlow := htables 1024 hvacant (by rw [hcount]; decide)
  rw [hcount] at hlow
  omega

end Eterna
