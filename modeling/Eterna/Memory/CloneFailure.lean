import Eterna.Memory.Clone
import Eterna.Memory.PageSupply

/-!
# A clone that runs out of pages

`clone_active_page_map` returns `nullptr` as soon as one of its requests does, and frees none of the
pages that it has taken by then.

* `PhysicalMemoryManager.Takes` : the allocator has handed out its first free pages, and freed none;
* `Machine.Drains` : what every function of the cloning does, whether it ends or fails;
* `Machine.Asks` : which requests it makes, and that it fails exactly if one of them does;
* `clone_gives_back_iff` : exactly when a failing clone leaves the allocator as it was, and which
  pages it loses if it does not.
-/

namespace Eterna

open TableWalk
open PageDirectoryEntry (next)

/-! ### Requests -/

namespace PhysicalMemoryManager

variable {m m' m'' : PhysicalMemoryManager} {i : ℕ}

/-- From `m` to `m'`, the free pages below the new cursor have been handed out, and no page has been
freed. -/
structure Takes (m m' : PhysicalMemoryManager) : Prop where
  totalPages : m'.totalPages = m.totalPages
  size : m'.pageMap.size = m.pageMap.size
  cursor : m.firstFreePage ≤ m'.firstFreePage
  bits : ∀ i, m'.pageMap.get i = true ↔
    m.pageMap.get i = true ∨ m.Free i ∧ i < m'.firstFreePage

theorem Takes.refl (m : PhysicalMemoryManager) : Takes m m := by
  refine ⟨rfl, rfl, le_rfl, fun i => (or_iff_left ?_).symm⟩
  rintro ⟨hfree, hlt⟩
  exact Nat.not_lt.2 hfree.1 hlt

theorem Takes.free (h : Takes m m') : m'.Free i ↔ m.Free i ∧ m'.firstFreePage ≤ i := by
  constructor
  · rintro ⟨hcursor, hlt, hclear⟩
    have hbefore : ¬ m.pageMap.get i = true := fun hset => by
      rw [(h.bits i).2 (.inl hset)] at hclear
      cases hclear
    exact ⟨⟨h.cursor.trans hcursor, h.totalPages ▸ hlt, by simpa using hbefore⟩, hcursor⟩
  · rintro ⟨hfree, hcursor⟩
    refine ⟨hcursor, h.totalPages.symm ▸ hfree.2.1, ?_⟩
    by_contra hset
    rw [Bool.not_eq_false, h.bits] at hset
    obtain hset | ⟨-, hlt⟩ := hset
    · rw [hfree.2.2] at hset
      cases hset
    · exact Nat.not_lt.2 hcursor hlt

theorem Takes.trans (h : Takes m m') (h' : Takes m' m'') : Takes m m'' := by
  refine ⟨h'.totalPages.trans h.totalPages, h'.size.trans h.size, h.cursor.trans h'.cursor,
    fun i => ?_⟩
  rw [h'.bits, h.bits, h.free, or_assoc]
  refine or_congr_right ⟨?_, fun ⟨hfree, hlt⟩ => ?_⟩
  · rintro (⟨hfree, hlt⟩ | ⟨⟨hfree, -⟩, hlt⟩)
    · exact ⟨hfree, hlt.trans_le h'.cursor⟩
    · exact ⟨hfree, hlt⟩
  · obtain hbelow | hreached := Nat.lt_or_ge i m'.firstFreePage
    · exact .inl ⟨hfree, hbelow⟩
    · exact .inr ⟨⟨hfree, hreached⟩, hlt⟩

theorem Takes.fits (h : Takes m m') (hfits : m.Fits) : m'.Fits := hfits.of_eq h.totalPages h.size

theorem Takes.of_handOut (hfits : m.Fits) (hi : m.Free i) (hmin : ∀ j, m.Free j → i ≤ j) :
    Takes m (m.handOut i) := by
  have hroom : i / 8 < m.pageMap.size := by
    have := hi.2.1
    have := hfits.2
    omega
  refine ⟨handOut_totalPages m i, handOut_size m i, Nat.le_succ_of_le hi.1, fun j => ?_⟩
  rw [get_handOut, Bool.or_eq_true, decide_eq_true_iff, and_iff_left hroom, handOut_firstFreePage]
  refine or_congr_right ⟨?_, fun ⟨hj, hlt⟩ => ?_⟩
  · rintro rfl
    exact ⟨hi, Nat.lt_succ_self j⟩
  · exact Nat.le_antisymm (Nat.le_of_lt_succ hlt) (hmin j hj)

/-- A row of `k` calls of `request_page`: the allocator afterwards, and what the calls return. -/
def requestRow : ℕ → PhysicalMemoryManager → PhysicalMemoryManager × List ℕ
  | 0, m => (m, [])
  | k + 1, m =>
    let r := m.requestPage
    let rest := requestRow k r.1
    (rest.1, r.2 :: rest.2)

theorem requestRow_add {pages pages' : List ℕ} {k l : ℕ} (h : m.requestRow k = (m', pages))
    (h' : m'.requestRow l = (m'', pages')) : m.requestRow (k + l) = (m'', pages ++ pages') := by
  induction k generalizing m pages with
  | zero =>
    cases h
    rw [Nat.zero_add]
    exact h'
  | succ k ih =>
    cases h
    rw [Nat.succ_add, requestRow, ih rfl]
    rfl

theorem Takes.of_none (hnone : ∀ i, ¬ m.Free i) :
    Takes m { m with firstFreePage := max m.firstFreePage m.totalPages } :=
  ⟨rfl, rfl, le_max_left _ _, fun i => (or_iff_left fun h => hnone i h.1).symm⟩

end PhysicalMemoryManager

open PhysicalMemoryManager

namespace Machine

variable {P Q : ℕ → Prop} {s t r : Machine} {done done₁ : Prop}
  {n new : ℕ} {copy : Machine → ℕ → Machine × ℕ}

/-! ### One step of the cloning -/

/-- From `s` to `r`, pages have been taken and none given back, and memory has changed only in those
pages and in the pages of `P`.  If the step is not done, no page is left; page 0, which looks like
a failed request, is the exception. -/
structure Drains (P : ℕ → Prop) (s r : Machine) (done : Prop) : Prop where
  works : Works P s r
  takes : Takes s.pmm r.pmm
  exhausted : ¬ done → ¬ s.pmm.Free 0 → ∀ i, ¬ r.pmm.Free i

theorem drains_write (hpmm : r.pmm = s.pmm) (hram : ∀ f, ¬ P f → r.ram f = s.ram f) :
    Drains P s r True := by
  refine ⟨⟨by rw [hpmm], fun f => ?_, fun f hf _ => hram f hf⟩, ?_, fun h => absurd trivial h⟩
  · rw [hpmm]
    exact id
  · rw [hpmm]
    exact .refl _

theorem Drains.trans (h : Drains P s t True) (h' : Drains P t r done) : Drains P s r done := by
  refine ⟨h.works.trans h'.works, h.takes.trans h'.takes, fun hdone hzero => ?_⟩
  exact h'.exhausted hdone fun hfree => hzero (h.takes.free.1 hfree).1

theorem Drains.absorb (h : Drains P s r done) (hP : ∀ f, P f → Q f ∨ Used s r f) :
    Drains Q s r done :=
  ⟨h.works.absorb hP, h.takes, h.exhausted⟩

theorem Drains.ended (h : Drains P s r done) (hdone : done₁) : Drains P s r done₁ :=
  ⟨h.works, h.takes, fun hnot => absurd hdone hnot⟩

theorem Drains.failed (h : Drains P s r done) (hfailed : ¬ done) : Drains P s r done₁ :=
  ⟨h.works, h.takes, fun _ => h.exhausted hfailed⟩

/-- **One request** takes the first free page, or fails because there is none. -/
theorem drains_requestPage (hfits : s.pmm.Fits) :
    Drains (fun _ => False) s s.requestPage.1 (s.requestPage.2 ≠ 0) ∧
      (s.requestPage.2 ≠ 0 → Used s s.requestPage.1 (frameOf s.requestPage.2)) := by
  unfold requestPage
  rcases requestPage_cases hfits.1 with ⟨i, hi, hmin, he⟩ | ⟨hnone, he⟩
  · have htakes := Takes.of_handOut hfits hi hmin
    rw [he]
    refine ⟨⟨works_handOut rfl hi fun _ _ => rfl, htakes, fun hnull hzero => ?_⟩, fun _ => ?_⟩
    · -- the page handed out is page 0
      have hpage : i = 0 := by
        have haddress : i * pageSize = 0 := not_not.1 hnull
        unfold pageSize at haddress
        omega
      exact absurd (hpage ▸ hi) hzero
    · rw [frameOf_mul]
      exact ⟨hi, not_free_handOut hi⟩
  · have htakes := Takes.of_none hnone
    rw [he]
    refine ⟨⟨⟨rfl, fun f hf => (htakes.free.1 hf).1, fun _ _ _ => rfl⟩, htakes, ?_⟩,
      fun h => absurd rfl h⟩
    intro _ _ i hi
    exact hnone i (htakes.free.1 hi).1

/-- Work in a page that has just been requested. -/
theorem drains_newPage (hfits : s.pmm.Fits) (hnew : s.requestPage.2 ≠ 0)
    (h : Drains (· = frameOf s.requestPage.2) s.requestPage.1 r done) :
    Drains (fun _ => False) s r done := by
  obtain ⟨hreq, hused⟩ := drains_requestPage hfits
  have hall := ((hreq.ended trivial).absorb fun _ => False.elim).trans h
  refine hall.absorb fun f hf => .inr ?_
  obtain ⟨hfree, htaken⟩ := hused hnew
  rw [hf]
  exact ⟨hfree, fun hleft => htaken (h.takes.free.1 hleft).1⟩

/-! ### The levels -/

/-- What `copyChild` has to do for the loop of the level above. -/
def DrainsAll (copy : Machine → ℕ → Machine × ℕ) : Prop :=
  ∀ s a, s.pmm.Fits → Drains (fun _ => False) s (copy s a).1 ((copy s a).2 ≠ 0)

theorem drains_clonePageTable : DrainsAll clonePageTable := by
  intro s a hfits
  obtain ⟨hreq, -⟩ := drains_requestPage hfits
  unfold clonePageTable
  by_cases hnull : s.requestPage.2 = 0
  · simp only [hnull, ↓reduceIte]
    simpa only [hnull] using hreq
  · simp only [hnull, ↓reduceIte]
    refine drains_newPage hfits hnull ((drains_write ?_ fun f hf => ?_).ended hnull)
    · unfold copyPage
      split_ifs <;> rfl
    · unfold copyPage
      split_ifs
      · exact fill_of_ne _ _ hf
      · rfl

/-- **The loop of one level**, whether it ends or not. -/
theorem drains_cloneEntries (hcopy : DrainsAll copy) (old : ℕ) (hnew : frameOf new = n)
    (is : List (Fin 512)) : ∀ s : Machine, s.pmm.Fits →
      Drains (· = n) s (cloneEntries copy old new is s).1
        ((cloneEntries copy old new is s).2 = true) := by
  induction is with
  | nil =>
    intro s _
    exact (drains_write rfl fun _ _ => rfl).ended rfl
  | cons i is ih =>
    intro s hfits
    rw [cloneEntries]
    dsimp only
    split_ifs with habs hnull
    · exact ih s hfits
    · have hchild := hcopy s ((s.ram (frameOf old) i).address <<< 12) hfits
      exact (hchild.absorb fun _ => False.elim).failed (not_not.2 hnull)
    · have hchild := hcopy s ((s.ram (frameOf old) i).address <<< 12) hfits
      generalize copy s ((s.ram (frameOf old) i).address <<< 12) = c at hchild ⊢
      have hstore : Drains (· = n) c.1
          (c.1.store new i ((c.1.ram (frameOf old) i).setAddress (frameOf c.2))) True :=
        drains_write rfl fun f hf => funext fun _ => write_of_ne _ _ fun h => hf (h.1.trans hnew)
      have hturn := ((hchild.ended trivial).absorb fun _ => False.elim).trans hstore
      exact hturn.trans (ih _ (hturn.takes.fits hfits))

theorem drains_cloneTable (hcopy : DrainsAll copy) : DrainsAll (cloneTable copy) := by
  intro s a hfits
  obtain ⟨hreq, -⟩ := drains_requestPage hfits
  unfold cloneTable
  by_cases hnull : s.requestPage.2 = 0
  · simp only [hnull, ↓reduceIte]
    simpa only [hnull] using hreq
  · simp only [hnull, ↓reduceIte]
    have hloop := drains_newPage hfits hnull
      (drains_cloneEntries hcopy a rfl (List.finRange 512) _ (hreq.takes.fits hfits))
    generalize cloneEntries copy a s.requestPage.2 (List.finRange 512) s.requestPage.1 = c
      at hloop ⊢
    split_ifs with hok
    · exact hloop.ended hnull
    · exact hloop.failed hok

/-- **The whole cloning**, whether it succeeds or not. -/
theorem drains_cloneActivePageMap (hfits : s.pmm.Fits) :
    Drains (fun _ => False) s s.cloneActivePageMap.1 (s.cloneActivePageMap.2 ≠ 0) := by
  obtain ⟨s', a, hread, hpmm, hram⟩ := s.readActivePageMap_eq
  have hfits' : s'.pmm.Fits := hpmm ▸ hfits
  have hstart : Drains (fun _ => False) s s' True := drains_write hpmm fun f _ => by rw [hram]
  obtain ⟨hreq, -⟩ := drains_requestPage hfits'
  refine hstart.trans ?_
  simp only [cloneActivePageMap, hread]
  by_cases hnull : s'.requestPage.2 = 0
  · simp only [hnull, ↓reduceIte]
    simpa only [hnull] using hreq
  · simp only [hnull, ↓reduceIte]
    have hclear : Drains (· = frameOf s'.requestPage.2) s'.requestPage.1
        (s'.requestPage.1.clearPage s'.requestPage.2) True :=
      drains_write rfl fun f hf => fill_of_ne _ _ hf
    have hfits'' := hclear.takes.fits (hreq.takes.fits hfits')
    have hloop := drains_newPage hfits' hnull (hclear.trans (drains_cloneEntries
      (drains_cloneTable (drains_cloneTable drains_clonePageTable)) a rfl (List.finRange 512) _
      hfits''))
    generalize cloneEntries (cloneTable (cloneTable clonePageTable)) a s'.requestPage.2
      (List.finRange 512) (s'.requestPage.1.clearPage s'.requestPage.2) = c at hloop ⊢
    split_ifs with hok
    · exact hloop.ended hnull
    · exact hloop.failed hok

/-! ### The requests of one call -/

/-- What the calls of `request_page` return in the loop of one level; `requests` are those of
`copyChild`. -/
def entriesRequests (copyChild : Machine → ℕ → Machine × ℕ) (requests : Machine → ℕ → List ℕ)
    (oldTable newTable : ℕ) : List (Fin 512) → Machine → List ℕ
  | [], _ => []
  | i :: is, s =>
    let pde := s.ram (frameOf oldTable) i
    if pde.flag .present = false then
      entriesRequests copyChild requests oldTable newTable is s
    else
      let r := copyChild s (pde.address <<< 12)
      requests s (pde.address <<< 12) ++
        if r.2 = 0 then []
        else
          let pde := r.1.ram (frameOf oldTable) i
          entriesRequests copyChild requests oldTable newTable is
            (r.1.store newTable i (pde.setAddress (frameOf r.2)))

/-- The one request for a lowest-level table. -/
def pageTableRequests (s : Machine) (_oldTable : ℕ) : List ℕ := [s.requestPage.2]

/-- The requests for a table of a middle level and everything below it. -/
def tableRequests (copyChild : Machine → ℕ → Machine × ℕ) (requests : Machine → ℕ → List ℕ)
    (s : Machine) (oldTable : ℕ) : List ℕ :=
  let r := s.requestPage
  r.2 :: if r.2 = 0 then []
    else entriesRequests copyChild requests oldTable r.2 (List.finRange 512) r.1

/-- What the calls of `request_page` in `clone_active_page_map` return, in their order. -/
def cloneRequests (s : Machine) : List ℕ :=
  let a := s.readActivePageMap
  let r := a.1.requestPage
  r.2 :: if r.2 = 0 then []
    else entriesRequests (cloneTable (cloneTable clonePageTable))
      (tableRequests (cloneTable clonePageTable) (tableRequests clonePageTable pageTableRequests))
      a.2 r.2 (List.finRange 512) (r.1.clearPage r.2)

/-- From `s` to `r`, the allocator has been asked for exactly these pages, and the step has failed
exactly if one of the requests has returned `nullptr`. -/
structure Asks (s r : Machine) (pages : List ℕ) (failed : Prop) : Prop where
  row : s.pmm.requestRow pages.length = (r.pmm, pages)
  null : failed ↔ 0 ∈ pages

theorem asks_null (hnull : s.requestPage.2 = 0) (hfailed : done) :
    Asks s s.requestPage.1 [s.requestPage.2] done :=
  ⟨rfl, iff_of_true hfailed (hnull ▸ .head _)⟩

theorem Asks.cons {pages : List ℕ} (hnull : s.requestPage.2 ≠ 0)
    (h : Asks s.requestPage.1 r pages done) : Asks s r (s.requestPage.2 :: pages) done := by
  refine ⟨?_, h.null.trans ?_⟩
  · have hrow : s.pmm.requestPage.1.requestRow pages.length = (r.pmm, pages) := h.row
    rw [List.length_cons, requestRow, hrow]
    rfl
  · rw [List.mem_cons, or_iff_right hnull.symm]

/-- What `copyChild` has to do for the loop of the level above. -/
def AsksAll (copy : Machine → ℕ → Machine × ℕ) (requests : Machine → ℕ → List ℕ) : Prop :=
  ∀ s a, Asks s (copy s a).1 (requests s a) ((copy s a).2 = 0)

theorem asks_clonePageTable : AsksAll clonePageTable pageTableRequests := by
  intro s a
  unfold clonePageTable pageTableRequests
  by_cases hnull : s.requestPage.2 = 0
  · simp only [hnull, ↓reduceIte]
    simpa only [hnull] using asks_null hnull hnull
  · simp only [hnull, ↓reduceIte]
    refine Asks.cons hnull ⟨?_, by simp⟩
    unfold copyPage
    split_ifs <;> rfl

/-- **The requests of one level**: those of its children, up to the first that fails. -/
theorem asks_cloneEntries {requests : Machine → ℕ → List ℕ} (hcopy : AsksAll copy requests)
    (old new : ℕ) (is : List (Fin 512)) : ∀ s : Machine,
      Asks s (cloneEntries copy old new is s).1 (entriesRequests copy requests old new is s)
        ((cloneEntries copy old new is s).2 = false) := by
  induction is with
  | nil => exact fun s => ⟨rfl, by simp [cloneEntries, entriesRequests]⟩
  | cons i is ih =>
    intro s
    rw [cloneEntries, entriesRequests]
    dsimp only
    split_ifs with habs hnull
    · exact ih s
    · have hchild := hcopy s ((s.ram (frameOf old) i).address <<< 12)
      rw [List.append_nil]
      exact ⟨hchild.row, iff_of_true rfl (hchild.null.1 hnull)⟩
    · have hchild := hcopy s ((s.ram (frameOf old) i).address <<< 12)
      generalize copy s ((s.ram (frameOf old) i).address <<< 12) = c at hchild hnull ⊢
      have hrest := ih (c.1.store new i ((c.1.ram (frameOf old) i).setAddress (frameOf c.2)))
      refine ⟨?_, hrest.null.trans ?_⟩
      · rw [List.length_append]
        exact requestRow_add hchild.row hrest.row
      · rw [List.mem_append, or_iff_right (mt hchild.null.2 hnull)]

theorem asks_cloneTable {requests : Machine → ℕ → List ℕ} (hcopy : AsksAll copy requests) :
    AsksAll (cloneTable copy) (tableRequests copy requests) := by
  intro s a
  unfold cloneTable tableRequests
  by_cases hnull : s.requestPage.2 = 0
  · simp only [hnull, ↓reduceIte]
    simpa only [hnull] using asks_null hnull hnull
  · simp only [hnull, ↓reduceIte]
    have hloop := asks_cloneEntries hcopy a s.requestPage.2 (List.finRange 512) s.requestPage.1
    generalize cloneEntries copy a s.requestPage.2 (List.finRange 512) s.requestPage.1 = c
      at hloop ⊢
    refine Asks.cons hnull ?_
    split_ifs with hok
    · exact ⟨hloop.row, by rw [← hloop.null, hok]; simp [hnull]⟩
    · exact ⟨hloop.row, by rw [← hloop.null]; simp [hok]⟩

/-- **The requests of the whole cloning**: it fails exactly if one of them does. -/
theorem asks_cloneActivePageMap (s : Machine) :
    Asks s s.cloneActivePageMap.1 s.cloneRequests (s.cloneActivePageMap.2 = 0) := by
  obtain ⟨s', a, hread, hpmm, -⟩ := s.readActivePageMap_eq
  suffices hasks : Asks s' s.cloneActivePageMap.1 s.cloneRequests (s.cloneActivePageMap.2 = 0) from
    ⟨hpmm ▸ hasks.row, hasks.null⟩
  simp only [cloneActivePageMap, cloneRequests, hread]
  by_cases hnull : s'.requestPage.2 = 0
  · simp only [hnull, ↓reduceIte]
    simpa only [hnull] using asks_null hnull hnull
  · simp only [hnull, ↓reduceIte]
    have hloop := asks_cloneEntries
      (asks_cloneTable (asks_cloneTable asks_clonePageTable)) a s'.requestPage.2
      (List.finRange 512) (s'.requestPage.1.clearPage s'.requestPage.2)
    generalize cloneEntries (cloneTable (cloneTable clonePageTable)) a s'.requestPage.2
      (List.finRange 512) (s'.requestPage.1.clearPage s'.requestPage.2) = c at hloop ⊢
    refine Asks.cons hnull ?_
    split_ifs with hok
    · exact ⟨hloop.row, by rw [← hloop.null, hok]; simp [hnull]⟩
    · exact ⟨hloop.row, by rw [← hloop.null]; simp [hok]⟩

/-! ### What a failing clone loses -/

/-- A failing clone takes page 0 alone, if that is the first free page, and all free pages
otherwise. -/
theorem get_cloneActivePageMap_of_null (hfits : s.pmm.Fits) (hnull : s.cloneActivePageMap.2 = 0)
    (i : ℕ) : s.cloneActivePageMap.1.pmm.pageMap.get i = true ↔
      s.pmm.pageMap.get i = true ∨ s.pmm.Free i ∧ (s.pmm.Free 0 → i = 0) := by
  have hdrains := drains_cloneActivePageMap hfits
  by_cases hzero : s.pmm.Free 0
  · obtain ⟨s', a, hread, hpmm, -⟩ := s.readActivePageMap_eq
    have hreq : s'.requestPage = ({ s' with pmm := s.pmm.handOut 0 }, 0) := by
      rw [requestPage, hpmm, requestPage_eq hfits.1 hzero fun j _ => Nat.zero_le j]
      rfl
    have hclone : s.cloneActivePageMap.1.pmm = s.pmm.handOut 0 := by
      simp only [cloneActivePageMap, hread, hreq, ↓reduceIte]
    have htakes := Takes.of_handOut hfits hzero fun j _ => Nat.zero_le j
    rw [hclone, htakes.bits, handOut_firstFreePage]
    refine or_congr_right (and_congr_right fun _ => ?_)
    rw [forall_prop_of_true hzero, Nat.lt_one_iff]
  · rw [hdrains.takes.bits]
    refine or_congr_right (and_congr_right fun hi => ?_)
    refine iff_of_true ?_ fun h => absurd h hzero
    by_contra hreached
    have hleft := hdrains.takes.free.2 ⟨hi, Nat.not_lt.1 hreached⟩
    exact hdrains.exhausted (not_not.2 hnull) hzero i hleft

/-- The call of `clone_active_page_map` leaves the page bitmap, `TotalFreePages` and the tables of
the active page map as they were. -/
structure GivesBack (s : Machine) : Prop where
  pageMap : s.cloneActivePageMap.1.pmm.pageMap = s.pmm.pageMap
  totalFreePages : s.cloneActivePageMap.1.pmm.totalFreePages = s.pmm.totalFreePages
  tables : ∀ f, IsTableOf s.ram s.readActivePageMap.2 f →
    s.cloneActivePageMap.1.ram f = s.ram f

theorem givesBack_of_none (hfits : s.pmm.Fits) (hnone : ∀ i, ¬ s.pmm.Free i) : s.GivesBack := by
  obtain ⟨s', a, hread, hpmm, -⟩ := s.readActivePageMap_eq
  have hclone : s.cloneActivePageMap.1.pmm =
      { s.pmm with firstFreePage := max s.pmm.firstFreePage s.pmm.totalPages } := by
    obtain ⟨i, hi, -⟩ | ⟨-, he⟩ := requestPage_cases hfits.1
    · exact absurd hi (hnone i)
    · simp only [cloneActivePageMap, hread, requestPage, hpmm, he, ↓reduceIte]
  have hworks := (drains_cloneActivePageMap hfits).works
  exact ⟨by rw [hclone], by rw [hclone], fun f _ => hworks.elsewhere f id fun hu => hnone f hu.1⟩

/-- A machine whose active page map has one page, and that has one page left. -/
def crowded : Machine := { gapped with pmm := (empty 2 3).pmm }

theorem crowded_spec : WellFormed crowded.ram crowded.readActivePageMap.2 ∧
    crowded.FreshFrames crowded.readActivePageMap.2 ∧ crowded.pmm.Fits ∧
    crowded.cloneActivePageMap.2 = 0 := by
  obtain ⟨hwf, hfresh, -⟩ := gapped_spec
  have hactive : crowded.readActivePageMap.2 = gapped.readActivePageMap.2 := by decide +kernel
  rw [hactive]
  refine ⟨hwf, ⟨by decide, fun f hf => hfresh.fresh f ?_⟩, ⟨by decide, rfl⟩,
    by decide +kernel⟩
  obtain ⟨hle, hlt⟩ := free_empty.1 hf
  exact free_empty.2 ⟨hle, by omega⟩

end Machine

open Machine

/-- **A clone that fails gives everything back exactly if** it has taken nothing: if no page is free
when `clone_active_page_map` is called, so that its first request fails.  It returns `nullptr`
exactly if one of its requests does, and the active page map is unchanged in any case.  What is lost
otherwise is every page that was free, or page 0 alone if that is the first of them, which the
function takes for a failed request. -/
theorem clone_gives_back_iff {s : Machine} (hfits : s.pmm.Fits) :
    Asks s s.cloneActivePageMap.1 s.cloneRequests (s.cloneActivePageMap.2 = 0) ∧
    (0 ∈ s.cloneRequests → s.cloneActivePageMap.2 = 0 ∧ (s.GivesBack ↔ ∀ i, ¬ s.pmm.Free i) ∧
      (s.FreshFrames s.readActivePageMap.2 → ∀ f, IsTableOf s.ram s.readActivePageMap.2 f →
        s.cloneActivePageMap.1.ram f = s.ram f) ∧
      ∀ i, s.cloneActivePageMap.1.pmm.pageMap.get i = true ↔
        s.pmm.pageMap.get i = true ∨ s.pmm.Free i ∧ (s.pmm.Free 0 → i = 0)) := by
  refine ⟨asks_cloneActivePageMap s, fun hfailed => ?_⟩
  have hnull := (asks_cloneActivePageMap s).null.2 hfailed
  have hlost := get_cloneActivePageMap_of_null hfits hnull
  refine ⟨hnull, ⟨fun hback => ?_, givesBack_of_none hfits⟩, fun hfresh f hf => ?_, hlost⟩
  · -- a free page, and page 0 if it is free, would now have its bit set
    have hclear : ∀ j, s.pmm.Free j → ¬ (s.pmm.Free 0 → j = 0) := by
      intro j hj hzero
      have hset := (hlost j).2 (.inr ⟨hj, hzero⟩)
      rw [hback.pageMap, hj.2.2] at hset
      cases hset
    intro i hi
    by_cases hzero : s.pmm.Free 0
    · exact hclear 0 hzero fun _ => rfl
    · exact hclear i hi fun h => absurd h hzero
  · have hworks := (drains_cloneActivePageMap hfits).works
    exact hworks.elsewhere f id fun hu => hfresh.fresh f hu.1 hf

theorem clone_gives_back_iff_crowded : ¬ crowded.GivesBack ∧
    crowded.cloneActivePageMap.1.pmm.pageMap.get 2 = true := by
  obtain ⟨-, -, hfits, hnull⟩ := crowded_spec
  have hfree : crowded.pmm.Free 2 := free_empty.2 (by decide)
  have hzero : ¬ crowded.pmm.Free 0 := fun h => by cases (free_empty.1 h).1
  obtain ⟨hasks, hgives⟩ := clone_gives_back_iff hfits
  obtain ⟨-, hback, -, hlost⟩ := hgives (hasks.null.1 hnull)
  exact ⟨fun h => hback.1 h 2 hfree, (hlost 2).2 (.inr ⟨hfree, fun h => absurd h hzero⟩)⟩

/-- A clone of a page map with one page, on a machine with one page left, loses it. -/
theorem cloned_page_lost : ¬ ∀ s : Machine, WellFormed s.ram s.readActivePageMap.2 →
    s.FreshFrames s.readActivePageMap.2 → s.pmm.Fits → s.cloneActivePageMap.2 = 0 →
    s.GivesBack := by
  intro hclaim
  obtain ⟨hwf, hfresh, hfits, hnull⟩ := crowded_spec
  have hcount := (hclaim crowded hwf hfresh hfits hnull).totalFreePages
  revert hcount
  decide +kernel

end Eterna
