import Eterna.Memory.PageMap

/-!
# Cloning a page map

`clone_active_page_map` walks down the active page map and gives every present entry of the upper
three levels a copy of the table below it.  It clears the new table of the top level, overwrites the
new tables of the lowest level, and takes those of the two middle levels as they come: where the
original has an absent entry, the copy keeps whatever the page held before.

* `Copied` : what a copy of a table looks like, old contents included;
* `Machine.cloneTable_copies` : one level of the cloning, given the level below;
* `cloneActivePageMap_exact_iff` : exactly when the clone is an exact copy, whatever the free pages
  held before.
-/

namespace Eterna

open TableWalk
open PageDirectoryEntry (next)

/-! ### Copies -/

/-- In the memory `M'`, the table `n` and those below it, all of them pages in `U`, are a copy of
the tables of `M` from `o` down, of which `d` levels are left.  Where the original has an absent
entry, the copy has what the page held in `M`. -/
def Copied (M M' : PhysicalMemory) (U : ℕ → Prop) : ℕ → ℕ → ℕ → Prop
  | 0, o, n => U n ∧ M' n = if o = 0 then M n else M o
  | d + 1, o, n => U n ∧ ∀ i,
      ((M o i).flag .present = false → M' n i = M n i) ∧
      ((M o i).flag .present = true → ∃ m, m < 2 ^ 40 ∧ M' n i = (M o i).setAddress m ∧
        Copied M M' U d (M o i).address m)

section Copies

variable {M M' M'' : PhysicalMemory} {U U' : ℕ → Prop}

theorem Copied.used : ∀ {d o n : ℕ}, Copied M M' U d o n → U n
  | 0, _, _, h => h.1
  | _ + 1, _, _, h => h.1

/-- A copy stays one while its pages keep their contents. -/
theorem Copied.mono (hM : ∀ f, U f → M'' f = M' f) (hU : ∀ f, U f → U' f) : ∀ {d o n : ℕ},
    Copied M M' U d o n → Copied M M'' U' d o n
  | 0, _, n, h => ⟨hU n h.1, by rw [hM n h.1]; exact h.2⟩
  | d + 1, _, n, h => by
    refine ⟨hU n h.1, fun i => ⟨fun habs => ?_, fun hpres => ?_⟩⟩
    · rw [hM n h.1]; exact (h.2 i).1 habs
    · obtain ⟨m, hm, he, hc⟩ := (h.2 i).2 hpres
      exact ⟨m, hm, by rw [hM n h.1]; exact he, hc.mono hM hU⟩

theorem next_setAddress {e : PageDirectoryEntry} {m : ℕ} (he : e.flag .present = true)
    (hm : m < 2 ^ 40) : (e.setAddress m).next = some m := by
  rw [PageDirectoryEntry.next_of_present (by rw [PageDirectoryEntry.flag_setAddress, he]),
    PageDirectoryEntry.address_setAddress, Nat.mod_eq_of_lt hm]

theorem Copied.follow {p : List (Fin 512)} : ∀ {d o n f : ℕ}, Copied M M' U (d + p.length) o n →
    follow next M o p = some f → ∃ g, follow next M' n p = some g ∧ Copied M M' U d f g := by
  induction p with
  | nil =>
    intro d o n f h hf
    cases hf
    exact ⟨n, rfl, h⟩
  | cons i p ih =>
    intro d o n f h hf
    rw [List.length_cons, ← Nat.add_assoc] at h
    rw [follow_cons] at hf ⊢
    obtain ⟨k, hk, hf⟩ := Option.bind_eq_some_iff.1 hf
    cases hp : (M o i).flag .present with
    | false => rw [PageDirectoryEntry.next_of_absent hp] at hk; cases hk
    | true =>
      obtain ⟨m, hm, he, hc⟩ := (h.2 i).2 hp
      rw [PageDirectoryEntry.next_of_present hp] at hk
      cases hk
      rw [he, next_setAddress hp hm, Option.bind_some]
      exact ih hc hf

/-- No copy of the tables from `o` down keeps a pointer from before: each absent entry of a table
is matched by an absent entry of every page in `U`, and no lowest table is the frame 0. -/
def Covered (M : PhysicalMemory) (U : ℕ → Prop) : ℕ → ℕ → Prop
  | 0, o => o ≠ 0
  | d + 1, o => ∀ i, ((M o i).flag .present = false → ∀ n, U n → (M n i).flag .present = false) ∧
      ((M o i).flag .present = true → Covered M U d (M o i).address)

/-- **A covered copy is exact**: it has the same tables along the same indices, all of them pages in
`U`, and the lowest ones have the same contents. -/
theorem Copied.exact {p : List (Fin 512)} : ∀ {d o n : ℕ}, Copied M M' U d o n → Covered M U d o →
    p.length ≤ d → match TableWalk.follow next M o p with
      | none => TableWalk.follow next M' n p = none
      | some f => ∃ g, TableWalk.follow next M' n p = some g ∧ U g ∧
        (p.length = d → M' g = M f) := by
  induction p with
  | nil =>
    intro d o n hc hcov _
    refine ⟨n, rfl, hc.used, fun hd => ?_⟩
    obtain rfl : d = 0 := hd.symm
    rw [hc.2, if_neg hcov]
  | cons i p ih =>
    intro d o n hc hcov hlen
    obtain ⟨d, rfl⟩ : ∃ e, d = e + 1 :=
      ⟨d - 1, by simp only [List.length_cons] at hlen; omega⟩
    rw [follow_cons, follow_cons]
    cases hp : (M o i).flag .present with
    | false =>
      have habs := (hcov i).1 hp n hc.1
      rw [PageDirectoryEntry.next_of_absent hp, (hc.2 i).1 hp,
        PageDirectoryEntry.next_of_absent habs]
      rfl
    | true =>
      obtain ⟨m, hm, he, hc'⟩ := (hc.2 i).2 hp
      rw [PageDirectoryEntry.next_of_present hp, he, next_setAddress hp hm, Option.bind_some,
        Option.bind_some]
      have := ih hc' ((hcov i).2 hp) (by simpa using hlen)
      simpa only [List.length_cons, Nat.add_right_cancel_iff] using this

end Copies

namespace Machine

/-! ### Work in pages that were free -/

/-- The page `f` has been handed out between `s` and `r`. -/
def Used (s r : Machine) (f : ℕ) : Prop := s.pmm.Free f ∧ ¬ r.pmm.Free f

/-- From `s` to `r`, memory has changed only in pages handed out in between and in those of `P`. -/
structure Works (P : ℕ → Prop) (s r : Machine) : Prop where
  totalPages : r.pmm.totalPages = s.pmm.totalPages
  free : ∀ f, r.pmm.Free f → s.pmm.Free f
  elsewhere : ∀ f, ¬ P f → ¬ Used s r f → r.ram f = s.ram f

namespace Works

variable {P : ℕ → Prop} {s t r : Machine}

theorem refl (P : ℕ → Prop) (s : Machine) : Works P s s := ⟨rfl, fun _ => id, fun _ _ _ => rfl⟩

theorem trans (h : Works P s t) (h' : Works P t r) : Works P s r := by
  refine ⟨h'.totalPages.trans h.totalPages, fun f hf => h.free f (h'.free f hf),
    fun f hP hu => ?_⟩
  rw [h'.elsewhere f hP fun hu' => hu ⟨h.free f hu'.1, hu'.2⟩,
    h.elsewhere f hP fun hu' => hu ⟨hu'.1, fun hf => hu'.2 (h'.free f hf)⟩]

theorem absorb {Q : ℕ → Prop} (h : Works P s r) (hP : ∀ f, P f → Q f ∨ Used s r f) :
    Works Q s r :=
  ⟨h.totalPages, h.free, fun f hQ hu => h.elsewhere f (fun hf => (hP f hf).elim hQ hu) hu⟩

end Works

theorem works_store {n : ℕ} (s : Machine) (table : ℕ) (i : Fin 512) (e : PageDirectoryEntry)
    (hn : frameOf table = n) : Works (· = n) s (s.store table i e) :=
  ⟨rfl, fun _ => id, fun _ hf _ => funext fun _ => write_of_ne _ _ fun h => hf (h.1.trans hn)⟩

theorem works_handOut {s : Machine} {m : PhysicalMemoryManager} {n : ℕ} (hm : s.pmm = m)
    (hn : m.Free n) {M : PhysicalMemory} (hM : ∀ f, f ≠ n → M f = s.ram f) :
    Works (fun _ => False) s { s with pmm := m.handOut n, ram := M } := by
  subst hm
  refine ⟨PhysicalMemoryManager.handOut_totalPages _ _, fun f hf => ?_, fun f _ hu => hM f ?_⟩
  · exact ((PhysicalMemoryManager.free_handOut hn.1).1 hf).1
  · rintro rfl
    exact hu ⟨hn, PhysicalMemoryManager.not_free_handOut hn⟩

theorem requestPage_spec {s : Machine} (hT : s.pmm.totalPages ≤ 2 ^ 40)
    (hne : s.requestPage.2 ≠ 0) : ∃ n, n < 2 ^ 40 ∧ s.pmm.Free n ∧
      s.requestPage = ({ s with pmm := s.pmm.handOut n }, n * pageSize) := by
  rcases PhysicalMemoryManager.requestPage_cases (m := s.pmm) (by omega) with
    ⟨n, hn, -, he⟩ | ⟨-, he⟩
  · exact ⟨n, Nat.lt_of_lt_of_le hn.2.1 hT, hn, by rw [requestPage, he]⟩
  · exact absurd (by rw [requestPage, he]) hne

/-! ### One level of the cloning -/

/-- The function copies trees of tables of depth `d`, in any state that the cloning started in `s₀`
can reach. -/
def Copies (s₀ : Machine) (d : ℕ) (copy : Machine → ℕ → Machine × ℕ) : Prop :=
  ∀ s o, Works (fun _ => False) s₀ s → (∀ f, IsTable next s₀.ram d o f → ¬ s₀.pmm.Free f) →
    (copy s (o <<< 12)).2 ≠ 0 →
    Works (fun _ => False) s (copy s (o <<< 12)).1 ∧ frameOf (copy s (o <<< 12)).2 < 2 ^ 40 ∧
      Copied s₀.ram (copy s (o <<< 12)).1.ram (Used s (copy s (o <<< 12)).1) d o
        (frameOf (copy s (o <<< 12)).2)

theorem clonePageTable_copies {s₀ : Machine} (hT : s₀.pmm.totalPages ≤ 2 ^ 40) :
    Copies s₀ 0 clonePageTable := by
  intro s o hs hold hne
  have hreq : s.requestPage.2 ≠ 0 := fun h => hne (by simp [clonePageTable, h])
  obtain ⟨n, hlt, hn, he⟩ := requestPage_spec (hs.totalPages.trans_le hT) hreq
  have hn0 : n * pageSize ≠ 0 := by rwa [he] at hreq
  have hused : ∀ M, Used s { s with pmm := s.pmm.handOut n, ram := M } n := fun M =>
    ⟨hn, PhysicalMemoryManager.not_free_handOut hn⟩
  have hstart : s.ram n = s₀.ram n :=
    hs.elsewhere n id fun hu => hu.2 hn
  have hold' : s.ram o = s₀.ram o :=
    hs.elsewhere o id fun hu => hold o (isTable_root 0 o) hu.1
  simp only [clonePageTable, he, hn0, ↓reduceIte, copyPage, frameOf_mul, frameOf_shiftLeft]
  by_cases ho : o <<< 12 = 0
  · obtain rfl : o = 0 := by rw [Nat.shiftLeft_eq] at ho; omega
    simp only [ho, ne_eq, not_true_eq_false, and_false, ↓reduceIte]
    exact ⟨works_handOut rfl hn fun _ _ => rfl, hlt, hused _, by rw [if_pos rfl]; exact hstart⟩
  · have ho' : o ≠ 0 := by rintro rfl; exact ho rfl
    simp only [ho, hn0, ne_eq, not_false_eq_true, and_self, ↓reduceIte]
    refine ⟨works_handOut rfl hn fun f hf => fill_of_ne _ _ hf, hlt, hused _, ?_⟩
    rw [if_neg ho', fill_self]
    exact hold'

/-- The loop of one level, from the machine `t` on: the entries of the new table `n` whose indices
are in the list have been set, or left alone, and nothing else has changed outside new pages. -/
theorem cloneEntries_spec {s₀ : Machine} {d o n old new : ℕ} {copy : Machine → ℕ → Machine × ℕ}
    (hcopy : Copies s₀ d copy) (ho : frameOf old = o) (hnew : frameOf new = n)
    (hold : ∀ f, IsTable next s₀.ram (d + 1) o f → ¬ s₀.pmm.Free f) {is : List (Fin 512)} :
    ∀ {t : Machine}, Works (fun _ => False) s₀ t → Used s₀ t n → is.Nodup →
      (cloneEntries copy old new is t).2 = true →
      Works (· = n) t (cloneEntries copy old new is t).1 ∧
      (∀ i ∉ is, (cloneEntries copy old new is t).1.ram n i = t.ram n i) ∧
      ∀ i ∈ is,
        ((s₀.ram o i).flag .present = false →
          (cloneEntries copy old new is t).1.ram n i = t.ram n i) ∧
        ((s₀.ram o i).flag .present = true → ∃ m, m < 2 ^ 40 ∧
          (cloneEntries copy old new is t).1.ram n i = (s₀.ram o i).setAddress m ∧
          Copied s₀.ram (cloneEntries copy old new is t).1.ram
            (Used t (cloneEntries copy old new is t).1) d (s₀.ram o i).address m) := by
  induction is with
  | nil =>
    intro t _ _ _ _
    exact ⟨.refl _ t, fun _ _ => rfl, fun i hi => absurd hi List.not_mem_nil⟩
  | cons i is ih =>
    intro t ht hn hnodup hok
    obtain ⟨hi, hnodup⟩ := List.nodup_cons.1 hnodup
    have hread : ∀ {u : Machine}, Works (fun _ => False) s₀ u → u.ram o i = s₀.ram o i :=
      fun hu => by rw [hu.elsewhere o id fun h => hold o (isTable_root _ o) h.1]
    rw [cloneEntries] at hok ⊢
    simp only [ho, hread ht] at hok ⊢
    cases hp : (s₀.ram o i).flag .present with
    | false =>
      simp only [hp, ↓reduceIte] at hok ⊢
      obtain ⟨hworks, hout, hin⟩ := ih ht hn hnodup hok
      refine ⟨hworks, fun j hj => hout j fun h => hj (List.mem_cons_of_mem i h), fun j hj => ?_⟩
      rcases List.mem_cons.1 hj with rfl | hj
      · exact ⟨fun _ => hout j hi, fun h => absurd h (by rw [hp]; decide)⟩
      · exact hin j hj
    | true =>
      simp only [hp, Bool.true_eq_false, ↓reduceIte] at hok ⊢
      by_cases hr0 : (copy t ((s₀.ram o i).address <<< 12)).2 = 0
      · rw [if_pos hr0] at hok; cases hok
      rw [if_neg hr0] at hok ⊢
      obtain ⟨hw, hm, hc⟩ := hcopy t (s₀.ram o i).address ht
        (fun f hf => hold f (hf.below (PageDirectoryEntry.next_of_present hp))) hr0
      generalize copy t ((s₀.ram o i).address <<< 12) = r at hok hr0 hw hm hc ⊢
      have hsr := ht.trans hw
      rw [hread hsr] at hok ⊢
      have hst := works_store r.1 new i ((s₀.ram o i).setAddress (frameOf r.2)) hnew
      have hnr : Used s₀ r.1 n := ⟨hn.1, fun h => hn.2 (hw.free n h)⟩
      have hsst : Works (fun _ => False) s₀
          (r.1.store new i ((s₀.ram o i).setAddress (frameOf r.2))) :=
        (hsr.absorb fun _ => False.elim).trans hst |>.absorb fun f hf => .inr (hf ▸ hnr)
      obtain ⟨hworks, hout, hin⟩ := ih hsst hnr hnodup hok
      generalize cloneEntries copy old new is
        (r.1.store new i ((s₀.ram o i).setAddress (frameOf r.2))) = c at hworks hout hin ⊢
      -- the pages of the copy just made are not touched again
      have hkeep : ∀ f, Used t r.1 f → c.1.ram f = r.1.ram f := fun f hf => by
        have hfn : f ≠ n := fun h => hn.2 (h ▸ hf.1)
        rw [hworks.elsewhere f hfn fun hu => hf.2 hu.1, hst.elsewhere f hfn fun hu => hf.2 hu.1]
      have hsame : ∀ j ≠ i, (r.1.store new i ((s₀.ram o i).setAddress (frameOf r.2))).ram n j =
          t.ram n j := fun j hj => by
        rw [← hw.elsewhere n id fun hu => hn.2 hu.1]
        exact write_of_ne _ _ fun h => hj h.2
      refine ⟨(hw.absorb fun _ => False.elim).trans (hst.trans hworks), fun j hj => ?_,
        fun j hj => ?_⟩
      · rw [List.mem_cons, not_or] at hj
        rw [hout j hj.2, hsame j hj.1]
      · rcases List.mem_cons.1 hj with rfl | hj
        · refine ⟨fun h => absurd h (by rw [hp]; decide), fun _ => ⟨frameOf r.2, hm, ?_, ?_⟩⟩
          · rw [hout j hi]
            simp only [store, hnew, write_self]
          · exact hc.mono hkeep fun f hf => ⟨hf.1, fun h => hf.2 (hworks.free f h)⟩
        · have hji : j ≠ i := fun h => hi (h ▸ hj)
          obtain ⟨habs, hpres⟩ := hin j hj
          refine ⟨fun h => by rw [habs h, hsame j hji], fun h => ?_⟩
          obtain ⟨m, hm', he, hc'⟩ := hpres h
          exact ⟨m, hm', he, hc'.mono (fun _ _ => rfl) fun f hf => ⟨hw.free f hf.1, hf.2⟩⟩

theorem cloneTable_copies {s₀ : Machine} (hT : s₀.pmm.totalPages ≤ 2 ^ 40) {d : ℕ}
    {copy : Machine → ℕ → Machine × ℕ} (hcopy : Copies s₀ d copy) :
    Copies s₀ (d + 1) (cloneTable copy) := by
  intro s o hs hold hne
  have hreq : s.requestPage.2 ≠ 0 := fun h => hne (by simp [cloneTable, h])
  obtain ⟨n, hlt, hn, he⟩ := requestPage_spec (hs.totalPages.trans_le hT) hreq
  have hn0 : n * pageSize ≠ 0 := by rwa [he] at hreq
  have hs1 : Works (fun _ => False) s { s with pmm := s.pmm.handOut n } :=
    works_handOut rfl hn fun _ _ => rfl
  have hused : Used s { s with pmm := s.pmm.handOut n } n :=
    ⟨hn, PhysicalMemoryManager.not_free_handOut hn⟩
  have hstart : s.ram n = s₀.ram n := hs.elsewhere n id fun hu => hu.2 hn
  simp only [cloneTable, he, hn0, ↓reduceIte] at hne ⊢
  cases hok : (cloneEntries copy (o <<< 12) (n * pageSize) (List.finRange 512)
      { s with pmm := s.pmm.handOut n }).2 with
  | false => rw [hok] at hne; exact absurd rfl hne
  | true =>
    obtain ⟨hw, -, hin⟩ := cloneEntries_spec hcopy (frameOf_shiftLeft o) (frameOf_mul n) hold
      (hs.trans hs1) ⟨hs.free n hn, hused.2⟩ (List.nodup_finRange 512) hok
    have hwn : Used s (cloneEntries copy (o <<< 12) (n * pageSize) (List.finRange 512)
        { s with pmm := s.pmm.handOut n }).1 n := ⟨hn, fun h => hused.2 (hw.free n h)⟩
    simp only [↓reduceIte, frameOf_mul]
    refine ⟨((hs1.absorb fun _ => False.elim).trans hw).absorb fun f hf => ?_, hlt, hwn,
      fun i => ⟨fun habs => ?_, fun hpres => ?_⟩⟩
    · rw [hf]
      exact .inr hwn
    · exact ((hin i (List.mem_finRange i)).1 habs).trans (congrFun hstart i)
    · obtain ⟨m, hm, he', hc⟩ := (hin i (List.mem_finRange i)).2 hpres
      exact ⟨m, hm, he', hc.mono (fun _ _ => rfl) fun f hf => ⟨hs1.free f hf.1, hf.2⟩⟩

theorem readActivePageMap_eq (s : Machine) : ∃ s' a, s.readActivePageMap = (s', a) ∧
    s'.pmm = s.pmm ∧ s'.ram = s.ram := by
  unfold readActivePageMap
  split_ifs <;> exact ⟨_, _, rfl, rfl, rfl⟩

/-- None of the tables of the active page map that has been read is a free page. -/
theorem not_free_of_read {s s' : Machine} {a : ℕ} (hfresh : s.FreshFrames s.readActivePageMap.2)
    (hread : s.readActivePageMap = (s', a)) : s'.pmm.totalPages ≤ 2 ^ 40 ∧
      ∀ f, IsTable next s'.ram 3 (frameOf a) f → ¬ s'.pmm.Free f := by
  obtain ⟨t, b, heq, hpmm, hram⟩ := s.readActivePageMap_eq
  obtain ⟨rfl, rfl⟩ := Prod.mk.inj (hread.symm.trans heq)
  rw [hread] at hfresh
  refine ⟨hpmm ▸ hfresh.fits, fun f hf hfree => ?_⟩
  rw [hram] at hf
  rw [hpmm] at hfree
  exact hfresh.fresh f hfree hf

/-- **What a successful `clone_active_page_map` leaves behind**: the new page map is a page that was
free, its absent entries are cleared, and its present entries point to copies, in other pages that
were free, of the tables of the active page map. -/
theorem cloneActivePageMap_spec {s : Machine} (hfresh : s.FreshFrames s.readActivePageMap.2)
    (hok : s.cloneActivePageMap.2 ≠ 0) :
    s.pmm.Free (frameOf s.cloneActivePageMap.2) ∧ ∀ i,
      ((s.ram (frameOf s.readActivePageMap.2) i).flag .present = false →
        s.cloneActivePageMap.1.ram (frameOf s.cloneActivePageMap.2) i = {}) ∧
      ((s.ram (frameOf s.readActivePageMap.2) i).flag .present = true → ∃ m, m < 2 ^ 40 ∧
        s.cloneActivePageMap.1.ram (frameOf s.cloneActivePageMap.2) i =
          (s.ram (frameOf s.readActivePageMap.2) i).setAddress m ∧
        Copied s.ram s.cloneActivePageMap.1.ram s.pmm.Free 2
          (s.ram (frameOf s.readActivePageMap.2) i).address m) := by
  obtain ⟨s', a, hread, hpmm, hram⟩ := s.readActivePageMap_eq
  obtain ⟨hT, hold⟩ := not_free_of_read hfresh hread
  simp only [cloneActivePageMap, hread, ← hpmm, ← hram] at hok ⊢
  have hreq : s'.requestPage.2 ≠ 0 := fun h => hok (by simp [h])
  obtain ⟨n, hlt, hn, he⟩ := requestPage_spec hT hreq
  have hn0 : n * pageSize ≠ 0 := by rwa [he] at hreq
  have hused : ¬ (s'.pmm.handOut n).Free n := PhysicalMemoryManager.not_free_handOut hn
  simp only [he, hn0, ↓reduceIte, clearPage, frameOf_mul] at hok ⊢
  have hs1 : Works (fun _ => False) s'
      { s' with pmm := s'.pmm.handOut n, ram := fill s'.ram n PageTable.zero } :=
    works_handOut rfl hn fun f hf => fill_of_ne _ _ hf
  -- the three levels below the root
  have hcopy := cloneTable_copies hT (cloneTable_copies hT (clonePageTable_copies hT))
  cases hc : (cloneEntries (cloneTable (cloneTable clonePageTable)) a (n * pageSize)
      (List.finRange 512)
      { s' with pmm := s'.pmm.handOut n, ram := fill s'.ram n PageTable.zero }).2 with
  | false => rw [hc] at hok; exact absurd rfl hok
  | true =>
    obtain ⟨hw, -, hin⟩ := cloneEntries_spec hcopy rfl (frameOf_mul n) hold hs1 ⟨hn, hused⟩
      (List.nodup_finRange 512) hc
    simp only [↓reduceIte, frameOf_mul]
    refine ⟨hn, fun i => ⟨fun habs => ?_, fun hpres => ?_⟩⟩
    · refine ((hin i (List.mem_finRange i)).1 habs).trans ?_
      simp only [fill_self]
      rfl
    · obtain ⟨m, hm, he', hcp⟩ := (hin i (List.mem_finRange i)).2 hpres
      exact ⟨m, hm, he', hcp.mono (fun _ _ => rfl) fun f hf => hs1.free f hf.1⟩

/-! ### Old contents do not matter for success -/

/-- `t` differs from `s` at most in what the free pages hold. -/
structure SameButFree (s t : Machine) : Prop where
  pmm : t.pmm = s.pmm
  activePageMap : t.activePageMap = s.activePageMap
  cr3 : t.cr3 = s.cr3
  ram : ∀ f, ¬ s.pmm.Free f → t.ram f = s.ram f

theorem SameButFree.read {s t : Machine} (h : SameButFree s t) :
    SameButFree s.readActivePageMap.1 t.readActivePageMap.1 ∧
      t.readActivePageMap.2 = s.readActivePageMap.2 := by
  unfold readActivePageMap
  simp only [h.activePageMap, h.cr3]
  split_ifs
  · exact ⟨⟨h.pmm, rfl, rfl, h.ram⟩, rfl⟩
  · exact ⟨h, rfl⟩

/-- What the free pages hold does not concern the active page map. -/
theorem SameButFree.keeps {s t : Machine} (h : SameButFree s t)
    (hfresh : s.FreshFrames s.readActivePageMap.2) :
    (∀ f, IsTableOf s.ram s.readActivePageMap.2 f → t.ram f = s.ram f) ∧
      t.FreshFrames t.readActivePageMap.2 := by
  have hagree : ∀ f, IsTableOf s.ram s.readActivePageMap.2 f → t.ram f = s.ram f :=
    fun f hf => h.ram f fun hfree => hfresh.fresh f hfree hf
  refine ⟨hagree, h.pmm ▸ hfresh.fits, fun f hf ht => ?_⟩
  rw [h.read.2] at ht
  exact hfresh.fresh f (h.pmm ▸ hf) ((isTable_of_agree hagree).1 ht)

/-- The function makes the same requests in the clonings that started in `s₀` and in `t₀`. -/
def Blind (s₀ t₀ : Machine) (d : ℕ) (copy : Machine → ℕ → Machine × ℕ) : Prop :=
  ∀ s t o, Works (fun _ => False) s₀ s → Works (fun _ => False) t₀ t → t.pmm = s.pmm →
    (∀ f, IsTable next s₀.ram d o f → ¬ s₀.pmm.Free f) → (copy s (o <<< 12)).2 ≠ 0 →
    (copy t (o <<< 12)).2 = (copy s (o <<< 12)).2 ∧
      (copy t (o <<< 12)).1.pmm = (copy s (o <<< 12)).1.pmm

theorem requestPage_congr {s t : Machine} (h : t.pmm = s.pmm) :
    t.requestPage.2 = s.requestPage.2 ∧ t.requestPage.1.pmm = s.requestPage.1.pmm := by
  simp only [requestPage, h, and_self]

theorem requestPage_of_pmm {s t : Machine} (h : t.pmm = s.pmm) {m : PhysicalMemoryManager} {a : ℕ}
    (he : s.requestPage = ({ s with pmm := m }, a)) :
    t.requestPage = ({ t with pmm := m }, a) := by
  rw [requestPage] at he ⊢
  rw [h]
  simp only [Prod.mk.injEq, mk.injEq, and_true] at he ⊢
  exact he

theorem clonePageTable_blind (s₀ t₀ : Machine) : Blind s₀ t₀ 0 clonePageTable := by
  intro s t o _ _ hpmm _ hne
  obtain ⟨h2, h1⟩ := requestPage_congr hpmm
  have hcopy : ∀ (u : Machine) (a b : ℕ), (u.copyPage a b).pmm = u.pmm := by
    intro u a b
    unfold copyPage
    split_ifs <;> rfl
  unfold clonePageTable at hne ⊢
  simp only [h2]
  split_ifs with h0
  · exact ⟨h2, h1⟩
  · exact ⟨rfl, by rw [hcopy, hcopy, h1]⟩

section Blind

variable {s₀ t₀ : Machine} {d : ℕ} {copy : Machine → ℕ → Machine × ℕ}

theorem cloneEntries_blind (hsb : SameButFree s₀ t₀) (hcopy : Copies s₀ d copy)
    (hcopy' : Copies t₀ d copy) (hblind : Blind s₀ t₀ d copy) {o n old new : ℕ}
    (ho : frameOf old = o) (hnew : frameOf new = n)
    (hold : ∀ f, IsTable next s₀.ram (d + 1) o f → ¬ s₀.pmm.Free f) {is : List (Fin 512)} :
    ∀ {s t : Machine}, Works (fun _ => False) s₀ s → Works (fun _ => False) t₀ t →
      t.pmm = s.pmm → Used s₀ s n → (cloneEntries copy old new is s).2 = true →
      (cloneEntries copy old new is t).2 = true ∧
        (cloneEntries copy old new is t).1.pmm = (cloneEntries copy old new is s).1.pmm := by
  have hfree : ∀ f, t₀.pmm.Free f ↔ s₀.pmm.Free f := fun f => by rw [hsb.pmm]
  have hroot := hold o (isTable_root _ o)
  have hagree : ∀ f, IsTable next s₀.ram (d + 1) o f → t₀.ram f = s₀.ram f := fun f hf =>
    hsb.ram f (hold f hf)
  induction is with
  | nil => intro s t _ _ hpmm _ _; exact ⟨rfl, hpmm⟩
  | cons i is ih =>
    intro s t hs ht hpmm hn hok
    -- both sides read the old entry, as the tables of the page map are not free
    have hread : ∀ {u : Machine}, Works (fun _ => False) s₀ u → u.ram o i = s₀.ram o i :=
      fun hu => by rw [hu.elsewhere o id fun h => hroot h.1]
    have hread' : ∀ {u : Machine}, Works (fun _ => False) t₀ u → u.ram o i = s₀.ram o i :=
      fun hu => by
        rw [hu.elsewhere o id fun h => hroot ((hfree o).1 h.1), hagree o (isTable_root _ o)]
    rw [cloneEntries] at hok ⊢
    rw [cloneEntries]
    simp only [ho, hread hs, hread' ht] at hok ⊢
    cases hp : (s₀.ram o i).flag .present with
    | false =>
      simp only [hp, ↓reduceIte] at hok ⊢
      exact ih hs ht hpmm hn hok
    | true =>
      simp only [hp, Bool.true_eq_false, ↓reduceIte] at hok ⊢
      by_cases hr0 : (copy s ((s₀.ram o i).address <<< 12)).2 = 0
      · rw [if_pos hr0] at hok; cases hok
      have hbelow : ∀ f, IsTable next s₀.ram d (s₀.ram o i).address f →
          IsTable next s₀.ram (d + 1) o f := fun f hf =>
        hf.below (PageDirectoryEntry.next_of_present hp)
      have hbelow' : ∀ f, IsTable next t₀.ram d (s₀.ram o i).address f → ¬ t₀.pmm.Free f := by
        intro f hf
        rw [isTable_of_agree fun g hg => hagree g (hbelow g hg)] at hf
        rw [hfree]
        exact hold f (hbelow f hf)
      -- the tables below are copied into the same pages, and then the copy is linked
      obtain ⟨h2, h1⟩ := hblind s t (s₀.ram o i).address hs ht hpmm
        (fun f hf => hold f (hbelow f hf)) hr0
      obtain ⟨hw, -⟩ := hcopy s _ hs (fun f hf => hold f (hbelow f hf)) hr0
      obtain ⟨hw', -⟩ := hcopy' t _ ht hbelow' (h2.trans_ne hr0)
      rw [if_neg hr0] at hok ⊢
      rw [if_neg (h2.trans_ne hr0)]
      generalize copy s ((s₀.ram o i).address <<< 12) = r at hok hr0 hw h1 h2 ⊢
      generalize copy t ((s₀.ram o i).address <<< 12) = r' at hw' h1 h2 ⊢
      have hst := works_store r.1 new i ((r.1.ram o i).setAddress (frameOf r.2)) hnew
      have hst' := works_store r'.1 new i ((r'.1.ram o i).setAddress (frameOf r'.2)) hnew
      have hnr : Used s₀ r.1 n := ⟨hn.1, fun h => hn.2 (hw.free n h)⟩
      have hnr' : Used t₀ r'.1 n := ⟨(hfree n).2 hn.1, by rw [h1]; exact hnr.2⟩
      refine ih ?_ ?_ h1 hnr hok
      · exact (((hs.trans hw).absorb fun _ => False.elim).trans hst).absorb fun f hf =>
          .inr (hf ▸ hnr)
      · exact (((ht.trans hw').absorb fun _ => False.elim).trans hst').absorb fun f hf =>
          .inr (hf ▸ hnr')

theorem cloneTable_blind (hT : s₀.pmm.totalPages ≤ 2 ^ 40) (hsb : SameButFree s₀ t₀)
    (hcopy : Copies s₀ d copy) (hcopy' : Copies t₀ d copy) (hblind : Blind s₀ t₀ d copy) :
    Blind s₀ t₀ (d + 1) (cloneTable copy) := by
  intro s t o hs ht hpmm hold hne
  have hreq : s.requestPage.2 ≠ 0 := fun h => hne (by simp [cloneTable, h])
  obtain ⟨n, -, hn, he⟩ := requestPage_spec (hs.totalPages.trans_le hT) hreq
  have he' : t.requestPage = ({ t with pmm := s.pmm.handOut n }, n * pageSize) :=
    requestPage_of_pmm hpmm he
  have hn0 : n * pageSize ≠ 0 := by rwa [he] at hreq
  have hused : ¬ (s.pmm.handOut n).Free n := PhysicalMemoryManager.not_free_handOut hn
  have hs1 : Works (fun _ => False) s { s with pmm := s.pmm.handOut n } :=
    works_handOut rfl hn fun _ _ => rfl
  have ht1 : Works (fun _ => False) t { t with pmm := s.pmm.handOut n } :=
    works_handOut hpmm hn fun _ _ => rfl
  simp only [cloneTable, he, he', hn0, ↓reduceIte] at hne ⊢
  cases hok : (cloneEntries copy (o <<< 12) (n * pageSize) (List.finRange 512)
      { s with pmm := s.pmm.handOut n }).2 with
  | false => rw [hok] at hne; exact absurd rfl hne
  | true =>
    obtain ⟨h2, h1⟩ := cloneEntries_blind hsb hcopy hcopy' hblind (frameOf_shiftLeft o)
      (frameOf_mul n) hold (hs.trans hs1) (ht.trans ht1) rfl ⟨hs.free n hn, hused⟩ hok
    simp only [h2, ↓reduceIte]
    exact ⟨trivial, h1⟩

end Blind

theorem cloneActivePageMap_blind {s t : Machine} (hfresh : s.FreshFrames s.readActivePageMap.2)
    (hsb : SameButFree s t) (hok : s.cloneActivePageMap.2 ≠ 0) : t.cloneActivePageMap.2 ≠ 0 := by
  obtain ⟨hsb', hact⟩ := hsb.read
  obtain ⟨s', a, hread, -, -⟩ := s.readActivePageMap_eq
  obtain ⟨t', b, hread', -, -⟩ := t.readActivePageMap_eq
  rw [hread, hread'] at hsb' hact
  obtain rfl : b = a := hact
  obtain ⟨hT, hold⟩ := not_free_of_read hfresh hread
  have hT' : t'.pmm.totalPages ≤ 2 ^ 40 := hsb'.pmm ▸ hT
  simp only [cloneActivePageMap, hread, hread'] at hok ⊢
  have hreq : s'.requestPage.2 ≠ 0 := fun h => hok (by simp [h])
  obtain ⟨n, -, hn, he⟩ := requestPage_spec hT hreq
  have he' : t'.requestPage = ({ t' with pmm := s'.pmm.handOut n }, n * pageSize) :=
    requestPage_of_pmm hsb'.pmm he
  have hn0 : n * pageSize ≠ 0 := by rwa [he] at hreq
  have hused : ¬ (s'.pmm.handOut n).Free n := PhysicalMemoryManager.not_free_handOut hn
  simp only [he, he', hn0, ↓reduceIte, clearPage, frameOf_mul] at hok ⊢
  -- the same page is handed out on both sides, and cleared
  have hwork : ∀ u : Machine, u.pmm = s'.pmm → Works (fun _ => False) u
      { u with pmm := s'.pmm.handOut n, ram := fill u.ram n PageTable.zero } := fun u hu =>
    works_handOut hu hn fun f hf => fill_of_ne _ _ hf
  have hcopy := cloneTable_copies hT (cloneTable_copies hT (clonePageTable_copies hT))
  have hcopy' := cloneTable_copies hT' (cloneTable_copies hT' (clonePageTable_copies hT'))
  have hblind := cloneTable_blind hT hsb' (cloneTable_copies hT (clonePageTable_copies hT))
    (cloneTable_copies hT' (clonePageTable_copies hT')) (cloneTable_blind hT hsb'
      (clonePageTable_copies hT) (clonePageTable_copies hT') (clonePageTable_blind s' t'))
  cases hc : (cloneEntries (cloneTable (cloneTable clonePageTable)) b (n * pageSize)
      (List.finRange 512)
      { s' with pmm := s'.pmm.handOut n, ram := fill s'.ram n PageTable.zero }).2 with
  | false => rw [hc] at hok; exact absurd rfl hok
  | true =>
    obtain ⟨h2, -⟩ := cloneEntries_blind hsb' hcopy hcopy' hblind rfl (frameOf_mul n) hold
      (hwork s' rfl) (hwork t' hsb'.pmm) rfl ⟨hn, hused⟩ hc
    rw [h2]
    exact hn0

end Machine

/-! ### Exact copies -/

/-- What the walk of an address ends in: the frame and the flags of the present leaf entry, if there
is one. -/
def leafOf (ram : PhysicalMemory) (pml4 v : ℕ) : Option (ℕ × (PageTableFlag → Bool)) :=
  (walk ram pml4 v).map fun e => (e.address, e.flag)

/-- The page map at `pml4'` in the memory `ram'` is an exact copy of the one at `pml4` in `ram`. -/
structure ExactCopy (ram : PhysicalMemory) (pml4 : ℕ) (ram' : PhysicalMemory) (pml4' : ℕ) :
    Prop where
  same : ∀ v, leafOf ram' pml4' v = leafOf ram pml4 v
  apart : ∀ f, ¬ (IsTableOf ram' pml4' f ∧ IsTableOf ram pml4 f)

/-- Every table of the two middle levels is full, and no lowest table is the frame 0. -/
structure NoGaps (ram : PhysicalMemory) (pml4 : ℕ) : Prop where
  full : ∀ (q : List (Fin 512)) o i, q.length = 1 ∨ q.length = 2 →
    follow next ram (frameOf pml4) q = some o → (ram o i).flag .present = true
  nonnull : ∀ q : List (Fin 512), q.length = 3 → follow next ram (frameOf pml4) q ≠ some 0

/-- The tables below a present entry of the page map are covered if every gap in a middle table is
matched by an absent entry of every page in `U`. -/
theorem covered_of_gaps {ram : PhysicalMemory} {pml4 : ℕ} {U : ℕ → Prop}
    (hgap : ∀ (q : List (Fin 512)) o i, q.length = 1 ∨ q.length = 2 →
      follow next ram (frameOf pml4) q = some o → (ram o i).flag .present = false →
      ∀ n, U n → (ram n i).flag .present = false)
    (hnonnull : ∀ q : List (Fin 512), q.length = 3 → follow next ram (frameOf pml4) q ≠ some 0)
    {i : Fin 512} (hi : (ram (frameOf pml4) i).flag .present = true) :
    Covered ram U 2 (ram (frameOf pml4) i).address := by
  have hstep : ∀ {q : List (Fin 512)} {o : ℕ} {j : Fin 512},
      follow next ram (frameOf pml4) q = some o → (ram o j).flag .present = true →
      follow next ram (frameOf pml4) (q ++ [j]) = some (ram o j).address := fun hq hj => by
    rw [follow_concat hq, PageDirectoryEntry.next_of_present hj]
  have h1 := hstep (q := []) rfl hi
  refine fun j => ⟨hgap _ _ j (.inl rfl) h1, fun hj => ?_⟩
  have h2 := hstep h1 hj
  refine fun k => ⟨hgap _ _ k (.inr rfl) h2, fun hk h0 => ?_⟩
  exact hnonnull _ rfl (by rw [hstep h2 hk, h0])

theorem NoGaps.covered {ram : PhysicalMemory} {pml4 : ℕ} (h : NoGaps ram pml4) (U : ℕ → Prop)
    {i : Fin 512} (hi : (ram (frameOf pml4) i).flag .present = true) :
    Covered ram U 2 (ram (frameOf pml4) i).address := by
  refine covered_of_gaps (fun q o j hq hqo habs => ?_) h.nonnull hi
  rw [h.full q o j hq hqo] at habs
  cases habs

theorem exists_pathOf (q : List (Fin 512)) (hq : q.length = 3) (l : Fin 512) :
    ∃ v, (PageMapIndexer.ofAddress v).tables = q ∧ (PageMapIndexer.ofAddress v).page = l := by
  obtain ⟨i, j, k, rfl⟩ := List.length_eq_three.1 hq
  refine ⟨(((i.val * 512 + j) * 512 + k) * 512 + l) * 4096, ?_, ?_⟩
  · simp only [PageMapIndexer.tables, PageMapIndexer.ofAddress, List.cons.injEq, and_true,
      Fin.ext_iff, lowNine_val, Nat.shiftRight_eq_div_pow]
    omega
  · simp only [PageMapIndexer.ofAddress, Fin.ext_iff, lowNine_val, Nat.shiftRight_eq_div_pow]
    omega

theorem walk_of_follow {ram : PhysicalMemory} {pml4 v pt : ℕ}
    (h : follow next ram (frameOf pml4) (PageMapIndexer.ofAddress v).tables = some pt) :
    walk ram pml4 v = if (ram pt (PageMapIndexer.ofAddress v).page).flag .present then
      some (ram pt (PageMapIndexer.ofAddress v).page) else none := by
  rw [walk, h]; rfl

theorem leafOf_isSome {ram : PhysicalMemory} {pml4 v pt : ℕ}
    (h : follow next ram (frameOf pml4) (PageMapIndexer.ofAddress v).tables = some pt) :
    (leafOf ram pml4 v).isSome = (ram pt (PageMapIndexer.ofAddress v).page).flag .present := by
  rw [leafOf, walk_of_follow h]
  cases (ram pt (PageMapIndexer.ofAddress v).page).flag .present <;> rfl

namespace Machine

section Clone

variable {s : Machine}

/-- A clone whose copies are all covered is an exact copy. -/
theorem exactCopy_of_covered (hfresh : s.FreshFrames s.readActivePageMap.2)
    (hok : s.cloneActivePageMap.2 ≠ 0)
    (hcov : ∀ i, (s.ram (frameOf s.readActivePageMap.2) i).flag .present = true →
      Covered s.ram s.pmm.Free 2 (s.ram (frameOf s.readActivePageMap.2) i).address) :
    ExactCopy s.ram s.readActivePageMap.2 s.cloneActivePageMap.1.ram s.cloneActivePageMap.2 := by
  obtain ⟨hn, hentry⟩ := cloneActivePageMap_spec hfresh hok
  generalize s.cloneActivePageMap.1.ram = M at hentry ⊢
  generalize s.cloneActivePageMap.2 = clone at hn hentry ⊢
  -- below the top, the clone has the same tables, and the lowest ones are the same
  have hmirror : ∀ (i : Fin 512) (q : List (Fin 512)), q.length ≤ 2 →
      match follow next s.ram (frameOf s.readActivePageMap.2) (i :: q) with
      | none => follow next M (frameOf clone) (i :: q) = none
      | some f => ∃ g, follow next M (frameOf clone) (i :: q) = some g ∧ s.pmm.Free g ∧
          (q.length = 2 → M g = s.ram f) := by
    intro i q hq
    rw [follow_cons, follow_cons]
    cases hp : (s.ram (frameOf s.readActivePageMap.2) i).flag .present with
    | false =>
      rw [PageDirectoryEntry.next_of_absent hp, (hentry i).1 hp, PageDirectoryEntry.next_zero]
      rfl
    | true =>
      obtain ⟨m, hm, he, hc⟩ := (hentry i).2 hp
      rw [PageDirectoryEntry.next_of_present hp, he, next_setAddress hp hm, Option.bind_some,
        Option.bind_some]
      exact hc.exact (hcov i hp) hq
  refine ⟨fun v => ?_, ?_⟩
  · have hv := hmirror (PageMapIndexer.ofAddress v).pageDirectoryPointer
      [(PageMapIndexer.ofAddress v).pageDirectory, (PageMapIndexer.ofAddress v).pageTable]
      (Nat.le_refl 2)
    rw [leafOf, leafOf]
    congr 1
    cases hf : follow next s.ram (frameOf s.readActivePageMap.2)
        (PageMapIndexer.ofAddress v).tables with
    | none =>
      simp only [show _ :: [_, _] = (PageMapIndexer.ofAddress v).tables from rfl, hf] at hv
      rw [walk, walk, hf, hv]
      rfl
    | some f =>
      simp only [show _ :: [_, _] = (PageMapIndexer.ofAddress v).tables from rfl, hf] at hv
      obtain ⟨g, hg, -, hsame⟩ := hv
      rw [walk_of_follow hf, walk_of_follow hg, hsame rfl]
  · rintro f ⟨⟨q, hq, hf⟩, hold⟩
    cases q with
    | nil =>
      cases hf
      exact hfresh.fresh _ hn hold
    | cons i q =>
      have := hmirror i q (Nat.le_of_succ_le_succ hq)
      rw [hf] at this
      cases hor : follow next s.ram (frameOf s.readActivePageMap.2) (i :: q) with
      | none => rw [hor] at this; cases this
      | some k =>
        rw [hor] at this
        obtain ⟨g, hg, hfree, -⟩ := this
        cases hg
        exact hfresh.fresh _ hfree hold

/-- **From clean pages the clone is exact**: if no free page holds a present entry, only a lowest
table in frame 0 can spoil the copy. -/
theorem exactCopy_of_clean (hfresh : s.FreshFrames s.readActivePageMap.2)
    (hok : s.cloneActivePageMap.2 ≠ 0)
    (hclean : ∀ n, s.pmm.Free n → ∀ i, (s.ram n i).flag .present = false)
    (hnonnull : ∀ q : List (Fin 512), q.length = 3 →
      follow next s.ram (frameOf s.readActivePageMap.2) q ≠ some 0) :
    ExactCopy s.ram s.readActivePageMap.2 s.cloneActivePageMap.1.ram s.cloneActivePageMap.2 :=
  exactCopy_of_covered hfresh hok fun _ hi =>
    covered_of_gaps (fun _ _ i _ _ _ n hn => hclean n hn i) hnonnull hi

/-- A present entry that points to the frame `o`. -/
def pointer (o : ℕ) : PageDirectoryEntry :=
  (({} : PageDirectoryEntry).setAddress o).setFlag .present true

theorem flag_pointer (o : ℕ) : (pointer o).flag .present = true := by
  simp [pointer, PageDirectoryEntry.flag_setFlag]

theorem next_pointer {o : ℕ} (ho : o < 2 ^ 40) : (pointer o).next = some o := by
  rw [PageDirectoryEntry.next_of_present (flag_pointer o), pointer,
    PageDirectoryEntry.address_setFlag, PageDirectoryEntry.address_setAddress, Nat.mod_eq_of_lt ho]

/-- The machine whose free pages are full of the entry `e`. -/
def soil (s : Machine) (e : PageDirectoryEntry) : Machine :=
  { s with ram := fun f => if s.pmm.Free f then fun _ => e else s.ram f }

theorem sameButFree_soil (s : Machine) (e : PageDirectoryEntry) : SameButFree s (s.soil e) :=
  ⟨rfl, rfl, rfl, fun _ hf => if_neg hf⟩

theorem soil_of_free {f : ℕ} (e : PageDirectoryEntry) (hf : s.pmm.Free f) (i : Fin 512) :
    (s.soil e).ram f i = e := by
  simp only [soil, if_pos hf]

theorem next_lt {e : PageDirectoryEntry} {f : ℕ} (h : next e = some f) : f < 2 ^ 40 := by
  unfold PageDirectoryEntry.next at h
  split_ifs at h
  cases h
  exact e.address_lt

/-- Where the active page map has a table below the top, the clone has a copy of it. -/
theorem clone_follow (hfresh : s.FreshFrames s.readActivePageMap.2)
    (hok : s.cloneActivePageMap.2 ≠ 0) {j : Fin 512} {q : List (Fin 512)} {d f : ℕ}
    (hd : d + q.length = 2)
    (h : follow next s.ram (frameOf s.readActivePageMap.2) (j :: q) = some f) :
    ∃ g, follow next s.cloneActivePageMap.1.ram (frameOf s.cloneActivePageMap.2) (j :: q) = some g ∧
      Copied s.ram s.cloneActivePageMap.1.ram s.pmm.Free d f g := by
  obtain ⟨-, hentry⟩ := cloneActivePageMap_spec hfresh hok
  rw [follow_cons] at h ⊢
  obtain ⟨k, hk, h⟩ := Option.bind_eq_some_iff.1 h
  cases hp : (s.ram (frameOf s.readActivePageMap.2) j).flag .present with
  | false => rw [PageDirectoryEntry.next_of_absent hp] at hk; cases hk
  | true =>
    rw [PageDirectoryEntry.next_of_present hp] at hk
    cases hk
    obtain ⟨m, hm, he, hc⟩ := (hentry j).2 hp
    rw [he, next_setAddress hp hm, Option.bind_some]
    exact Copied.follow (by rwa [hd]) h

/-- Pages full of an entry in place of the free ones: the active page map is the same, and it can be
cloned. -/
theorem soil_keeps (hfresh : s.FreshFrames s.readActivePageMap.2)
    (hok : s.cloneActivePageMap.2 ≠ 0) (e : PageDirectoryEntry) :
    (s.soil e).readActivePageMap.2 = s.readActivePageMap.2 ∧
      (s.soil e).FreshFrames (s.soil e).readActivePageMap.2 ∧
      (s.soil e).cloneActivePageMap.2 ≠ 0 ∧
      ∀ q : List (Fin 512), q.length ≤ 4 →
        follow next (s.soil e).ram (frameOf s.readActivePageMap.2) q =
          follow next s.ram (frameOf s.readActivePageMap.2) q := by
  have hsb := sameButFree_soil s e
  obtain ⟨hagree, hfresh'⟩ := hsb.keeps hfresh
  exact ⟨hsb.read.2, hfresh', cloneActivePageMap_blind hfresh hsb hok,
    fun q hq => follow_eq_of_agree hagree hq⟩

/-- A gap in a middle table lets a clone keep a pointer into the original. -/
theorem full_of_exactCopy (hfresh : s.FreshFrames s.readActivePageMap.2)
    (hok : s.cloneActivePageMap.2 ≠ 0)
    (h : ∀ e, ExactCopy (s.soil e).ram (s.soil e).readActivePageMap.2
      (s.soil e).cloneActivePageMap.1.ram (s.soil e).cloneActivePageMap.2)
    {q : List (Fin 512)} {o : ℕ} {i : Fin 512} (hq : q.length = 1 ∨ q.length = 2)
    (hqo : follow next s.ram (frameOf s.readActivePageMap.2) q = some o) :
    (s.ram o i).flag .present = true := by
  by_contra habs
  rw [Bool.not_eq_true] at habs
  obtain _ | ⟨j, q⟩ := q
  · simp at hq
  obtain ⟨d, hd⟩ : ∃ d, d + 1 + q.length = 2 :=
    ⟨1 - q.length, by simp only [List.length_cons] at hq; omega⟩
  have ho : o < 2 ^ 40 := by
    have hne : j :: q ≠ [] := List.cons_ne_nil j q
    rw [← List.dropLast_append_getLast hne] at hqo
    obtain ⟨k, hk, -⟩ := exists_follow_of_append hqo
    rw [follow_concat hk] at hqo
    exact next_lt hqo
  -- the free pages are full of pointers to the table `o`
  obtain ⟨hact, hfresh', hok', hfollow⟩ := soil_keeps hfresh hok (pointer o)
  have hqo' := (hfollow (j :: q) (by simp only [List.length_cons] at hq ⊢; omega)).trans hqo
  have hoold : ¬ s.pmm.Free o := fun hfree => hfresh.fresh o hfree
    ⟨j :: q, by simp only [List.length_cons] at hq ⊢; omega, hqo⟩
  have hentry : ((s.soil (pointer o)).ram o i).flag .present = false := by
    rw [(sameButFree_soil s (pointer o)).ram o hoold]
    exact habs
  obtain ⟨g, hg, hc⟩ := clone_follow hfresh' hok' hd (hact ▸ hqo')
  -- the copy `g` of this table keeps the pointer to it
  have hgi := (hc.2 i).1 hentry
  rw [soil_of_free (s := s) _ hc.used] at hgi
  refine (h (pointer o)).apart o ⟨⟨(j :: q) ++ [i], ?_, ?_⟩, ⟨j :: q, ?_, hact ▸ hqo'⟩⟩
  · simp only [List.length_append, List.length_cons, List.length_nil] at hq ⊢
    omega
  · rw [follow_concat hg, hgi, next_pointer ho]
  · simp only [List.length_cons] at hq ⊢
    omega

/-- A lowest table in frame 0 is not copied at all. -/
theorem nonnull_of_exactCopy (hfresh : s.FreshFrames s.readActivePageMap.2)
    (hok : s.cloneActivePageMap.2 ≠ 0)
    (h : ∀ e, ExactCopy (s.soil e).ram (s.soil e).readActivePageMap.2
      (s.soil e).cloneActivePageMap.1.ram (s.soil e).cloneActivePageMap.2)
    {q : List (Fin 512)} (hq : q.length = 3) :
    follow next s.ram (frameOf s.readActivePageMap.2) q ≠ some 0 := by
  intro hq0
  -- the free pages are filled so that the leaf at index 0 changes
  obtain ⟨e, he⟩ : ∃ e : PageDirectoryEntry, e.flag .present ≠ (s.ram 0 0).flag .present := by
    cases hp : (s.ram 0 0).flag .present with
    | false => exact ⟨pointer 0, by rw [flag_pointer]; decide⟩
    | true => exact ⟨{}, by rw [PageDirectoryEntry.flag_zero]; decide⟩
  obtain ⟨hact, hfresh', hok', hfollow⟩ := soil_keeps hfresh hok e
  have hq0' := (hfollow q (by omega)).trans hq0
  have hold : ¬ s.pmm.Free 0 := fun hfree => hfresh.fresh 0 hfree ⟨q, by omega, hq0⟩
  obtain ⟨v, hv, hl⟩ := exists_pathOf q hq 0
  obtain _ | ⟨j, q⟩ := q
  · simp at hq
  obtain ⟨g, hg, hc⟩ := clone_follow (d := 0) hfresh' hok'
    (by simp only [List.length_cons] at hq; omega) (hact ▸ hq0')
  have hleaf := (h e).same v
  have hsome := congrArg Option.isSome hleaf
  rw [← hv] at hg hq0'
  rw [leafOf_isSome hg, leafOf_isSome (hact ▸ hq0'), hl, hc.2, if_pos rfl,
    soil_of_free (s := s) e hc.used, (sameButFree_soil s e).ram 0 hold] at hsome
  exact he hsome

/-- If the clone is exact whatever the free pages hold, the active page map has no gaps. -/
theorem noGaps_of_exactCopy (hfresh : s.FreshFrames s.readActivePageMap.2)
    (hok : s.cloneActivePageMap.2 ≠ 0)
    (h : ∀ t, SameButFree s t → t.cloneActivePageMap.2 ≠ 0 →
      ExactCopy t.ram t.readActivePageMap.2 t.cloneActivePageMap.1.ram t.cloneActivePageMap.2) :
    NoGaps s.ram s.readActivePageMap.2 := by
  have hsoil : ∀ e, ExactCopy (s.soil e).ram (s.soil e).readActivePageMap.2
      (s.soil e).cloneActivePageMap.1.ram (s.soil e).cloneActivePageMap.2 := fun e =>
    h _ (sameButFree_soil s e) (soil_keeps hfresh hok e).2.2.1
  exact ⟨fun q o i hq hqo => full_of_exactCopy hfresh hok hsoil hq hqo,
    fun q hq => nonnull_of_exactCopy hfresh hok hsoil hq⟩

end Clone

/-- A machine whose active page map has one page, so that its middle tables have gaps. -/
def gapped : Machine :=
  { (empty 50 60).map pageSize 0 0 presentWrite with pmm := (empty 2 20).pmm }

theorem gapped_clones : gapped.cloneActivePageMap.2 ≠ 0 := by decide +kernel

theorem gapped_spec : WellFormed gapped.ram gapped.readActivePageMap.2 ∧
    gapped.FreshFrames gapped.readActivePageMap.2 ∧
    ¬ NoGaps gapped.ram gapped.readActivePageMap.2 := by
  have hact : gapped.readActivePageMap.2 = pageSize := by decide +kernel
  obtain ⟨hext, -⟩ := map_spec (v := 0) (p := 0)
    (by decide : pageSize ≠ 0) (wellFormed_empty 50 60 _)
    (freshFrames_empty (by decide) (by decide))
    ((supply_empty (by decide)).mapSupplied (by decide) _ _ presentWrite) (by decide) (by decide)
  rw [hact]
  refine ⟨hext.wellFormed, ⟨by decide, fun f hf ht => ?_⟩, fun h => ?_⟩
  · have hf' := free_empty.1 hf
    rcases hext.tables f ht with hold | hnew
    · have : f = 1 := isTable_of_empty (fun _ => PageDirectoryEntry.next_zero) hold
      omega
    · have := (free_empty.1 hnew).1
      omega
  · have hpdp : follow next gapped.ram (frameOf pageSize) [0] = some 50 := by decide +kernel
    have hgap : (gapped.ram 50 1).flag .present = false := by decide +kernel
    rw [h.full [0] 50 1 (.inl rfl) hpdp] at hgap
    cases hgap

end Machine

open Machine

/-- **When `clone_active_page_map` is exact.**  Whatever the free pages hold, a clone that is not
null is an exact copy of the active page map, exactly if every table of the two middle levels of the
active page map is full and none of its lowest tables is the frame 0. -/
theorem cloneActivePageMap_exact_iff {s : Machine}
    (hfresh : s.FreshFrames s.readActivePageMap.2) (hok : s.cloneActivePageMap.2 ≠ 0) :
    (∀ t, SameButFree s t → t.cloneActivePageMap.2 ≠ 0 →
      ExactCopy t.ram t.readActivePageMap.2 t.cloneActivePageMap.1.ram t.cloneActivePageMap.2) ↔
      NoGaps s.ram s.readActivePageMap.2 := by
  refine ⟨noGaps_of_exactCopy hfresh hok, fun h t hsb hok' => ?_⟩
  have hact := hsb.read.2
  obtain ⟨hagree, hfresh'⟩ := hsb.keeps hfresh
  have h' : NoGaps t.ram t.readActivePageMap.2 := by
    rw [hact]
    constructor
    · intro q o i hq hqo
      rw [follow_eq_of_agree hagree (by omega)] at hqo
      rw [hagree o ⟨q, by omega, hqo⟩]
      exact h.full q o i hq hqo
    · intro q hq
      rw [follow_eq_of_agree hagree (by omega)]
      exact h.nonnull q hq
  exact exactCopy_of_covered hfresh' hok' fun i hi => h'.covered _ hi

theorem cloneActivePageMap_exact_iff_gapped :
    (∀ t, SameButFree gapped t → t.cloneActivePageMap.2 ≠ 0 →
      ExactCopy t.ram t.readActivePageMap.2 t.cloneActivePageMap.1.ram t.cloneActivePageMap.2) ↔
      NoGaps gapped.ram gapped.readActivePageMap.2 :=
  cloneActivePageMap_exact_iff gapped_spec.2.1 gapped_clones

/-- Clones of a page map with one page need not be exact. -/
theorem cloneActivePageMap_keeps_old_entries : ¬ ∀ s : Machine,
    WellFormed s.ram s.readActivePageMap.2 → s.FreshFrames s.readActivePageMap.2 →
    s.cloneActivePageMap.2 ≠ 0 →
    ExactCopy s.ram s.readActivePageMap.2 s.cloneActivePageMap.1.ram s.cloneActivePageMap.2 := by
  intro h
  obtain ⟨hwf, hfresh, hgaps⟩ := gapped_spec
  refine hgaps (noGaps_of_exactCopy hfresh gapped_clones fun t hsb hok => ?_)
  obtain ⟨hagree, hfresh'⟩ := hsb.keeps hfresh
  refine h t ?_ hfresh' hok
  rw [hsb.read.2]
  exact hwf.of_agree hagree

end Eterna
