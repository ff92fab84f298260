import Eterna.Library.TableWalk
import Mathlib.Data.Set.Insert

/-!
# Forests of tables

Several trees in one memory of tables, with a set of frames that none of them uses yet.

* `isTable_succ_iff`, `unshared_of_subtrees` : a tree is its root and the subtrees below it;
* `Forest` : the trees are unshared and have no table in common;
* `Forest.work` : work on one tree that takes only unused frames keeps the others as they are;
* `Forest.plant` : a new tree on unused frames;
* `Forest.of_agree` : changes outside all tables.
-/

namespace TableWalk

variable {F I E : Type*} {next : E → Option F} {M M' : Tables F I E} {d : ℕ} {r n f : F}

theorem isTable_succ_iff : IsTable next M (d + 1) r f ↔
    f = r ∨ ∃ i g, next (M r i) = some g ∧ IsTable next M d g f := by
  constructor
  · rintro ⟨p, hp, h⟩
    cases p with
    | nil => exact .inl (Option.some.inj h).symm
    | cons i p =>
      rw [follow_cons] at h
      obtain ⟨g, hg, h⟩ := Option.bind_eq_some_iff.1 h
      exact .inr ⟨i, g, hg, p, by simpa using hp, h⟩
  · rintro (rfl | ⟨i, g, hg, h⟩)
    · exact isTable_root _ _
    · exact h.below hg

theorem isTable_zero_iff : IsTable next M 0 r f ↔ f = r := by
  constructor
  · rintro ⟨p, hp, h⟩
    obtain rfl := List.length_eq_zero_iff.1 (Nat.le_zero.1 hp)
    exact (Option.some.inj h).symm
  · rintro rfl
    exact isTable_root 0 f

theorem unshared_zero : Unshared next M 0 r := by
  intro p q f hp hq _ _
  rw [List.length_eq_zero_iff.1 (Nat.le_zero.1 hp), List.length_eq_zero_iff.1 (Nat.le_zero.1 hq)]

/-- **A tree is unshared** if its subtrees are, no two of them have a table in common, and none of
them contains the root. -/
theorem unshared_of_subtrees
    (hsub : ∀ i g, next (M r i) = some g → Unshared next M d g)
    (hroot : ∀ i g, next (M r i) = some g → ¬ IsTable next M d g r)
    (hapart : ∀ i j g g', i ≠ j → next (M r i) = some g → next (M r j) = some g' →
      ∀ f, IsTable next M d g f → ¬ IsTable next M d g' f) :
    Unshared next M (d + 1) r := by
  intro p q f hp hq h h'
  cases p with
  | nil =>
    obtain rfl := Option.some.inj h
    cases q with
    | nil => rfl
    | cons j q =>
      rw [follow_cons] at h'
      obtain ⟨g, hg, h'⟩ := Option.bind_eq_some_iff.1 h'
      exact absurd ⟨q, by simpa using hq, h'⟩ (hroot j g hg)
  | cons i p =>
    rw [follow_cons] at h
    obtain ⟨g, hg, h⟩ := Option.bind_eq_some_iff.1 h
    have htable : IsTable next M d g f := ⟨p, by simpa using hp, h⟩
    cases q with
    | nil =>
      obtain rfl := Option.some.inj h'
      exact absurd htable (hroot i g hg)
    | cons j q =>
      rw [follow_cons] at h'
      obtain ⟨g', hg', h'⟩ := Option.bind_eq_some_iff.1 h'
      have hij : i = j := by
        by_contra hij
        exact hapart i j g g' hij hg hg' f htable ⟨q, by simpa using hq, h'⟩
      subst hij
      obtain rfl := Option.some.inj (hg.symm.trans hg')
      rw [hsub i g hg p q f (by simpa using hp) (by simpa using hq) h h']

/-- **A forest**: the trees at the roots are unshared, no two of them have a table in common, and
none of their tables is an unused frame. -/
structure Forest (next : E → Option F) (M : Tables F I E) (d : ℕ) (roots : Set F)
    (unused : F → Prop) : Prop where
  unshared : ∀ r ∈ roots, Unshared next M d r
  used : ∀ r ∈ roots, ∀ f, IsTable next M d r f → ¬ unused f
  apart : ∀ r ∈ roots, ∀ r' ∈ roots, r ≠ r' →
    ∀ f, IsTable next M d r f → ¬ IsTable next M d r' f

namespace Forest

variable {roots : Set F} {unused unused' : F → Prop}

/-- Changes outside all tables, with none of the tables given up. -/
theorem of_agree (h : Forest next M d roots unused)
    (hagree : ∀ r ∈ roots, ∀ f, IsTable next M d r f → M' f = M f)
    (hused : ∀ r ∈ roots, ∀ f, IsTable next M d r f → ¬ unused' f) :
    Forest next M' d roots unused' where
  unshared r hr := (h.unshared r hr).of_agree (hagree r hr)
  used r hr f hf := hused r hr f ((isTable_of_agree (hagree r hr)).1 hf)
  apart r hr r' hr' hne f hf hf' := h.apart r hr r' hr' hne f
    ((isTable_of_agree (hagree r hr)).1 hf) ((isTable_of_agree (hagree r' hr')).1 hf')

/-- The tree at `r` has been worked on: it has the tables it had and some that were unused, and
nothing else has changed. -/
structure Work (next : E → Option F) (M M' : Tables F I E) (d : ℕ) (r : F)
    (unused unused' : F → Prop) : Prop where
  unshared : Unshared next M' d r
  used : ∀ f, IsTable next M' d r f → ¬ unused' f
  tables : ∀ f, IsTable next M' d r f → IsTable next M d r f ∨ unused f
  elsewhere : ∀ f, ¬ IsTable next M d r f → ¬ unused f → M' f = M f
  unused_of : ∀ f, unused' f → unused f

/-- **Work on one tree** does not touch the others. -/
theorem work (h : Forest next M d roots unused) (hr : r ∈ roots)
    (hw : Work next M M' d r unused unused') : Forest next M' d roots unused' ∧
      ∀ r' ∈ roots, r' ≠ r → ∀ f, IsTable next M d r' f → M' f = M f := by
  have hagree : ∀ r' ∈ roots, r' ≠ r → ∀ f, IsTable next M d r' f → M' f = M f :=
    fun r' hr' hne f hf =>
      hw.elsewhere f (h.apart r' hr' r hr hne f hf) (h.used r' hr' f hf)
  have htables : ∀ r' ∈ roots, r' ≠ r → ∀ f, IsTable next M' d r' f → IsTable next M d r' f :=
    fun r' hr' hne f hf => (isTable_of_agree (hagree r' hr' hne)).1 hf
  -- a table of the tree is none of another one
  have hapart : ∀ r' ∈ roots, r' ≠ r → ∀ f, IsTable next M' d r f → ¬ IsTable next M' d r' f := by
    intro r' hr' hne f hf hf'
    have hold := htables r' hr' hne f hf'
    obtain hold' | hfree := hw.tables f hf
    · exact h.apart r' hr' r hr hne f hold hold'
    · exact h.used r' hr' f hold hfree
  refine ⟨⟨fun r' hr' => ?_, fun r' hr' f hf => ?_, fun r₁ hr₁ r₂ hr₂ hne f h₁ h₂ => ?_⟩, hagree⟩
  · by_cases hne : r' = r
    · exact hne ▸ hw.unshared
    · exact (h.unshared r' hr').of_agree (hagree r' hr' hne)
  · by_cases hne : r' = r
    · exact hw.used f (hne ▸ hf)
    · exact fun hfree => h.used r' hr' f (htables r' hr' hne f hf) (hw.unused_of f hfree)
  · by_cases h1 : r₁ = r
    · subst h1
      exact hapart r₂ hr₂ hne.symm f h₁ h₂
    · by_cases h2 : r₂ = r
      · subst h2
        exact hapart r₁ hr₁ h1 f h₂ h₁
      · exact h.apart r₁ hr₁ r₂ hr₂ hne f (htables r₁ hr₁ h1 f h₁) (htables r₂ hr₂ h2 f h₂)

/-- **A new tree** on frames that were unused. -/
theorem plant (h : Forest next M d roots unused) (hun : Unshared next M' d n)
    (hnew : ∀ f, IsTable next M' d n f → unused f ∧ ¬ unused' f)
    (helse : ∀ f, ¬ unused f → M' f = M f) (hunused : ∀ f, unused' f → unused f) :
    Forest next M' d (insert n roots) unused' := by
  have hagree : ∀ r ∈ roots, ∀ f, IsTable next M d r f → M' f = M f :=
    fun r hr f hf => helse f (h.used r hr f hf)
  have hold := h.of_agree hagree fun r hr f hf hfree => h.used r hr f hf (hunused f hfree)
  have hapart : ∀ r ∈ roots, ∀ f, IsTable next M' d n f → ¬ IsTable next M' d r f :=
    fun r hr f hf hf' => h.used r hr f ((isTable_of_agree (hagree r hr)).1 hf') (hnew f hf).1
  refine ⟨fun r hr => ?_, fun r hr f hf => ?_, fun r₁ hr₁ r₂ hr₂ hne f h₁ h₂ => ?_⟩
  · obtain rfl | hr := hr
    · exact hun
    · exact hold.unshared r hr
  · obtain rfl | hr := hr
    · exact (hnew f hf).2
    · exact hold.used r hr f hf
  · obtain rfl | hr₁ := hr₁ <;> obtain rfl | hr₂ := hr₂
    · exact hne rfl
    · exact hapart r₂ hr₂ f h₁ h₂
    · exact hapart r₁ hr₁ f h₂ h₁
    · exact hold.apart r₁ hr₁ r₂ hr₂ hne f h₁ h₂

end Forest

end TableWalk
