import Mathlib.Data.List.Basic
import Mathlib.Order.Nat
import Mathlib.Tactic.Common

/-!
# Walks through a memory of tables

A memory of tables maps a frame and an index to an entry; `next e` is the frame an entry points to,
if it points anywhere.  `follow next M r p` walks from the frame `r` along the indices `p`.  This is
the common core of multi-level page tables and of other radix trees kept in mutable memory.

* `follow_congr` : a walk depends only on the pointers it follows;
* `Unshared` : distinct index paths lead to distinct tables;
* `follow_write_of_next_eq`, `follow_write`, `follow_install` : the three edits of such a tree
  (rewrite an entry without moving its pointer, set an entry of the last level, hang an empty table
  below an entry that pointed nowhere) and what they do to every walk;
* `unshared_install` : hanging a fresh table keeps the tree unshared.
-/

namespace TableWalk

variable {F I E : Type*}

/-- A memory of tables. -/
abbrev Tables (F I E : Type*) := F → I → E

section Follow

variable (next : E → Option F) (M : Tables F I E)

/-- The frame reached from `f` along the indices of the path. -/
def follow : F → List I → Option F
  | f, [] => some f
  | f, i :: is => (next (M f i)).bind fun g => follow g is

/-- `f` is one of the tables of the tree at `r`, at depth at most `d`. -/
def IsTable (d : ℕ) (r f : F) : Prop := ∃ p, p.length ≤ d ∧ follow next M r p = some f

/-- No table of the tree at `r`, down to depth `d`, is reached along two paths. -/
def Unshared (d : ℕ) (r : F) : Prop :=
  ∀ p q f, p.length ≤ d → q.length ≤ d →
    follow next M r p = some f → follow next M r q = some f → p = q

end Follow

variable {next : E → Option F} {M M' : Tables F I E}

@[simp] theorem follow_nil (f : F) : follow next M f [] = some f := rfl

theorem follow_cons (f : F) (i : I) (is : List I) :
    follow next M f (i :: is) = (next (M f i)).bind fun g => follow next M g is := rfl

theorem follow_append (f : F) (p q : List I) :
    follow next M f (p ++ q) = (follow next M f p).bind fun g => follow next M g q := by
  induction p generalizing f with
  | nil => rfl
  | cons i p ih =>
    rw [List.cons_append, follow_cons, follow_cons, Option.bind_assoc]
    exact congrArg _ (funext ih)

theorem follow_append_of_eq {f g : F} {p : List I} (h : follow next M f p = some g) (q : List I) :
    follow next M f (p ++ q) = follow next M g q := by
  rw [follow_append, h, Option.bind_some]

theorem follow_concat {f g : F} {p : List I} (h : follow next M f p = some g) (i : I) :
    follow next M f (p ++ [i]) = next (M g i) := by
  rw [follow_append_of_eq h, follow_cons]
  cases next (M g i) <;> rfl

theorem exists_follow_of_append {f g : F} {p q : List I} (h : follow next M f (p ++ q) = some g) :
    ∃ k, follow next M f p = some k ∧ follow next M k q = some g := by
  rw [follow_append] at h
  exact Option.bind_eq_some_iff.1 h

theorem isTable_root (d : ℕ) (r : F) : IsTable next M d r r := ⟨[], Nat.zero_le _, rfl⟩

theorem eq_nil_of_empty {r f : F} {p : List I} (hr : ∀ i, next (M r i) = none)
    (h : follow next M r p = some f) : p = [] ∧ f = r := by
  cases p with
  | nil => exact ⟨rfl, (Option.some.inj h).symm⟩
  | cons i p => rw [follow_cons, hr] at h; cases h

theorem isTable_of_empty {d : ℕ} {r f : F} (hr : ∀ i, next (M r i) = none)
    (h : IsTable next M d r f) : f = r := by
  obtain ⟨p, -, h⟩ := h
  exact (eq_nil_of_empty hr h).2

theorem unshared_of_empty {r : F} (d : ℕ) (hr : ∀ i, next (M r i) = none) :
    Unshared next M d r := by
  intro p q f _ _ hp hq
  rw [(eq_nil_of_empty hr hp).1, (eq_nil_of_empty hr hq).1]

/-- **A walk depends only on the pointers it follows.** -/
theorem follow_congr {r : F} {p : List I}
    (h : ∀ q i s f, p = q ++ i :: s → follow next M r q = some f →
      next (M' f i) = next (M f i)) :
    follow next M' r p = follow next M r p := by
  induction p generalizing r with
  | nil => rfl
  | cons i p ih =>
    rw [follow_cons, follow_cons, h [] i p r rfl rfl]
    cases hn : next (M r i) with
    | none => rfl
    | some g =>
      refine ih fun q j s f hp hq => h (i :: q) j s f (by rw [hp]; rfl) ?_
      rw [follow_cons, hn]; exact hq

theorem follow_eq_of_agree {d : ℕ} {r : F} (h : ∀ f, IsTable next M d r f → M' f = M f)
    {p : List I} (hp : p.length ≤ d + 1) : follow next M' r p = follow next M r p := by
  refine follow_congr fun q i s f he hq => ?_
  have hlen := congrArg List.length he
  simp only [List.length_append, List.length_cons] at hlen
  rw [h f ⟨q, by omega, hq⟩]

theorem IsTable.mono {d e : ℕ} {r f : F} (h : IsTable next M d r f) (hde : d ≤ e) :
    IsTable next M e r f := by
  obtain ⟨p, hp, h⟩ := h
  exact ⟨p, by omega, h⟩

theorem IsTable.below {d : ℕ} {r g f : F} {i : I} (h : IsTable next M d g f)
    (hi : next (M r i) = some g) : IsTable next M (d + 1) r f := by
  obtain ⟨p, hp, h⟩ := h
  exact ⟨i :: p, by simpa using hp, by rw [follow_cons, hi]; exact h⟩

theorem Unshared.below {d : ℕ} {r g : F} {i : I} (hu : Unshared next M (d + 1) r)
    (hi : next (M r i) = some g) : Unshared next M d g := by
  intro p q f hp hq h h'
  have := hu (i :: p) (i :: q) f (by simpa using hp) (by simpa using hq)
    (by rw [follow_cons, hi]; exact h) (by rw [follow_cons, hi]; exact h')
  exact (List.cons.inj this).2

theorem Unshared.root_not_below {d : ℕ} {r g : F} {i : I} (hu : Unshared next M (d + 1) r)
    (hi : next (M r i) = some g) : ¬ IsTable next M d g r := by
  rintro ⟨p, hp, h⟩
  have := hu (i :: p) [] r (by simpa using hp) (Nat.zero_le _)
    (by rw [follow_cons, hi]; exact h) rfl
  cases this

theorem isTable_of_agree {d : ℕ} {r f : F} (h : ∀ f, IsTable next M d r f → M' f = M f) :
    IsTable next M' d r f ↔ IsTable next M d r f := by
  constructor
  · rintro ⟨p, hp, hf⟩; exact ⟨p, hp, by rwa [follow_eq_of_agree h (by omega)] at hf⟩
  · rintro ⟨p, hp, hf⟩; exact ⟨p, hp, by rwa [follow_eq_of_agree h (by omega)]⟩

theorem Unshared.of_agree {d : ℕ} {r : F} (hu : Unshared next M d r)
    (h : ∀ f, IsTable next M d r f → M' f = M f) : Unshared next M' d r := by
  intro p q f hp hq hf hf'
  rw [follow_eq_of_agree h (by omega)] at hf hf'
  exact hu p q f hp hq hf hf'

section Fill

variable [DecidableEq F]

/-- Replace the whole table `f`. -/
def fill (M : Tables F I E) (f : F) (t : I → E) : Tables F I E :=
  fun g => if g = f then t else M g

@[simp] theorem fill_self (M : Tables F I E) (f : F) (t : I → E) : fill M f t f = t := by
  simp [fill]

theorem fill_of_ne (M : Tables F I E) {f g : F} (t : I → E) (h : g ≠ f) : fill M f t g = M g :=
  if_neg h

theorem follow_fill {d : ℕ} {r n : F} {t : I → E} (hn : ¬ IsTable next M d r n) {q : List I}
    (hq : q.length ≤ d + 1) : follow next (fill M n t) r q = follow next M r q :=
  follow_eq_of_agree (fun f hf => fill_of_ne M t fun h => hn (by rwa [h] at hf)) hq

theorem unshared_fill {d : ℕ} {r n : F} {t : I → E} (hu : Unshared next M d r)
    (hn : ¬ IsTable next M d r n) : Unshared next (fill M n t) d r :=
  hu.of_agree fun f hf => fill_of_ne M t fun h => hn (by rwa [h] at hf)

end Fill

section Edit

variable [DecidableEq F] [DecidableEq I]

/-- Store the entry `e` at index `i` of table `f`. -/
def write (M : Tables F I E) (f : F) (i : I) (e : E) : Tables F I E :=
  fun g j => if g = f ∧ j = i then e else M g j

@[simp] theorem write_self (M : Tables F I E) (f : F) (i : I) (e : E) : write M f i e f i = e := by
  simp [write]

theorem write_of_ne (M : Tables F I E) {f g : F} {i j : I} (e : E) (h : ¬ (g = f ∧ j = i)) :
    write M f i e g j = M g j := if_neg h

omit [DecidableEq F] [DecidableEq I] in
theorem not_concat_prefix (p : List I) (i : I) : ¬ p ++ [i] <+: p := fun h => by
  have := h.length_le
  rw [List.length_append, List.length_singleton] at this
  omega

theorem follow_write_of_next_eq {f : F} {i : I} {e : E} (h : next e = next (M f i)) (r : F)
    (p : List I) : follow next (write M f i e) r p = follow next M r p := by
  refine follow_congr fun q j s g _ _ => ?_
  by_cases hgj : g = f ∧ j = i
  · obtain ⟨rfl, rfl⟩ := hgj; rw [write_self, h]
  · rw [write_of_ne _ _ hgj]

/-- Rewriting an entry of the table at path `p` changes only the walks through that entry. -/
theorem follow_write_off_path {d : ℕ} {r f : F} {p q : List I} {i : I} {e : E}
    (hu : Unshared next M d r) (hp : follow next M r p = some f) (hpd : p.length ≤ d)
    (hq : q.length ≤ d + 1) (hpre : ¬ p ++ [i] <+: q) :
    follow next (write M f i e) r q = follow next M r q := by
  refine follow_congr fun q₀ j s g he hg => ?_
  have hlen := congrArg List.length he
  simp only [List.length_append, List.length_cons] at hlen
  rw [write_of_ne]
  rintro ⟨rfl, rfl⟩
  have hqp : q₀ = p := hu q₀ p g (by omega) hpd hg hp
  exact hpre ⟨s, by rw [he, hqp, List.append_assoc]; rfl⟩

/-- **Setting an entry of the last level** changes the one walk that ends in it. -/
theorem follow_write {d : ℕ} {r f : F} {p q : List I} {i : I} {e : E}
    (hu : Unshared next M d r) (hp : follow next M r p = some f) (hpd : p.length = d)
    (hq : q.length ≤ d + 1) :
    follow next (write M f i e) r q = if q = p ++ [i] then next e else follow next M r q := by
  split_ifs with h
  · subst h
    have hpp : follow next (write M f i e) r p = some f := by
      rw [follow_write_off_path hu hp hpd.le (by omega), hp]
      exact fun h => not_concat_prefix p i h
    rw [follow_concat hpp, write_self]
  · refine follow_write_off_path hu hp hpd.le hq fun hpre => h ?_
    refine (hpre.eq_of_length ?_).symm
    have := hpre.length_le
    simp only [List.length_append, List.length_singleton] at this ⊢
    omega

theorem unshared_write_last {d : ℕ} {r f : F} {p : List I} {i : I} {e : E}
    (hu : Unshared next M d r) (hp : follow next M r p = some f) (hpd : p.length = d) :
    Unshared next (write M f i e) d r := by
  intro q q' g hq hq' h h'
  rw [follow_write hu hp hpd (by omega)] at h h'
  rw [if_neg (by rintro rfl; rw [List.length_append, List.length_singleton] at hq; omega)] at h
  rw [if_neg (by rintro rfl; rw [List.length_append, List.length_singleton] at hq'; omega)] at h'
  exact hu q q' g hq hq' h h'

theorem isTable_write_last {d : ℕ} {r f g : F} {p : List I} {i : I} {e : E}
    (hu : Unshared next M d r) (hp : follow next M r p = some f) (hpd : p.length = d)
    (hg : IsTable next (write M f i e) d r g) : IsTable next M d r g := by
  obtain ⟨q, hq, h⟩ := hg
  rw [follow_write hu hp hpd (by omega)] at h
  rw [if_neg (by rintro rfl; rw [List.length_append, List.length_singleton] at hq; omega)] at h
  exact ⟨q, hq, h⟩

/-- **Hanging an empty table** `n` below an entry that pointed nowhere adds one walk, the one that
ends in the new table. -/
theorem follow_install {d : ℕ} {r f n : F} {p q : List I} {i : I} {e : E} {t : I → E}
    (hu : Unshared next M d r) (hp : follow next M r p = some f) (hpd : p.length ≤ d)
    (hn : ¬ IsTable next M d r n) (hnone : next (M f i) = none) (he : next e = some n)
    (ht : ∀ j, next (t j) = none) (hq : q.length ≤ d + 1) :
    follow next (write (fill M n t) f i e) r q =
      if q = p ++ [i] then some n else follow next M r q := by
  have hnf : f ≠ n := fun h => hn (h ▸ ⟨p, hpd, hp⟩)
  have hu' := unshared_fill (t := t) hu hn
  have hp' : follow next (fill M n t) r p = some f := by rw [follow_fill hn (by omega), hp]
  by_cases hpre : p ++ [i] <+: q
  · obtain ⟨s, rfl⟩ := hpre
    have hpp : follow next (write (fill M n t) f i e) r p = some f := by
      rw [follow_write_off_path hu' hp' hpd (by omega), hp']
      exact fun h => not_concat_prefix p i h
    have hpi : follow next (write (fill M n t) f i e) r (p ++ [i]) = some n := by
      rw [follow_concat hpp, write_self, he]
    cases s with
    | nil => rw [List.append_nil, if_pos rfl, hpi]
    | cons j s =>
      have hold : follow next M r (p ++ [i]) = none := by rw [follow_concat hp, hnone]
      rw [follow_append_of_eq hpi, follow_cons, write_of_ne _ _ (fun h => hnf h.1.symm), fill_self,
        ht, if_neg (by simp), follow_append, hold]
      rfl
  · rw [if_neg (fun h => hpre ⟨[], by rw [h, List.append_nil]⟩),
      follow_write_off_path hu' hp' hpd hq hpre,
      follow_fill hn hq]

/-- Hanging a fresh table keeps the tree unshared. -/
theorem unshared_install {d : ℕ} {r f n : F} {p : List I} {i : I} {e : E} {t : I → E}
    (hu : Unshared next M d r) (hp : follow next M r p = some f) (hpd : p.length ≤ d)
    (hn : ¬ IsTable next M d r n) (hnone : next (M f i) = none) (he : next e = some n)
    (ht : ∀ j, next (t j) = none) : Unshared next (write (fill M n t) f i e) d r := by
  intro q q' g hq hq' h h'
  rw [follow_install hu hp hpd hn hnone he ht (by omega)] at h h'
  split_ifs at h h' with h1 h2 h2
  · rw [h1, h2]
  · cases h; exact absurd ⟨q', hq', h'⟩ hn
  · cases h'; exact absurd ⟨q, hq, h⟩ hn
  · exact hu q q' g hq hq' h h'

/-- The tables after hanging `n`: `n`, if it is not too deep, and those before. -/
theorem isTable_install {d : ℕ} {r f n g : F} {p : List I} {i : I} {e : E} {t : I → E}
    (hu : Unshared next M d r) (hp : follow next M r p = some f) (hpd : p.length ≤ d)
    (hn : ¬ IsTable next M d r n) (hnone : next (M f i) = none) (he : next e = some n)
    (ht : ∀ j, next (t j) = none) (hg : IsTable next (write (fill M n t) f i e) d r g) :
    g = n ∨ IsTable next M d r g := by
  obtain ⟨q, hq, h⟩ := hg
  rw [follow_install hu hp hpd hn hnone he ht (by omega)] at h
  split_ifs at h
  · cases h; exact .inl rfl
  · exact .inr ⟨q, hq, h⟩

end Edit

end TableWalk
