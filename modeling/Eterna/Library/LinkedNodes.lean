import Mathlib.Data.List.Nodup
import Mathlib.Data.Nat.Notation
import Mathlib.Logic.Function.Basic
import Mathlib.Tactic.Common

/-!
# Singly linked nodes

A store maps addresses to nodes, each of which has a value and the address of the next node, zero at
the end.

* `Path nodes a cells b` : from `a`, following the links passes through `cells` and arrives at `b`;
* `Path.append_iff` : a path can be cut anywhere;
* `Path.nodup` : a path that comes to an end passes through no node twice;
* `Path.relink` : the one rule for edits.  Redirecting the last node of a path redirects the path;
* `Path.bypass` : redirecting a node past the next one takes that out of the path.
-/

namespace LinkedNodes

/-- A node. -/
structure Node (α : Type*) where
  /-- The value. -/
  data : α
  /-- The address of the next node, or zero. -/
  next : ℕ

/-- A node by its address, where there is one. -/
abbrev Nodes (α : Type*) := ℕ → Option (Node α)

variable {α : Type*} {nodes nodes' : Nodes α} {a b c p q : ℕ} {x y : α}
  {cells cells' pre post : List (ℕ × α)}

/-- Following the links from `a` passes through the nodes `cells`, given with their values, and
arrives at `b`. -/
def Path (nodes : Nodes α) : ℕ → List (ℕ × α) → ℕ → Prop
  | a, [], b => a = b
  | a, (c, x) :: rest, b => a = c ∧ c ≠ 0 ∧ ∃ next, nodes c = some ⟨x, next⟩ ∧
    Path nodes next rest b

@[simp] theorem path_nil : Path nodes a [] b ↔ a = b := Iff.rfl

@[simp] theorem path_cons : Path nodes a ((c, x) :: cells) b ↔
    a = c ∧ c ≠ 0 ∧ ∃ next, nodes c = some ⟨x, next⟩ ∧ Path nodes next cells b := Iff.rfl

namespace Path

theorem append_iff :
    Path nodes a (pre ++ post) b ↔ ∃ c, Path nodes a pre c ∧ Path nodes c post b := by
  induction pre generalizing a with
  | nil => simp
  | cons cell pre ih =>
    obtain ⟨c, x⟩ := cell
    simp only [List.cons_append, path_cons, ih]
    constructor
    · rintro ⟨ha, hc, next, hn, d, hpre, hpost⟩
      exact ⟨d, ⟨ha, hc, next, hn, hpre⟩, hpost⟩
    · rintro ⟨d, ⟨ha, hc, next, hn, hpre⟩, hpost⟩
      exact ⟨ha, hc, next, hn, d, hpre, hpost⟩

theorem middle (h : Path nodes a (pre ++ (p, x) :: post) b) : p ≠ 0 ∧
    Path nodes a pre p ∧ ∃ next, nodes p = some ⟨x, next⟩ ∧ Path nodes next post b := by
  obtain ⟨c, hpre, rfl, hp, hnext⟩ := append_iff.mp h
  exact ⟨hp, hpre, hnext⟩

theorem ne_zero (h : Path nodes a cells b) {cell : ℕ × α} (hcell : cell ∈ cells) : cell.1 ≠ 0 := by
  obtain ⟨pre, post, rfl⟩ := List.append_of_mem hcell
  exact h.middle.1

theorem isSome (h : Path nodes a cells b) {cell : ℕ × α} (hcell : cell ∈ cells) :
    nodes cell.1 ≠ none := by
  obtain ⟨pre, post, rfl⟩ := List.append_of_mem hcell
  obtain ⟨-, -, next, hnode, -⟩ := h.middle
  rw [hnode]
  exact Option.some_ne_none _

theorem eq_zero_iff (h : Path nodes a cells 0) : a = 0 ↔ cells = [] := by
  cases cells with
  | nil => exact iff_of_true h rfl
  | cons cell rest =>
    obtain ⟨rfl, hc, -⟩ := h
    exact iff_of_false hc (List.cons_ne_nil _ _)

theorem exists_head (h : Path nodes a cells b) (hne : cells ≠ []) :
    ∃ node, nodes a = some node := by
  cases cells with
  | nil => exact absurd rfl hne
  | cons cell rest =>
    obtain ⟨rfl, -, next, hnode, -⟩ := h
    exact ⟨_, hnode⟩

theorem congr (h : Path nodes a cells b) (heq : ∀ cell ∈ cells, nodes' cell.1 = nodes cell.1) :
    Path nodes' a cells b := by
  induction cells generalizing a with
  | nil => exact h
  | cons cell rest ih =>
    obtain ⟨rfl, hc, next, hnode, hrest⟩ := h
    refine ⟨rfl, hc, next, ?_, ih hrest fun cell hcell => heq cell (.tail _ hcell)⟩
    rw [← hnode]
    exact heq _ (.head _)

theorem unique (h : Path nodes a cells 0) (h' : Path nodes a cells' 0) : cells = cells' := by
  induction cells generalizing a cells' with
  | nil => exact ((h'.eq_zero_iff).mp h).symm
  | cons cell rest ih =>
    obtain ⟨rfl, hc, next, hnode, hrest⟩ := h
    cases cells' with
    | nil => exact absurd h' hc
    | cons cell' rest' =>
      obtain ⟨c', x'⟩ := cell'
      obtain ⟨rfl, -, next', hnode', hrest'⟩ := h'
      obtain ⟨rfl, rfl⟩ := Node.mk.inj (Option.some.inj (hnode.symm.trans hnode'))
      rw [ih hrest hrest']

/-- A path that comes to an end passes through no node twice. -/
theorem nodup (h : Path nodes a cells 0) : (cells.map Prod.fst).Nodup := by
  induction cells generalizing a with
  | nil => exact .nil
  | cons cell rest ih =>
    obtain ⟨c, x⟩ := cell
    have hfirst := h
    obtain ⟨rfl, hc, next, hnode, hrest⟩ := h
    refine List.nodup_cons.mpr ⟨fun hmem => ?_, ih hrest⟩
    -- a second visit would be followed by the same path as the first
    obtain ⟨⟨d, y⟩, hcell, rfl⟩ := List.mem_map.mp hmem
    obtain ⟨pre, post, rfl⟩ := List.append_of_mem hcell
    obtain ⟨e, -, hsecond⟩ := append_iff.mp hrest
    obtain rfl : e = d := hsecond.1
    have hlen := congrArg List.length (hfirst.unique hsecond)
    simp only [List.length_cons, List.length_append] at hlen
    omega

theorem ne_middle (h : Path nodes a (pre ++ (p, x) :: post) 0) {cell : ℕ × α}
    (hcell : cell ∈ pre ++ post) : cell.1 ≠ p := by
  have hnodup := h.nodup
  rw [List.map_append, List.map_cons, List.nodup_middle, ← List.map_append] at hnodup
  exact fun he => (List.nodup_cons.mp hnodup).1 (List.mem_map.mpr ⟨cell, hcell, he⟩)

theorem relink (h : Path nodes a (cells ++ [(p, x)]) b)
    (hnode : nodes' p = some ⟨x, q⟩) (heq : ∀ cell ∈ cells, nodes' cell.1 = nodes cell.1) :
    Path nodes' a (cells ++ [(p, x)]) q := by
  obtain ⟨hp0, hcells, -⟩ := h.middle
  exact append_iff.mpr ⟨p, hcells.congr heq, rfl, hp0, q, hnode, rfl⟩

/-- Redirecting a node past the next one takes that out of the path. -/
theorem bypass (h : Path nodes a (pre ++ (p, x) :: (c, y) :: post) 0)
    (hpost : Path nodes q post 0) :
    Path (Function.update nodes p (some ⟨x, q⟩)) a (pre ++ (p, x) :: post) 0 := by
  have hother : ∀ cell ∈ pre ++ post,
      Function.update nodes p (some ⟨x, q⟩) cell.1 = nodes cell.1 := by
    intro cell hcell
    refine Function.update_of_ne (h.ne_middle ?_) ..
    rw [List.mem_append] at hcell ⊢
    exact hcell.imp_right (.tail _)
  rw [List.append_cons] at h ⊢
  obtain ⟨_, hfront, -⟩ := append_iff.mp h
  refine append_iff.mpr ⟨q, hfront.relink (Function.update_self ..) fun cell hcell => ?_,
    hpost.congr fun cell hcell => ?_⟩
  · exact hother cell (List.mem_append_left _ hcell)
  · exact hother cell (List.mem_append_right _ hcell)

end Path

end LinkedNodes
