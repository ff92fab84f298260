import Eterna.Serial.Numerals

/-!
# The buffers of the numerals

The static buffers of `cstr.cc` have `TO_STRING_BUF_SZ` bytes each, and callers read their texts up
to the terminator.

* `toString_fits_iff` : which numerals fit, with their signs and terminators;
* `toStringSigned_canonical_iff` : which signed numbers are read back from their texts;
* `numerals_canonical` : unsigned and hexadecimal numerals are all read back.
-/

namespace Eterna

open ByteMemory CStrings Numerals

/-- Whatever the buffer holds, nothing is written from place `n` on. -/
def WritesWithin (n : ℕ) (write : Memory → Memory) : Prop :=
  ∀ buf x, n ≤ x → write buf x = buf x

variable {w n : ℕ} {buf : Memory}

theorem writesWithin_iff {write : Memory → Memory} {s : Text}
    (hend : ∀ buf, CString (.ofMemory (write buf)) 0 s)
    (hbehind : ∀ buf x, s.length < x → write buf x = buf x) :
    WritesWithin n write ↔ s.length < n := by
  constructor
  · intro h
    by_contra hlen
    -- the terminator is written whatever was there before
    have hkept := h (fun _ => 1) s.length (Nat.le_of_not_lt hlen)
    have hzero := (hend fun _ => 1).drop le_rfl
    rw [Nat.zero_add, List.drop_length] at hzero
    have hzero : write (fun _ => 1) s.length = 0 := Option.some.inj hzero
    rw [hzero] at hkept
    exact absurd hkept (by decide)
  · intro hlen buf x hx
    exact hbehind buf x (by omega)

/-! ### Signed numbers -/

theorem length_signedDecimal_lt_iff {z : ℤ} :
    (signedDecimal z).length < 20 ↔ -10 ^ 18 < z ∧ z < 10 ^ 19 := by
  have hdigits (k : ℕ) (hk : 0 < k) : (decimal z.natAbs).length ≤ k ↔ z.natAbs < 10 ^ k :=
    length_decimal_le_iff hk
  have h18 := hdigits 18 (by decide)
  have h19 := hdigits 19 (by decide)
  rw [signedDecimal, List.length_append]
  split_ifs with hneg
  · rw [List.length_singleton]
    omega
  · rw [List.length_nil]
    omega

/-- The negation of `-2 ^ 63` wraps, and the terminator is behind the buffer. -/
theorem not_writesWithin_of_minimum {v : BitVec w} (hw : w ≤ 64) (hmin : v.toInt = -2 ^ 63) :
    ¬ WritesWithin toStringBufSz (toStringSigned · v) := by
  intro h
  have hkept : toStringSigned (fun _ => 1) v 20 = 1 := h (fun _ => 1) 20 le_rfl
  rw [toStringSigned_minimum v hw hmin, Function.update_self] at hkept
  exact absurd hkept (by decide)

theorem toInt_lt (v : BitVec w) (hw : w ≤ 64) : v.toInt < 10 ^ 19 := by
  have hlt := BitVec.two_mul_toInt_lt (x := v)
  have hpow : (2 : ℤ) ^ w ≤ 2 ^ 64 := by exact_mod_cast Nat.pow_le_pow_right Nat.two_pos hw
  omega

/-! ### What fits -/

theorem toStringUnsigned_fits_iff (hw : w ≤ 64) (v : BitVec w) :
    WritesWithin toStringBufSz (toStringUnsigned · v) ↔ v.toNat < 10 ^ 19 := by
  rw [writesWithin_iff (fun _ => toStringUnsigned_text v hw)
    fun _ _ => toStringUnsigned_behind v hw, ← length_decimal_le_iff (by decide)]
  exact Nat.lt_succ_iff

theorem toStringSigned_fits_iff (hw : w ≤ 64) (v : BitVec w) :
    WritesWithin toStringBufSz (toStringSigned · v) ↔ -10 ^ 18 < v.toInt := by
  have hlt := toInt_lt v hw
  by_cases hmin : v.toInt = -2 ^ 63
  · refine iff_of_false (not_writesWithin_of_minimum hw hmin) ?_
    rw [hmin]
    decide
  · rw [writesWithin_iff (fun _ => toStringSigned_text v hw hmin)
      fun _ => (toStringSigned_spec v hw hmin).2]
    exact length_signedDecimal_lt_iff.trans (and_iff_left hlt)

theorem toHexstring_fits (v : BitVec 64) (capital : Bool) :
    WritesWithin toStringBufSz (toHexstringCase · v capital) := by
  intro buf x hx
  refine (putHexDigitsOf_spec v).2.2 x (.inr ?_)
  unfold toStringBufSz at hx
  omega

/-- **A numeral stays in its buffer** of 20 bytes exactly if it has at most 19 characters: unsigned
numbers below `10 ^ 19`, signed ones above `-10 ^ 18`, and all hexadecimal ones. -/
theorem toString_fits_iff (hw : w ≤ 64) (v : BitVec w) :
    (WritesWithin toStringBufSz (toStringUnsigned · v) ↔ v.toNat < 10 ^ 19) ∧
      (WritesWithin toStringBufSz (toStringSigned · v) ↔ -10 ^ 18 < v.toInt) ∧
      ∀ (u : BitVec 64) (capital : Bool),
        WritesWithin toStringBufSz (toHexstringCase · u capital) :=
  ⟨toStringUnsigned_fits_iff hw v, toStringSigned_fits_iff hw v, toHexstring_fits⟩

theorem toString_fits_iff_short :
    WritesWithin toStringBufSz (toStringUnsigned · 4294967295#32) ∧
      WritesWithin toStringBufSz (toStringSigned · (-999999999999999999#64)) :=
  ⟨(toString_fits_iff (by decide) 4294967295#32).1.2 (by decide),
    (toString_fits_iff (by decide) (-999999999999999999#64)).2.1.2 (by decide)⟩

/-- The greatest number has 20 digits, and its terminator is written behind the buffer. -/
theorem greatest_overflows : ¬ ∀ v : BitVec 64,
    WritesWithin toStringBufSz (toStringUnsigned · v) ∧
      WritesWithin toStringBufSz (toStringSigned · v) ∧
      ∀ capital, WritesWithin toStringBufSz (toHexstringCase · v capital) := by
  intro h
  have hlt := (toStringUnsigned_fits_iff le_rfl _).1 (h 18446744073709551615#64).1
  exact absurd hlt (by decide)

/-! ### Reading back -/

/-- **A signed number is read back** from its text exactly if it is not `-2 ^ 63`. -/
theorem toStringSigned_canonical_iff (buf : Memory) (v : BitVec 64) :
    (∃ s, CString (.ofMemory (toStringSigned buf v)) 0 s ∧ IsSignedDecimal v.toInt s ∧
      readSigned s = some v.toInt) ↔ v.toInt ≠ -2 ^ 63 := by
  constructor
  · rintro ⟨s, hs, hcanonical, -⟩ hmin
    exact (ne_of_minimum le_rfl hmin hs).2 (isSignedDecimal_iff.1 hcanonical)
  · intro hmin
    exact ⟨_, toStringSigned_text v le_rfl hmin, isSignedDecimal_iff.2 rfl,
      readSigned_signedDecimal⟩

/-- `-2 ^ 63` is its own negation. -/
theorem minimum_not_canonical : ¬ ∀ (buf : Memory) (v : BitVec 64),
    ∃ s, CString (.ofMemory (toStringSigned buf v)) 0 s ∧ IsSignedDecimal v.toInt s ∧
      readSigned s = some v.toInt := by
  intro h
  obtain ⟨s, hs, hcanonical, -⟩ := h (fun _ => 0) (.intMin 64)
  exact (ne_of_minimum le_rfl (by decide) hs).2 (isSignedDecimal_iff.1 hcanonical)

theorem digitValue_hexmap (capital : Bool) :
    ∀ d < 16, digitValue ((if capital then hexmapCapital else hexmap).getD d 0) = some d ∧
      IsHexDigit capital ((if capital then hexmapCapital else hexmap).getD d 0) := by
  revert capital
  decide

theorem toHexstring_canonical (buf : Memory) (v : BitVec 64) (capital : Bool) :
    ∃ s, CString (.ofMemory (toHexstringCase buf v capital)) 0 s ∧ s.length = 16 ∧
      (∀ b ∈ s, IsHexDigit capital b) ∧ read 16 s = some v.toNat := by
  have hdigit := digitValue_hexmap capital
  generalize hmap : (if capital then hexmapCapital else hexmap) = map at hdigit
  obtain ⟨hbytes, hend, -⟩ := @putHexDigitsOf_spec buf map 16 0 v
  have hmem : ∀ b ∈ fixedWidth 16 (map.getD · 0) 16 v.toNat, IsHexDigit capital b := by
    intro b hb
    obtain ⟨d, hd, rfl⟩ := exists_of_mem_fixedWidth (by decide) hb
    exact (hdigit d hd).2
  rw [toHexstringCase, hmap]
  refine ⟨fixedWidth 16 (map.getD · 0) 16 v.toNat, .of_bytes ?_ ?_ ?_, length_fixedWidth, hmem, ?_⟩
  · rwa [length_fixedWidth]
  · rwa [length_fixedWidth]
  · intro h0
    exact not_isHexDigit_zero (hmem 0 h0)
  · have hv : v.toNat < 16 ^ 16 := v.isLt
    rw [read_fixedWidth (by decide) fun d hd => (hdigit d hd).1, Nat.mod_eq_of_lt hv]

/-- **Unsigned and hexadecimal numerals are read back**: the decimal one is canonical, and the
hexadecimal one has 16 digits. -/
theorem numerals_canonical (buf : Memory) (v : BitVec 64) :
    (∃ s, CString (.ofMemory (toStringUnsigned buf v)) 0 s ∧ IsDecimal v.toNat s) ∧
      ∀ capital, ∃ s, CString (.ofMemory (toHexstringCase buf v capital)) 0 s ∧ s.length = 16 ∧
        (∀ b ∈ s, IsHexDigit capital b) ∧ read 16 s = some v.toNat :=
  ⟨⟨_, toStringUnsigned_text v le_rfl, isDecimal_iff.2 rfl⟩, toHexstring_canonical buf v⟩

end Eterna
