import Eterna.Library.Numerals
import Eterna.Serial.Cstr

/-!
# The texts of numbers

What `to_string` and `to_hexstring` leave in their buffers.  The digits go to the buffer from the
last one to the first, so that the first one lies where the sign ends (`putDigits_spec`).

* `toStringUnsigned_text`, `toStringSigned_text` : the decimal numeral of the number;
* `toStringSigned_minimum` : of `-2 ^ 63`, which is its own negation, the last digit is wrong;
* `toHexstring_text` : sixteen hexadecimal digits.
-/

namespace Eterna

open ByteMemory CStrings Numerals

variable {top index first value fuel x : ℕ} {buf : Memory} {w : ℕ}

theorem digit_natCast (h : value < 10) : digit value = UInt8.ofNat (48 + value) := by
  rw [digit]
  exact congrArg UInt8.ofNat (by omega)

theorem countDigits_add_one (hfuel : (decimal value).length ≤ fuel) :
    countDigits fuel value + 1 = (decimal value).length := by
  induction fuel generalizing value with
  | zero => exact absurd hfuel (Nat.not_le_of_gt length_decimal_pos)
  | succ fuel ih =>
    rw [countDigits]
    obtain hlt | hle := Nat.lt_or_ge value 10
    · rw [if_neg (by omega), decimal_of_lt hlt]
      rfl
    · rw [length_decimal_of_le hle] at hfuel ⊢
      rw [if_pos (Nat.div_pos hle (by decide)), ih (Nat.le_of_succ_le_succ hfuel)]

/-- The loop writes the numeral from `first` on, and nothing else. -/
theorem putDigits_spec (hfuel : (decimal value).length ≤ fuel)
    (hfirst : first + (decimal value).length + index = top + 1) :
    bytes (putDigits top fuel index value buf) first (decimal value).length = decimal value ∧
      ∀ x, x < first ∨ first + (decimal value).length ≤ x →
        putDigits top fuel index value buf x = buf x := by
  induction fuel generalizing index value buf with
  | zero => exact absurd hfuel (Nat.not_le_of_gt length_decimal_pos)
  | succ fuel ih =>
    have hmod : digit ((value : ℤ).tmod 10) = UInt8.ofNat (48 + value % 10) :=
      digit_natCast (Nat.mod_lt value (by decide))
    have hdiv : (value : ℤ).tdiv 10 = (value / 10 : ℕ) := rfl
    rw [putDigits, hmod, hdiv]
    obtain hlt | hle := Nat.lt_or_ge value 10
    · rw [decimal_of_lt hlt] at hfirst ⊢
      rw [List.length_singleton] at hfirst ⊢
      have htop : top - index = first := by omega
      rw [if_neg (by omega), htop, Nat.mod_eq_of_lt hlt]
      refine ⟨?_, fun x hx => Function.update_of_ne (by omega) _ _⟩
      exact congrArg (fun b => [b]) (Function.update_self ..)
    · have hlen := length_decimal_of_le hle
      rw [hlen] at hfuel hfirst ⊢
      have htop : top - index = first + (decimal (value / 10)).length := by omega
      obtain ⟨hbytes, hother⟩ := @ih (index + 1) (value / 10)
        (Function.update buf (top - index) (UInt8.ofNat (48 + value % 10)))
        (Nat.le_of_succ_le_succ hfuel) (by omega)
      rw [if_pos (by omega)]
      constructor
      · have hlast := hother (first + (decimal (value / 10)).length) (.inr le_rfl)
        rw [htop, Function.update_self] at hlast
        rw [bytes_add, hbytes, decimal_of_le hle, htop]
        exact congrArg (fun b => decimal (value / 10) ++ [b]) hlast
      · intro x hx
        rw [hother x (by omega), Function.update_of_ne (by omega)]

/-- The numeral of `value` from `first` on, and the terminator. -/
theorem bytes_putDigits (hvalue : value < 10 ^ 20)
    (htop : top = first + countDigits 20 value) :
    bytes (Function.update (putDigits top 20 0 value buf) (top + 1) 0) first
        (decimal value).length = decimal value ∧
      Function.update (putDigits top 20 0 value buf) (top + 1) 0
        (first + (decimal value).length) = 0 ∧
      ∀ x, x < first ∨ first + (decimal value).length < x →
        Function.update (putDigits top 20 0 value buf) (top + 1) 0 x = buf x := by
  have hlen : (decimal value).length ≤ 20 := (length_decimal_le_iff (by decide)).2 hvalue
  have hcount := countDigits_add_one hlen
  have hfirst : first + (decimal value).length = top + 1 := by omega
  obtain ⟨hbytes, hother⟩ := @putDigits_spec top 0 first value 20 buf hlen hfirst
  refine ⟨?_, ?_, fun x hx => ?_⟩
  · refine Eq.trans (bytes_congr fun i hi => ?_) hbytes
    rw [Function.update_of_ne (by omega)]
  · rw [hfirst, Function.update_self]
  · rw [Function.update_of_ne (by omega), hother x (by omega)]

theorem toNat_lt (v : BitVec w) (hw : w ≤ 64) : v.toNat < 10 ^ 20 :=
  v.isLt.trans_le ((Nat.pow_le_pow_right Nat.two_pos hw).trans (by norm_num))

theorem toStringUnsigned_text (v : BitVec w) (hw : w ≤ 64) :
    CString (.ofMemory (toStringUnsigned buf v)) 0 (decimal v.toNat) := by
  have htop : countDigits 20 v.toNat = 0 + countDigits 20 v.toNat := (Nat.zero_add _).symm
  obtain ⟨hbytes, hend, -⟩ := @bytes_putDigits _ 0 _ buf (toNat_lt v hw) htop
  exact .of_bytes hbytes hend (notMem_decimal (by decide))

theorem toStringUnsigned_behind (v : BitVec w) (hw : w ≤ 64) (hx : (decimal v.toNat).length < x) :
    toStringUnsigned buf v x = buf x := by
  have htop : countDigits 20 v.toNat = 0 + countDigits 20 v.toNat := (Nat.zero_add _).symm
  obtain ⟨-, -, hother⟩ := @bytes_putDigits _ 0 _ buf (toNat_lt v hw) htop
  exact hother x (.inr (by rwa [Nat.zero_add]))

/-! ### Signed numbers -/

/-- `value *= -1` of a negative number, unless it wraps. -/
theorem abs_of_ne_minimum {v : BitVec 64} (hmin : v.toInt ≠ -2 ^ 63) :
    (if v.toInt < 0 then -v else v).toInt = v.toInt.natAbs ∧
      (if v.toInt < 0 then -v else v).toNat = v.toInt.natAbs := by
  have hne : v ≠ .intMin 64 := fun h => hmin (by rw [h]; rfl)
  have hint : (if v.toInt < 0 then -v else v).toInt = v.toInt.natAbs := by
    split_ifs with hneg
    · rw [BitVec.toInt_neg_of_ne_intMin hne, Int.ofNat_natAbs_of_nonpos hneg.le]
    · exact (Int.natAbs_of_nonneg (Int.not_lt.1 hneg)).symm
  refine ⟨hint, ?_⟩
  generalize (if v.toInt < 0 then -v else v) = u at hint
  have hu := BitVec.toInt_eq_toNat_cond u
  split at hu
  · exact Int.ofNat_inj.1 (hu.symm.trans hint)
  · have := u.isLt
    omega

/-- The text of a signed number, and what is behind its terminator. -/
theorem toStringSigned_spec (v : BitVec w) (hw : w ≤ 64) (hmin : v.toInt ≠ -2 ^ 63) :
    CString (.ofMemory (toStringSigned buf v)) 0 (signedDecimal v.toInt) ∧
      ∀ x, (signedDecimal v.toInt).length < x → toStringSigned buf v x = buf x := by
  have hv : (v.signExtend 64).toInt = v.toInt := BitVec.toInt_signExtend_of_le hw
  rw [← hv] at hmin ⊢
  obtain ⟨hint, hnat⟩ := abs_of_ne_minimum hmin
  have hvalue : (v.signExtend 64).toInt.natAbs < 10 ^ 20 := by
    have := BitVec.two_mul_toInt_lt (x := v.signExtend 64)
    have := BitVec.le_two_mul_toInt (x := v.signExtend 64)
    omega
  rw [toStringSigned, hint, hnat]
  generalize (v.signExtend 64).toInt = z at hvalue
  obtain hneg | hnonneg := lt_or_ge z 0
  · obtain ⟨hbytes, hend, hother⟩ := @bytes_putDigits _ 1 z.natAbs
      (Function.update buf 0 (chr '-')) hvalue rfl
    have hsign : signedDecimal z = [chr '-'] ++ decimal z.natAbs := by
      rw [signedDecimal, if_pos hneg]
      rfl
    simp only [if_pos hneg]
    refine ⟨.of_bytes ?_ ?_ (notMem_signedDecimal (by decide)), fun x hx => ?_⟩
    · rw [hsign, List.length_append, bytes_add]
      exact congrArg₂ _ (congrArg (fun b => [b]) (hother 0 (.inl Nat.one_pos))) hbytes
    · rwa [hsign, Nat.zero_add, List.length_append]
    · rw [hsign, List.length_append, List.length_singleton] at hx
      rw [hother x (.inr hx), Function.update_of_ne (by omega)]
  · obtain ⟨hbytes, hend, hother⟩ := @bytes_putDigits _ 0 z.natAbs buf hvalue rfl
    have hsign : signedDecimal z = decimal z.natAbs := by
      rw [signedDecimal, if_neg (Int.not_lt.2 hnonneg)]
      rfl
    simp only [if_neg (Int.not_lt.2 hnonneg), hsign]
    refine ⟨.of_bytes hbytes hend (notMem_decimal (by decide)), fun x hx => ?_⟩
    exact hother x (.inr (by rwa [Nat.zero_add]))

theorem toStringSigned_text (v : BitVec w) (hw : w ≤ 64) (hmin : v.toInt ≠ -2 ^ 63) :
    CString (.ofMemory (toStringSigned buf v)) 0 (signedDecimal v.toInt) :=
  (toStringSigned_spec v hw hmin).1

theorem toStringSigned_minimum (v : BitVec w) (hw : w ≤ 64) (hmin : v.toInt = -2 ^ 63) :
    toStringSigned buf v = Function.update (Function.update (Function.update buf 0 (chr '-')) 19
      (chr '(')) 20 0 := by
  have hv : v.signExtend 64 = .intMin 64 :=
    BitVec.eq_of_toInt_eq ((BitVec.toInt_signExtend_of_le hw).trans hmin)
  rw [toStringSigned, hv]
  rfl

theorem ne_of_minimum {v : BitVec w} {s : Text} (hw : w ≤ 64) (hmin : v.toInt = -2 ^ 63)
    (hs : CString (.ofMemory (toStringSigned buf v)) 0 s) :
    s.length ≤ 20 ∧ s ≠ signedDecimal v.toInt := by
  rw [toStringSigned_minimum v hw hmin] at hs
  refine ⟨@CString.length_le _ _ _ hs 20 rfl, ?_⟩
  rintro rfl
  rw [hmin] at hs
  have hlast : chr '(' = (signedDecimal (-2 ^ 63))[19] :=
    Option.some.inj (@CString.view_eq _ _ _ hs 19 (by decide))
  exact absurd hlast (by decide)

/-! ### Hexadecimal numbers -/

theorem hexmap_getD : ∀ d < 16, hexmap.getD d 0 = d.digitChar.toUInt8 := by
  decide

theorem toNat_hexDigit (v : BitVec 64) (n : ℕ) :
    ((v >>> (n * 4)) &&& 0xf#64).toNat = v.toNat / 16 ^ n % 16 := by
  have hpow : 2 ^ (n * 4) = 16 ^ n := by rw [Nat.mul_comm, Nat.pow_mul]
  rw [BitVec.toNat_and, BitVec.toNat_ushiftRight, Nat.shiftRight_eq_div_pow, hpow]
  exact Nat.and_two_pow_sub_one_eq_mod _ 4

/-- The digits of the last `n` places and the terminator, from `i` on. -/
theorem putHexDigitsOf_spec {map : Text} {n i : ℕ} (v : BitVec 64) :
    bytes (putHexDigitsOf map v n i buf) i n = fixedWidth 16 (map.getD · 0) n v.toNat ∧
      putHexDigitsOf map v n i buf (i + n) = 0 ∧
      ∀ x, x < i ∨ i + n < x → putHexDigitsOf map v n i buf x = buf x := by
  induction n generalizing i buf with
  | zero => exact ⟨rfl, Function.update_self .., fun x hx => Function.update_of_ne (by omega) _ _⟩
  | succ n ih =>
    have hput : putHexDigitsOf map v (n + 1) i buf = putHexDigitsOf map v n (i + 1)
        (Function.update buf i (map.getD (v.toNat / 16 ^ n % 16) 0)) := by
      rw [putHexDigitsOf, toNat_hexDigit]
    obtain ⟨hbytes, hend, hother⟩ := @ih (Function.update buf i
      (map.getD (v.toNat / 16 ^ n % 16) 0)) (i + 1)
    rw [hput]
    refine ⟨?_, ?_, fun x hx => ?_⟩
    · have hhead := hother i (.inl (Nat.lt_succ_self i))
      rw [Function.update_self] at hhead
      rw [Nat.add_comm n 1, bytes_add, hbytes, Nat.add_comm 1 n, fixedWidth]
      exact congrArg (fun b => [b] ++ fixedWidth 16 (map.getD · 0) n v.toNat) hhead
    · rw [Nat.add_comm n 1, ← Nat.add_assoc]
      exact hend
    · rw [hother x (by omega), Function.update_of_ne (by omega)]

theorem toHexstring_text (v : BitVec 64) :
    CString (.ofMemory (toHexstring buf v)) 0 (hexadecimal 16 v.toNat) := by
  obtain ⟨hbytes, hend, -⟩ := @putHexDigitsOf_spec buf hexmap 16 0 v
  rw [← fixedWidth_congr (by decide) fun d hd => (hexmap_getD d hd).symm, ← hexadecimal_eq]
    at hbytes
  refine .of_bytes ?_ ?_ (notMem_hexadecimal (by decide))
  · rw [length_hexadecimal]
    exact hbytes
  · rw [length_hexadecimal]
    exact hend

end Eterna
