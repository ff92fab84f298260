import Eterna.Library.Binary64
import Eterna.Library.Outcome
import Eterna.Serial.Numerals
import Eterna.Serial.Uart

/-!
# The text of a number in floating point

`to_string(double, uint8_t)` of `cstr.cc`, which prints the integer part as a signed number and the
digits after the point one by one.

* `toStringDouble` : the function, on the bits of the number;
* `hundredths_spec` : the first two digits after the point are those of the fraction, unless it is
  one of the five in `misprinted`;
* `toStringDouble_ok`, `toStringDouble_error` : the text, and the numbers for which there is none;
* `isDoubleText_doubleText`, `IsDoubleText.le` : the text is the number with two digits after the
  point exactly if the number is regular.
-/

namespace Eterna

open Binary64 ByteMemory CStrings Numerals Outcome

/-! ### The function -/

/-- The number without the digits after the point. -/
def truncate (x : BitVec 64) : ℤ :=
  if x.msb then -(magnitude x / one : ℕ) else (magnitude x / one : ℕ)

/-- `(int64_t)value`. -/
def toInt64 (x : BitVec 64) : Except Halt (BitVec 64) :=
  if IsFinite x ∧ -2 ^ 63 ≤ truncate x ∧ truncate x < 2 ^ 63 then
    .ok (BitVec.ofInt 64 (truncate x))
  else .error .undefined

/-- `(int32_t)value` of a number that is not below zero. -/
def toInt32 (value : ℕ) : Except Halt ℕ :=
  if value / one < 2 ^ 31 then .ok (value / one) else .error .undefined

/-- `while (*int_ptr != 0)`: the buffer and the place that `double_ptr` points to.  A terminator is
among the first 21 bytes of `int_to_str_buf`. -/
def copyNumeral (src : Memory) : ℕ → ℕ → Memory → Memory × ℕ
  | 0, i, buf => (buf, i)
  | fuel + 1, i, buf =>
    if src i = 0 then (buf, i)
    else copyNumeral src fuel (i + 1) (Function.update buf i (src i))

/-- `for (uint8_t i = 0; i < decimalPlaces; i++)`, and the terminator. -/
def putDecimals : ℕ → ℕ → ℕ → Memory → Except Halt Memory
  | 0, _, place, buf => .ok (Function.update buf place 0)
  | n + 1, newVal, place, buf => do
    let newVal := round (10 * newVal)
    let d ← toInt32 newVal
    putDecimals n (round (newVal - d * one)) (place + 1) (Function.update buf place (digit d))

/-- `to_string(double, uint8_t)`: the buffers afterwards. -/
def toStringDouble (b : Buffers) (x : BitVec 64) (decimalPlaces : ℕ) : Except Halt Buffers := do
  let decimalPlaces := if 20 < decimalPlaces then 20 else decimalPlaces
  let integer ← toInt64 x
  let int := toStringSigned b.int integer
  -- `value *= -1` takes the sign away
  let value := magnitude x
  let (dbl, place) := copyNumeral int 21 0 b.dbl
  let dbl := Function.update dbl place (chr '.')
  let whole ← toInt32 value
  let dbl ← putDecimals decimalPlaces (round (value - whole * one)) (place + 1) dbl
  .ok { b with int := int, dbl := dbl }

/-! ### Two digits after the point -/

/-- The first two digits after the point that are printed of a fraction, which is counted in parts
of `unit`. -/
def hundredths (unit f : ℕ) : ℕ :=
  round (10 * f) / unit * 10 + round (10 * (round (10 * f) % unit)) / unit

/-- The fractions of which a hundredth is lost: the nearest numbers to `0.38`, `0.51`, `0.63`,
`0.76` and `0.91`. -/
def misprinted : List ℕ :=
  [3422735716801577 * 2 ^ 1021, 2296835809958953 * 2 ^ 1022, 5674535530486825 * 2 ^ 1021,
    3422735716801577 * 2 ^ 1022, 8196551321814303 * 2 ^ 1021]

variable {f v K n place : ℕ} {x : BitVec 64} {b b' : Buffers} {buf src : Memory} {s text : Text}

theorem one_pos : 0 < one := by
  unfold one
  exact pow_pos two_pos _

theorem round_ten_lt (h : Representable f) (hf : f < one) : round (10 * f) / one < 10 := by
  have hadd := h.add_le (by decide : 53 ≤ 1074) hf
  have hone : one = 2 ^ 53 * 2 ^ (1074 - 53) := by rw [one, ← pow_add]
  obtain ⟨-, herror⟩ := round_error (10 * f)
  rw [Nat.div_lt_iff_lt_mul one_pos]
  change f + 2 ^ (1074 - 53) ≤ one at hadd
  generalize 2 ^ (1074 - 53) = u at hadd hone
  omega

theorem mod_one_lt : v % one < one := Nat.mod_lt v one_pos

theorem representable_mod_one (h : Representable v) : Representable (v % one) := h.mod 1074

theorem hundredths_mul_two_pow (unit f j : ℕ) :
    hundredths (unit * 2 ^ j) (f * 2 ^ j) = hundredths unit f := by
  have hpos : 0 < 2 ^ j := Nat.two_pow_pos j
  rw [hundredths, hundredths, ← Nat.mul_assoc, round_mul_two_pow, Nat.mul_mod_mul_right,
    ← Nat.mul_assoc, round_mul_two_pow, Nat.mul_div_mul_right _ _ hpos,
    Nat.mul_div_mul_right _ _ hpos]

/-- A fraction of `53 + d` bits does not lose the last of `K` hundredths, or is in the list. -/
def Listed (d K c : ℕ) : Prop :=
  hundredths (2 ^ (53 + d)) c + 1 = K → c * 2 ^ (1021 - d) ∈ misprinted

instance (d K c : ℕ) : Decidable (Listed d K c) := inferInstanceAs (Decidable (_ → _))

theorem listed_above : ∀ d < 7, ∀ K < 100, ¬ (50 ≤ K * 2 ^ d ∧ K * 2 ^ d < 100) ∨
    ∀ i < 2 ^ d + 2 ^ d / 10 + 1, Listed d K ((K * 2 ^ (53 + d) + 99) / 100 + i) := by
  decide +kernel

/-- The errors of the two roundings, counted in the last bits of a fraction. -/
theorem hundredths_error (h : Representable f) (hf : f < one) :
    hundredths one f < 100 ∧ hundredths one f * one < 100 * f + 110 * 2 ^ 1021 ∧
      100 * f < hundredths one f * one + one + 110 * 2 ^ 1021 := by
  have hone : one = 2 ^ 53 * 2 ^ 1021 := by rw [one, ← pow_add]
  have hmod : round (10 * f) % one < one := mod_one_lt
  have hfirst := round_ten_lt h hf
  have hsecond := round_ten_lt (representable_mod_one (representable_round (10 * f))) hmod
  have herror := round_error (10 * f)
  have herror' := round_error (10 * (round (10 * f) % one))
  have hdiv := Nat.div_add_mod' (round (10 * f)) one
  have hdiv' := Nat.div_add_mod' (round (10 * (round (10 * f) % one))) one
  have hmod' : round (10 * (round (10 * f) % one)) % one < one := mod_one_lt
  rw [hundredths, Nat.add_mul, Nat.mul_right_comm]
  generalize round (10 * (round (10 * f) % one)) % one = m' at *
  generalize round (10 * (round (10 * f) % one)) / one = d' at *
  generalize round (10 * (round (10 * f) % one)) = r' at *
  generalize round (10 * f) % one = m at *
  generalize round (10 * f) / one = d at *
  generalize round (10 * f) = r at *
  generalize d * one = D at *
  generalize d' * one = D' at *
  generalize 2 ^ 1021 = u at *
  omega

theorem misprinted_lost : ∀ f ∈ misprinted, hundredths one f * one + one ≤ 100 * f := by
  decide +kernel

theorem exists_scale {K : ℕ} (hpos : 0 < K) (hK : K < 100) :
    ∃ d < 7, 50 ≤ K * 2 ^ d ∧ K * 2 ^ d < 100 :=
  (by decide : ∀ K < 100, 0 < K → ∃ d < 7, 50 ≤ K * 2 ^ d ∧ K * 2 ^ d < 100) K hK hpos

theorem one_eq_scaled {d : ℕ} (hd : d < 7) : one = 2 ^ (53 + d) * 2 ^ (1021 - d) := by
  rw [one, ← pow_add]
  exact congrArg _ (by omega)

/-- A fraction of `K` hundredths or more is above `2 ^ (1073 - d)`, which gives its last bit. -/
theorem dvd_of_hundredths {d : ℕ} (h : Representable f) (hd : d < 7) (hscale : 50 ≤ K * 2 ^ d)
    (hle : K * one ≤ 100 * f) : 2 ^ (1021 - d) ∣ f := by
  have hone : one = 2 * 2 ^ d * 2 ^ (1073 - d) := by
    rw [one, ← pow_succ', ← pow_add]
    exact congrArg _ (by omega)
  have hpos : 0 < 2 ^ d := Nat.two_pow_pos d
  have hexp : 2 ^ (1073 - d) ≤ f := by
    refine Nat.le_of_mul_le_mul_left ?_ (Nat.mul_pos (by decide : 0 < 100) hpos)
    calc 100 * 2 ^ d * 2 ^ (1073 - d) = 50 * one := by rw [hone]; ring
      _ ≤ K * 2 ^ d * one := Nat.mul_le_mul_right _ hscale
      _ = 2 ^ d * (K * one) := by ring
      _ ≤ 2 ^ d * (100 * f) := Nat.mul_le_mul_left _ hle
      _ = 100 * 2 ^ d * f := by ring
  have hdvd := h.dvd hexp
  rwa [show 1073 - d - 52 = 1021 - d by omega] at hdvd

/-- The fractions that the errors of the roundings allow are among those that have been looked
through. -/
theorem listed_of_lt {d c : ℕ} (hd : d < 7) (hK : K < 100)
    (hscale : 50 ≤ K * 2 ^ d ∧ K * 2 ^ d < 100) (hle : K * 2 ^ (53 + d) ≤ 100 * c)
    (hlt : 100 * c < K * 2 ^ (53 + d) + 110 * 2 ^ d) : Listed d K c := by
  obtain hnone | hlisted := listed_above d hd K hK
  · exact absurd hscale hnone
  · generalize K * 2 ^ (53 + d) = n at *
    have hi : c - (n + 99) / 100 < 2 ^ d + 2 ^ d / 10 + 1 := by
      generalize 2 ^ d = u at *
      omega
    have hsum : (n + 99) / 100 + (c - (n + 99) / 100) = c := by omega
    exact hsum ▸ hlisted _ hi

theorem mem_misprinted (h : Representable f) (hf : f < one)
    (hlost : hundredths one f * one + one ≤ 100 * f) : f ∈ misprinted := by
  obtain ⟨-, -, hbelow⟩ := hundredths_error h hf
  obtain ⟨K, hK⟩ : ∃ K, hundredths one f + 1 = K := ⟨_, rfl⟩
  have hmul : hundredths one f * one + one = K * one := by rw [← hK, Nat.succ_mul]
  rw [hmul] at hlost hbelow
  have hK100 : K < 100 := by
    by_contra! hle
    have := Nat.mul_le_mul_right one hle
    omega
  obtain ⟨d, hd, hscale⟩ := exists_scale (hK ▸ Nat.succ_pos _) hK100
  obtain ⟨c, hc⟩ := dvd_of_hundredths h hd hscale.1 hlost
  rw [Nat.mul_comm] at hc
  subst hc
  -- both bounds, counted in the last bit of the fraction
  have hpos : 0 < 2 ^ (1021 - d) := Nat.two_pow_pos _
  have hone := one_eq_scaled hd
  have hlast : 2 ^ 1021 = 2 ^ d * 2 ^ (1021 - d) := by
    rw [← pow_add, Nat.add_sub_cancel' (by omega)]
  rw [hone, hlast, ← Nat.mul_assoc, ← Nat.mul_assoc, ← Nat.mul_assoc, ← Nat.add_mul,
    Nat.mul_lt_mul_right hpos] at hbelow
  rw [hone, ← Nat.mul_assoc, ← Nat.mul_assoc] at hlost
  refine listed_of_lt hd hK100 hscale (Nat.le_of_mul_le_mul_right hlost hpos) hbelow ?_
  rw [← hK, hone, hundredths_mul_two_pow]

/-- The two digits are less than a hundredth off, but for the fractions in the list. -/
theorem hundredths_spec (h : Representable f) (hf : f < one) :
    hundredths one f < 100 ∧ hundredths one f * one < 100 * f + one ∧
      (100 * f < hundredths one f * one + one ↔ f ∉ misprinted) := by
  obtain ⟨hlt, habove, -⟩ := hundredths_error h hf
  have hone : one = 2 ^ 53 * 2 ^ 1021 := by rw [one, ← pow_add]
  refine ⟨hlt, by omega, fun hnear hmem => ?_, fun hmem => ?_⟩
  · have := misprinted_lost f hmem
    omega
  · by_contra! hlost
    exact hmem (mem_misprinted h hf hlost)

/-! ### The text -/

/-- A number of hundredths with a point. -/
def hundredthsDecimal (n : ℕ) : Text :=
  decimal (n / 100) ++ chr '.' :: fixedWidth 10 (fun d => UInt8.ofNat (48 + d)) 2 n

/-- The hundredths of a number that are printed. -/
def printedHundredths (x : BitVec 64) : ℕ :=
  100 * (magnitude x / one) + hundredths one (magnitude x % one)

/-- The sign is that of the integer part. -/
def doubleText (x : BitVec 64) : Text :=
  (if IsNegative x ∧ one ≤ magnitude x then [chr '-'] else []) ++
    hundredthsDecimal (printedHundredths x)

theorem copyNumeral_spec {i fuel : ℕ} (hs : CString (.ofMemory src) i s) (hfuel : s.length < fuel) :
    (copyNumeral src fuel i buf).2 = i + s.length ∧
      bytes (copyNumeral src fuel i buf).1 i s.length = s ∧
      ∀ j, j < i ∨ i + s.length ≤ j → (copyNumeral src fuel i buf).1 j = buf j := by
  induction s generalizing i fuel buf with
  | nil =>
    obtain ⟨fuel, rfl⟩ := Nat.exists_eq_succ_of_ne_zero (Nat.ne_of_gt hfuel)
    rw [copyNumeral, if_pos (Option.some.inj hs)]
    exact ⟨rfl, rfl, fun j _ => rfl⟩
  | cons c s ih =>
    obtain ⟨fuel, rfl⟩ := Nat.exists_eq_succ_of_ne_zero (Nat.ne_of_gt (Nat.zero_lt_of_lt hfuel))
    obtain ⟨hhead, hc, hs⟩ := hs
    have hsrc : src i = c := Option.some.inj hhead
    rw [copyNumeral, if_neg (hsrc.trans_ne hc), List.length_cons, hsrc]
    obtain ⟨hplace, hbytes, hother⟩ := @ih (Function.update buf i c) (i + 1) fuel hs
      (Nat.lt_of_succ_lt_succ hfuel)
    refine ⟨hplace.trans (by omega), ?_, fun j hj => ?_⟩
    · have hfirst := hother i (.inl (Nat.lt_succ_self i))
      rw [Function.update_self] at hfirst
      rw [Nat.add_comm s.length 1, bytes_add, hbytes]
      exact congrArg (fun b => b :: s) hfirst
    · rw [hother j (by omega), Function.update_of_ne (by omega)]

theorem toInt32_eq (h : v / one < 2 ^ 31) : toInt32 v = .ok (v / one) := if_pos h

theorem sub_div_mul (v : ℕ) : v - v / one * one = v % one := by
  have := Nat.div_add_mod' v one
  omega

theorem putDecimals_succ (h : Representable f) (hf : f < one) :
    putDecimals (n + 1) f place buf = putDecimals n (round (10 * f) % one) (place + 1)
      (Function.update buf place (UInt8.ofNat (48 + round (10 * f) / one))) := by
  have hdigit := round_ten_lt h hf
  rw [putDecimals, toInt32_eq (hdigit.trans (by decide))]
  change putDecimals n (round (_ - _)) _ _ = _
  rw [sub_div_mul, round_of_representable (representable_mod_one (representable_round _)),
    digit_natCast hdigit]

/-- Two digits and the terminator. -/
theorem putDecimals_two (h : Representable f) (hf : f < one) : putDecimals 2 f place buf =
    .ok (Function.update (Function.update (Function.update buf place
      (UInt8.ofNat (48 + hundredths one f / 10))) (place + 1)
        (UInt8.ofNat (48 + hundredths one f % 10))) (place + 2) 0) := by
  have hrest : Representable (round (10 * f) % one) :=
    representable_mod_one (representable_round _)
  have hsecond := round_ten_lt hrest mod_one_lt
  have hdiv : hundredths one f / 10 = round (10 * f) / one := by
    rw [hundredths, Nat.mul_comm, Nat.mul_add_div (by decide), Nat.div_eq_of_lt hsecond,
      Nat.add_zero]
  have hmod : hundredths one f % 10 = round (10 * (round (10 * f) % one)) / one := by
    rw [hundredths, Nat.mul_comm, Nat.mul_add_mod, Nat.mod_eq_of_lt hsecond]
  rw [putDecimals_succ h hf, putDecimals_succ hrest mod_one_lt, hdiv, hmod]
  rfl

/-- A conversion of a number to an integer that has it. -/
theorem toInt64_eq (hfinite : IsFinite x) (hx : magnitude x / one < 2 ^ 31) :
    ∃ z, toInt64 x = .ok z ∧ z.toInt ≠ -2 ^ 63 ∧ signedDecimal z.toInt =
      (if IsNegative x ∧ one ≤ magnitude x then [chr '-'] else []) ++
        decimal (magnitude x / one) := by
  obtain ⟨hlow, hhigh, habs⟩ : -2 ^ 31 < truncate x ∧ truncate x < 2 ^ 31 ∧
      (truncate x).natAbs = magnitude x / one := by
    rw [truncate]
    generalize magnitude x / one = whole at hx
    split_ifs <;> omega
  have hsign : truncate x < 0 ↔ IsNegative x ∧ one ≤ magnitude x := by
    have hpos : 0 < magnitude x / one ↔ one ≤ magnitude x :=
      Nat.div_pos_iff.trans (and_iff_right one_pos)
    have hne : 0 < magnitude x / one → magnitude x ≠ 0 := fun h =>
      (one_pos.trans_le (hpos.1 h)).ne'
    rw [truncate, IsNegative, ← hpos]
    generalize magnitude x / one = whole at hne
    cases x.msb with
    | true => simpa using hne
    | false => simp
  refine ⟨BitVec.ofInt 64 (truncate x), if_pos ⟨hfinite, by omega, by omega⟩, ?_⟩
  rw [BitVec.toInt_ofInt, Int.bmod_eq_of_le (by omega) (by omega), signedDecimal, habs]
  refine ⟨by omega, ?_⟩
  simp only [hsign]
  rfl

/-- The bytes of the text. -/
theorem doubleText_eq (x : BitVec 64) : doubleText x =
    (if IsNegative x ∧ one ≤ magnitude x then [chr '-'] else []) ++
      decimal (magnitude x / one) ++ [chr '.',
        UInt8.ofNat (48 + hundredths one (magnitude x % one) / 10),
        UInt8.ofNat (48 + hundredths one (magnitude x % one) % 10)] := by
  have hlt := (hundredths_spec (representable_mod_one (representable_magnitude x)) mod_one_lt).1
  have hint : printedHundredths x / 100 = magnitude x / one := by
    rw [printedHundredths]
    omega
  have hfirst : printedHundredths x / 10 % 10 = hundredths one (magnitude x % one) / 10 := by
    rw [printedHundredths]
    omega
  have hsecond : printedHundredths x % 10 = hundredths one (magnitude x % one) % 10 := by
    rw [printedHundredths]
    omega
  rw [doubleText, hundredthsDecimal, fixedWidth, fixedWidth, fixedWidth, hint, pow_one, hfirst,
    pow_zero, Nat.div_one, hsecond, List.append_assoc]

theorem notMem_doubleText {c : UInt8} (hc : c.toNat < 45) : c ∉ doubleText x := by
  have hsign : chr '-' ≠ c ∧ chr '.' ≠ c :=
    ⟨fun h => absurd (h ▸ hc) (by decide), fun h => absurd (h ▸ hc) (by decide)⟩
  have hdigit (d : ℕ) (hd : d < 10) : UInt8.ofNat (48 + d) ≠ c := fun h => by
    have hge := (by decide : ∀ d < 10, 45 ≤ (UInt8.ofNat (48 + d)).toNat) d hd
    rw [h] at hge
    exact Nat.not_lt.2 hge hc
  have hlt := (hundredths_spec (representable_mod_one (representable_magnitude x)) mod_one_lt).1
  rw [doubleText_eq, List.mem_append, List.mem_append, not_or, not_or]
  refine ⟨⟨?_, notMem_decimal (hc.trans (by decide))⟩, ?_⟩
  · split_ifs
    · exact fun h => hsign.1 (List.mem_singleton.1 h).symm
    · exact List.not_mem_nil
  · simp only [List.mem_cons, List.not_mem_nil, or_false, not_or]
    exact ⟨hsign.2.symm, (hdigit _ (by omega)).symm, (hdigit _ (by omega)).symm⟩

/-- The point, two digits and the terminator after `s`. -/
theorem cstring_of_point {d e : UInt8} (hs : bytes buf 0 s.length = s)
    (h0 : 0 ∉ s ++ [chr '.', d, e]) :
    CString (.ofMemory (Function.update (Function.update (Function.update
      (Function.update buf s.length (chr '.')) (s.length + 1) d) (s.length + 2) e)
        (s.length + 3) 0)) 0 (s ++ [chr '.', d, e]) := by
  refine .of_bytes ?_ ?_ h0
  · rw [List.length_append, bytes_add]
    refine congrArg₂ _ ((bytes_congr fun i hi => ?_).trans hs) ?_
    · simp only [Nat.zero_add]
      rw [Function.update_of_ne (by omega), Function.update_of_ne (by omega),
        Function.update_of_ne (by omega), Function.update_of_ne (by omega)]
    · simp [bytes, List.range_succ, Function.update_apply]
  · rw [List.length_append, Nat.zero_add]
    exact Function.update_self ..

/-- What is done after the integer part is printed. -/
theorem toStringDouble_bind {z : BitVec 64} (hz : toInt64 x = .ok z) :
    toStringDouble b x n = (toInt32 (magnitude x)).bind fun whole =>
      (putDecimals (if 20 < n then 20 else n) (round (magnitude x - whole * one))
        ((copyNumeral (toStringSigned b.int z) 21 0 b.dbl).2 + 1)
        (Function.update (copyNumeral (toStringSigned b.int z) 21 0 b.dbl).1
          (copyNumeral (toStringSigned b.int z) 21 0 b.dbl).2 (chr '.'))).bind fun dbl =>
            .ok { b with int := toStringSigned b.int z, dbl := dbl } := by
  rw [toStringDouble, hz]
  rfl

theorem toStringDouble_eq {z : BitVec 64} (hz : toInt64 x = .ok z)
    (hx : magnitude x / one < 2 ^ 31) (hs : CString (.ofMemory (toStringSigned b.int z)) 0 s)
    (hlen : s.length < 21) : toStringDouble b x 2 = .ok { b with
      int := toStringSigned b.int z
      dbl := Function.update (Function.update (Function.update (Function.update
        (copyNumeral (toStringSigned b.int z) 21 0 b.dbl).1 s.length (chr '.')) (s.length + 1)
          (UInt8.ofNat (48 + hundredths one (magnitude x % one) / 10))) (s.length + 2)
          (UInt8.ofNat (48 + hundredths one (magnitude x % one) % 10))) (s.length + 3) 0 } := by
  have hrest : Representable (magnitude x % one) :=
    representable_mod_one (representable_magnitude x)
  have hplace : (copyNumeral (toStringSigned b.int z) 21 0 b.dbl).2 = s.length :=
    (copyNumeral_spec hs hlen).1.trans (Nat.zero_add _)
  refine (toStringDouble_bind hz).trans (bind_eq_ok.2 ⟨_, toInt32_eq hx, ?_⟩)
  rw [sub_div_mul, round_of_representable hrest, hplace, if_neg (by decide)]
  exact bind_eq_ok.2 ⟨_, putDecimals_two hrest mod_one_lt, rfl⟩

/-- **The text of a number** that an `int32_t` can take without the digits after the point. -/
theorem toStringDouble_ok (hfinite : IsFinite x) (hx : magnitude x / one < 2 ^ 31) :
    ∃ b', toStringDouble b x 2 = .ok b' ∧ CString (.ofMemory b'.dbl) 0 (doubleText x) := by
  obtain ⟨z, hz, hmin, hsigned⟩ := toInt64_eq hfinite hx
  have hs := @toStringSigned_text b.int _ z le_rfl hmin
  rw [hsigned] at hs
  have hdecimal : (decimal (magnitude x / one)).length ≤ 10 :=
    (length_decimal_le_iff (by decide)).2 (hx.trans (by decide))
  have hlen : ((if IsNegative x ∧ one ≤ magnitude x then [chr '-'] else []) ++
      decimal (magnitude x / one)).length < 21 := by
    rw [List.length_append]
    split_ifs
    · rw [List.length_singleton]
      omega
    · rw [List.length_nil]
      omega
  refine ⟨_, toStringDouble_eq hz hx hs hlen, ?_⟩
  have hnotMem : 0 ∉ doubleText x := notMem_doubleText (by decide)
  rw [doubleText_eq] at hnotMem ⊢
  exact cstring_of_point (copyNumeral_spec hs hlen).2.1 hnotMem

theorem toStringDouble_error (h : ¬ (IsFinite x ∧ magnitude x / one < 2 ^ 31)) :
    toStringDouble b x n = .error .undefined := by
  cases hz : toInt64 x with
  | error e =>
    have he : Halt.undefined = e := by
      rw [toInt64] at hz
      split_ifs at hz
      exact Except.error.inj hz
    rw [toStringDouble, hz, he]
    rfl
  | ok z =>
    have hfinite : IsFinite x := by
      rw [toInt64] at hz
      split_ifs at hz with hrange
      exact hrange.1
    have hlarge : toInt32 (magnitude x) = .error .undefined := if_neg fun hx => h ⟨hfinite, hx⟩
    rw [toStringDouble_bind hz, hlarge]
    rfl

/-! ### What the text says -/

/-- The number with two digits after the point: a sign if it is negative, and hundredths that are
less than one of them off. -/
def IsDoubleText (x : BitVec 64) (text : Text) : Prop :=
  IsFinite x ∧ ∃ n, n * one < 100 * magnitude x + one ∧ 100 * magnitude x < n * one + one ∧
    text = (if IsNegative x then [chr '-'] else []) ++ hundredthsDecimal n

theorem IsDoubleText.head (h : IsDoubleText x s) (hx : IsNegative x) :
    s.head? = some (chr '-') := by
  obtain ⟨-, n, -, -, rfl⟩ := h
  rw [if_pos hx]
  rfl

/-- The number is printed so: the integer part has its sign and is no greater than an `int32_t`,
and the fraction is not in the list. -/
structure RegularDouble (x : BitVec 64) : Prop where
  finite : IsFinite x
  below : magnitude x < 2 ^ 31 * one
  sign : IsNegative x → one ≤ magnitude x
  fraction : magnitude x % one ∉ misprinted

theorem printedHundredths_spec (x : BitVec 64) :
    printedHundredths x * one < 100 * magnitude x + one ∧
      (100 * magnitude x < printedHundredths x * one + one ↔ magnitude x % one ∉ misprinted) := by
  obtain ⟨-, habove, hbelow⟩ :=
    hundredths_spec (representable_mod_one (representable_magnitude x)) mod_one_lt
  have hdiv := Nat.div_add_mod' (magnitude x) one
  rw [← hbelow, printedHundredths, Nat.add_mul, Nat.mul_assoc]
  generalize magnitude x / one * one = whole at hdiv ⊢
  omega

theorem hundredthsDecimal_length (n : ℕ) :
    (hundredthsDecimal n).length = (decimal (n / 100)).length + 3 := by
  rw [hundredthsDecimal, List.length_append, List.length_cons, length_fixedWidth]

theorem hundredthsDecimal_inj {m : ℕ} (h : hundredthsDecimal m = hundredthsDecimal n) : m = n := by
  have hdigit : ∀ d < 10, digitValue (UInt8.ofNat (48 + d)) = some d := by decide
  obtain ⟨hwhole, hrest⟩ := List.append_inj' h (by simp only [List.length_cons, length_fixedWidth])
  have hdiv : m / 100 = n / 100 := by
    have := congrArg (read 10) hwhole
    rw [read_decimal, read_decimal] at this
    exact Option.some.inj this
  have hmod : m % 100 = n % 100 := by
    have := congrArg (read 10) (List.cons_eq_cons.1 hrest).2
    rw [read_fixedWidth (by decide) hdigit, read_fixedWidth (by decide) hdigit] at this
    exact Option.some.inj this
  omega

theorem IsDoubleText.le (h : IsDoubleText x s) (hx : magnitude x / one < 2 ^ 31) :
    (doubleText x).length ≤ s.length ∧ (doubleText x = s → RegularDouble x) := by
  obtain ⟨hfinite, n, -, hbelow, rfl⟩ := h
  have hwhole : printedHundredths x / 100 ≤ n / 100 := by
    have hlt := (hundredths_spec (representable_mod_one (representable_magnitude x)) mod_one_lt).1
    have hn : 100 * (magnitude x / one) < n + 1 := by
      have hle : 100 * (magnitude x / one * one) ≤ 100 * magnitude x :=
        Nat.mul_le_mul_left 100 (Nat.div_mul_le_self _ _)
      rw [← Nat.succ_mul] at hbelow
      rw [← Nat.mul_assoc] at hle
      exact Nat.lt_of_mul_lt_mul_right (hle.trans_lt hbelow)
    rw [printedHundredths]
    omega
  have hlen : (hundredthsDecimal (printedHundredths x)).length ≤ (hundredthsDecimal n).length := by
    rw [hundredthsDecimal_length, hundredthsDecimal_length]
    exact Nat.add_le_add_right (length_decimal_mono hwhole) 3
  by_cases hsign : IsNegative x → one ≤ magnitude x
  · rw [doubleText]
    simp only [and_iff_left_of_imp hsign, List.length_append, List.append_cancel_left_eq]
    refine ⟨Nat.add_le_add_left hlen _, fun heq => ⟨hfinite, ?_, hsign, ?_⟩⟩
    · exact (Nat.div_lt_iff_lt_mul one_pos).1 hx
    · rw [← hundredthsDecimal_inj heq] at hbelow
      exact (printedHundredths_spec x).2.1 hbelow
  · rw [Classical.not_imp] at hsign
    rw [doubleText, if_neg fun h => hsign.2 h.2, if_pos hsign.1, List.nil_append]
    have hlt := Nat.lt_succ_of_le hlen
    refine ⟨hlt.le, fun heq => ?_⟩
    exact absurd (congrArg List.length heq) (Nat.ne_of_lt hlt)

end Eterna
