import Eterna.Library.CStrings
import Mathlib.Data.List.Basic
import Mathlib.Data.List.Induction
import Mathlib.Data.Nat.Digits.Defs
import Mathlib.Tactic.Ring

/-!
# Numerals

The numerals of natural numbers as bytes: decimal without leading zeros, and hexadecimal with a
fixed number of digits.

* `decimal_of_lt`, `decimal_of_le` : the last digit of a number is its remainder;
* `length_decimal_le_iff` : a number has at most `k` digits exactly if it is below `10 ^ k`;
* `digit_of_mem_decimal`, `digit_of_mem_hexadecimal` : which bytes occur;
* `notMem_decimal`, `notMem_signedDecimal`, `notMem_hexadecimal` : lower ones do not;
* `isDecimal_iff`, `isSignedDecimal_iff` : a number has one decimal numeral, which is read back as
  the number;
* `read_fixedWidth` : so are the digits of a numeral of a fixed width.
-/

namespace Numerals

/-- The decimal numeral. -/
def decimal (n : ℕ) : List UInt8 := (Nat.toDigits 10 n).map Char.toUInt8

/-- The numeral of an integer, with a sign if it is negative. -/
def signedDecimal (z : ℤ) : List UInt8 :=
  (if z < 0 then ['-'.toUInt8] else []) ++ decimal z.natAbs

/-- The last `k` hexadecimal digits, the most significant first. -/
def hexadecimal : ℕ → ℕ → List UInt8
  | 0, _ => []
  | k + 1, n => (Nat.digitChar (n / 16 ^ k % 16)).toUInt8 :: hexadecimal k n

variable {n k : ℕ} {b : UInt8}

theorem toUInt8_digitChar (h : n < 10) : n.digitChar.toUInt8 = UInt8.ofNat (48 + n) := by
  rw [Char.toUInt8, ← Nat.toNat_digitChar_of_lt_ten h]
  rfl

theorem decimal_of_lt (h : n < 10) : decimal n = [UInt8.ofNat (48 + n)] := by
  rw [decimal, Nat.toDigits_of_lt_base h, List.map_singleton, toUInt8_digitChar h]

theorem decimal_of_le (h : 10 ≤ n) :
    decimal n = decimal (n / 10) ++ [UInt8.ofNat (48 + n % 10)] := by
  rw [decimal, Nat.toDigits_of_base_le (by decide) h, List.map_append, List.map_singleton,
    toUInt8_digitChar (Nat.mod_lt n (by decide))]
  rfl

theorem length_decimal_of_le (h : 10 ≤ n) :
    (decimal n).length = (decimal (n / 10)).length + 1 := by
  rw [decimal_of_le h, List.length_append, List.length_singleton]

theorem length_decimal_pos : 0 < (decimal n).length := by
  rw [decimal, List.length_map]
  exact Nat.length_toDigits_pos

theorem length_decimal_le_iff (hk : 0 < k) : (decimal n).length ≤ k ↔ n < 10 ^ k := by
  rw [decimal, List.length_map]
  exact Nat.length_toDigits_le_iff (by decide) hk

theorem length_decimal_mono {m : ℕ} (h : m ≤ n) : (decimal m).length ≤ (decimal n).length :=
  (length_decimal_le_iff length_decimal_pos).2
    (h.trans_lt ((length_decimal_le_iff length_decimal_pos).1 le_rfl))

theorem digit_of_mem_decimal (h : b ∈ decimal n) : 48 ≤ b.toNat ∧ b.toNat < 58 := by
  induction n using Nat.strong_induction_on with
  | h n ih =>
    have hdigit {d : ℕ} (hd : d < 10) (hb : b = UInt8.ofNat (48 + d)) :
        48 ≤ b.toNat ∧ b.toNat < 58 := by
      rw [hb, UInt8.toNat_ofNat', Nat.mod_eq_of_lt (by omega)]
      omega
    obtain hlt | hle := Nat.lt_or_ge n 10
    · rw [decimal_of_lt hlt, List.mem_singleton] at h
      exact hdigit hlt h
    · rw [decimal_of_le hle, List.mem_append, List.mem_singleton] at h
      obtain h | h := h
      · exact ih (n / 10) (Nat.div_lt_self (by omega) (by decide)) h
      · exact hdigit (Nat.mod_lt n (by decide)) h

theorem digitChar_range : ∀ n < 16,
    48 ≤ (Nat.digitChar n).toUInt8.toNat ∧ (Nat.digitChar n).toUInt8.toNat < 103 := by
  decide

theorem digit_of_mem_hexadecimal (h : b ∈ hexadecimal k n) : 48 ≤ b.toNat ∧ b.toNat < 103 := by
  induction k with
  | zero => cases h
  | succ k ih =>
    cases h with
    | head => exact digitChar_range _ (Nat.mod_lt _ (by decide))
    | tail _ h => exact ih h

@[simp] theorem length_hexadecimal : (hexadecimal k n).length = k := by
  induction k with
  | zero => rfl
  | succ k ih => rw [hexadecimal, List.length_cons, ih]

theorem digit_of_mem_signedDecimal {z : ℤ} (h : b ∈ signedDecimal z) :
    45 ≤ b.toNat ∧ b.toNat < 58 := by
  rw [signedDecimal, List.mem_append] at h
  obtain h | h := h
  · split at h
    · rw [List.mem_singleton] at h
      rw [h]
      decide
    · cases h
  · have := digit_of_mem_decimal h
    omega

/-! ### Lower bytes -/

theorem notMem_decimal (h : b.toNat < 48) : b ∉ decimal n := fun hmem =>
  absurd (digit_of_mem_decimal hmem).1 (Nat.not_le_of_gt h)

theorem notMem_signedDecimal {z : ℤ} (h : b.toNat < 45) : b ∉ signedDecimal z := fun hmem =>
  absurd (digit_of_mem_signedDecimal hmem).1 (Nat.not_le_of_gt h)

theorem notMem_hexadecimal (h : b.toNat < 48) : b ∉ hexadecimal k n := fun hmem =>
  absurd (digit_of_mem_hexadecimal hmem).1 (Nat.not_le_of_gt h)

/-! ### Reading numerals -/

/-- The value of a digit. -/
def digitValue (b : UInt8) : Option ℕ :=
  if 48 ≤ b.toNat ∧ b.toNat < 58 then some (b.toNat - 48)
  else if 65 ≤ b.toNat ∧ b.toNat < 71 then some (b.toNat - 55)
  else if 97 ≤ b.toNat ∧ b.toNat < 103 then some (b.toNat - 87)
  else none

/-- One more digit. -/
def readDigit (base v : ℕ) (b : UInt8) : Option ℕ :=
  (digitValue b).bind fun d => if d < base then some (base * v + d) else none

/-- The number with these digits, the most significant first. -/
def read (base : ℕ) (s : List UInt8) : Option ℕ := s.foldlM (readDigit base) 0

/-- The number with these decimal digits and this sign. -/
def readSigned : List UInt8 → Option ℤ
  | [] => none
  | b :: s => if b = '-'.toUInt8 then (read 10 s).map fun n : ℕ => -(n : ℤ)
    else (read 10 (b :: s)).map fun n : ℕ => (n : ℤ)

/-- The digits are decimal digits of the number, and the first one is not `0` unless there are no
others. -/
structure IsDecimal (n : ℕ) (s : List UInt8) : Prop where
  value : read 10 s = some n
  ne_nil : s ≠ []
  lead : s.head? = some '0'.toUInt8 → s.length = 1

/-- A sign exactly if the number is negative, and digits of its absolute value. -/
def IsSignedDecimal (z : ℤ) (s : List UInt8) : Prop :=
  ∃ d, IsDecimal z.natAbs d ∧ s = (if z < 0 then ['-'.toUInt8] else []) ++ d

variable {base v d : ℕ} {s : List UInt8}

theorem read_concat : read base (s ++ [b]) = (read base s).bind fun v => readDigit base v b := by
  rw [read, List.foldlM_append]
  refine congrArg (Option.bind _) (funext fun v => ?_)
  exact bind_pure _

theorem digitValue_digitChar : ∀ d < 16, digitValue d.digitChar.toUInt8 = some d := by
  decide

theorem readDigit_digitChar (hbase : base ≤ 16) (hd : d < base) :
    readDigit base v d.digitChar.toUInt8 = some (base * v + d) := by
  rw [readDigit, digitValue_digitChar d (by omega), Option.bind_some, if_pos hd]

theorem readDigit_ten {w : ℕ} (h : readDigit 10 v b = some w) :
    ∃ d < 10, b = UInt8.ofNat (48 + d) ∧ w = 10 * v + d := by
  obtain ⟨d, hd, hw⟩ := Option.bind_eq_some_iff.1 h
  split_ifs at hw with hlt
  refine ⟨d, hlt, ?_, (Option.some.inj hw).symm⟩
  unfold digitValue at hd
  split_ifs at hd with hdecimal hupper hlower
  · have hsum : 48 + d = b.toNat := by
      have := Option.some.inj hd
      omega
    rw [hsum, UInt8.ofNat_toNat]
  · have := Option.some.inj hd
    omega
  · have := Option.some.inj hd
    omega

theorem read_decimal : read 10 (decimal n) = some n := by
  induction n using Nat.strong_induction_on with
  | h n ih =>
    have hdigit (v d : ℕ) (hd : d < 10) :
        readDigit 10 v (UInt8.ofNat (48 + d)) = some (10 * v + d) := by
      rw [← toUInt8_digitChar hd]
      exact readDigit_digitChar (by decide) hd
    obtain hlt | hle := Nat.lt_or_ge n 10
    · rw [decimal_of_lt hlt]
      have := hdigit 0 n hlt
      rw [Nat.mul_zero, Nat.zero_add] at this
      exact (read_concat (s := [])).trans this
    · rw [decimal_of_le hle, read_concat, ih (n / 10) (by omega), Option.bind_some,
        hdigit _ _ (Nat.mod_lt n (by decide)), Nat.div_add_mod]

theorem decimal_ne_nil : decimal n ≠ [] := List.ne_nil_of_length_pos length_decimal_pos

theorem head?_decimal (h : (decimal n).head? = some '0'.toUInt8) : n = 0 := by
  induction n using Nat.strong_induction_on with
  | h n ih =>
    obtain hlt | hle := Nat.lt_or_ge n 10
    · rw [decimal_of_lt hlt, List.head?_cons, Option.some_inj] at h
      have hnat := congrArg UInt8.toNat h
      rw [UInt8.toNat_ofNat', Nat.mod_eq_of_lt (by omega)] at hnat
      have hzero : '0'.toUInt8.toNat = 48 := rfl
      omega
    · rw [decimal_of_le hle, List.head?_append_of_ne_nil _ decimal_ne_nil] at h
      have := ih (n / 10) (by omega) h
      omega

/-- **A number has one decimal numeral.** -/
theorem isDecimal_iff : IsDecimal n s ↔ s = decimal n := by
  constructor
  · rintro ⟨hvalue, hne, hlead⟩
    induction s using List.reverseRecOn generalizing n with
    | nil => exact absurd rfl hne
    | append_singleton t b ih =>
      rw [read_concat] at hvalue
      obtain ⟨v, hv, hdigit⟩ := Option.bind_eq_some_iff.1 hvalue
      obtain ⟨d, hd, rfl, rfl⟩ := readDigit_ten hdigit
      by_cases ht : t = []
      · subst ht
        obtain rfl : v = 0 := (Option.some.inj hv).symm
        rw [Nat.mul_zero, Nat.zero_add, decimal_of_lt hd]
        rfl
      · have hlen : 0 < t.length := List.length_pos_iff.2 ht
        rw [List.head?_append_of_ne_nil _ ht, List.length_append, List.length_singleton] at hlead
        have htail := ih hv ht fun h => absurd (hlead h) (by omega)
        -- the digits before the last one are those of a number that is not 0
        have hpos : v ≠ 0 := by
          rintro rfl
          exact absurd (hlead (by rw [htail]; rfl)) (by omega)
        rw [decimal_of_le (n := 10 * v + d) (by omega), show (10 * v + d) / 10 = v by omega,
          show (10 * v + d) % 10 = d by omega, htail]
  · rintro rfl
    refine ⟨read_decimal, decimal_ne_nil, fun h => ?_⟩
    rw [head?_decimal h]
    rfl

theorem isSignedDecimal_iff {z : ℤ} : IsSignedDecimal z s ↔ s = signedDecimal z := by
  simp only [IsSignedDecimal, isDecimal_iff, exists_eq_left, signedDecimal]

theorem readSigned_signedDecimal {z : ℤ} : readSigned (signedDecimal z) = some z := by
  rw [signedDecimal]
  split_ifs with hneg
  · change (read 10 (decimal z.natAbs)).map (fun n : ℕ => -(n : ℤ)) = some z
    rw [read_decimal, Option.map_some]
    exact congrArg some (by omega)
  · obtain ⟨b, s, hs⟩ := List.exists_cons_of_ne_nil (decimal_ne_nil (n := z.natAbs))
    have hb : b ≠ '-'.toUInt8 := by
      have := (digit_of_mem_decimal (hs ▸ List.mem_cons_self)).1
      rintro rfl
      exact absurd this (by decide)
    rw [List.nil_append, hs, readSigned, if_neg hb, ← hs, read_decimal, Option.map_some]
    exact congrArg some (by omega)

/-! ### A fixed number of digits -/

/-- The last `k` digits to the base `base`, the most significant first, where `digit` writes them.
-/
def fixedWidth (base : ℕ) (digit : ℕ → UInt8) : ℕ → ℕ → List UInt8
  | 0, _ => []
  | k + 1, n => digit (n / base ^ k % base) :: fixedWidth base digit k n

/-- The byte is a hexadecimal digit, with capital letters or with small ones. -/
def IsHexDigit (capital : Bool) (b : UInt8) : Prop :=
  (48 ≤ b.toNat ∧ b.toNat < 58) ∨ (capital ∧ 65 ≤ b.toNat ∧ b.toNat < 71) ∨
    (¬ capital ∧ 97 ≤ b.toNat ∧ b.toNat < 103)

instance (capital : Bool) (b : UInt8) : Decidable (IsHexDigit capital b) :=
  inferInstanceAs (Decidable ((_ ∧ _) ∨ (_ ∧ _ ∧ _) ∨ (_ ∧ _ ∧ _)))

variable {digit : ℕ → UInt8}

theorem not_isHexDigit_zero {capital : Bool} : ¬ IsHexDigit capital 0 := by
  cases capital <;> decide

theorem hexadecimal_eq : hexadecimal k n = fixedWidth 16 (fun d => d.digitChar.toUInt8) k n := by
  induction k with
  | zero => rfl
  | succ k ih => rw [hexadecimal, fixedWidth, ih]

@[simp] theorem length_fixedWidth : (fixedWidth base digit k n).length = k := by
  induction k with
  | zero => rfl
  | succ k ih => rw [fixedWidth, List.length_cons, ih]

theorem exists_of_mem_fixedWidth (hbase : 0 < base) (h : b ∈ fixedWidth base digit k n) :
    ∃ d < base, b = digit d := by
  induction k with
  | zero => cases h
  | succ k ih =>
    cases h with
    | head => exact ⟨_, Nat.mod_lt _ hbase, rfl⟩
    | tail _ h => exact ih h

theorem fixedWidth_congr {digit' : ℕ → UInt8} (hbase : 0 < base)
    (h : ∀ d < base, digit d = digit' d) :
    fixedWidth base digit k n = fixedWidth base digit' k n := by
  induction k with
  | zero => rfl
  | succ k ih => rw [fixedWidth, fixedWidth, ih, h _ (Nat.mod_lt _ hbase)]

theorem read_fixedWidth (hbase : 0 < base) (hdigit : ∀ d < base, digitValue (digit d) = some d) :
    read base (fixedWidth base digit k n) = some (n % base ^ k) := by
  have hfold (v : ℕ) : (fixedWidth base digit k n).foldlM (readDigit base) v =
      some (v * base ^ k + n % base ^ k) := by
    induction k generalizing v with
    | zero => rw [fixedWidth, List.foldlM_nil, pow_zero, Nat.mod_one, Nat.mul_one]; rfl
    | succ k ih =>
      have hlt : n / base ^ k % base < base := Nat.mod_lt _ hbase
      rw [fixedWidth, List.foldlM_cons, readDigit, hdigit _ hlt, Option.bind_some, if_pos hlt]
      refine (ih _).trans (congrArg some ?_)
      rw [pow_succ, Nat.mod_mul]
      ring
  rw [read, hfold, Nat.zero_mul, Nat.zero_add]

end Numerals
