import Mathlib.Algebra.Order.Ring.Nat
import Mathlib.Data.Nat.Log
import Mathlib.Tactic.Common

/-!
# Binary floating point

The format of 64 bits.  Magnitudes are counted in units of `2 ^ -1074`, the least number of the
format, so they are natural numbers, and an operation is the exact one and a rounding.  Magnitudes
beyond the greatest finite number do not occur.

* `Binary64.round` : the nearest number of 53 bits, ties to even;
* `Binary64.round_error` : it is at most a part in `2 ^ 53` away;
* `Binary64.round_mul_two_pow` : the unit does not matter;
* `Binary64.round_of_representable`, `Binary64.Representable.mod` : what has 53 bits stays as it is,
  and so do the bits after the point.
-/

namespace Binary64

/-- The exponent field. -/
def exponent (x : BitVec 64) : ℕ := x.toNat / 2 ^ 52 % 2 ^ 11

/-- The fraction field. -/
def fraction (x : BitVec 64) : ℕ := x.toNat % 2 ^ 52

/-- Neither an infinity nor no number. -/
def IsFinite (x : BitVec 64) : Prop := exponent x ≠ 2047

instance (x : BitVec 64) : Decidable (IsFinite x) := inferInstanceAs (Decidable (_ ≠ _))

/-- The magnitude of a finite number. -/
def magnitude (x : BitVec 64) : ℕ :=
  if exponent x = 0 then fraction x else (2 ^ 52 + fraction x) * 2 ^ (exponent x - 1)

/-- A number below zero; `-0.0` is none. -/
def IsNegative (x : BitVec 64) : Prop := x.msb = true ∧ magnitude x ≠ 0

instance (x : BitVec 64) : Decidable (IsNegative x) := inferInstanceAs (Decidable (_ ∧ _))

/-- The magnitude of `1.0`. -/
def one : ℕ := 2 ^ 1074

/-- The magnitude has at most 53 bits. -/
def Representable (n : ℕ) : Prop := ∃ m e, m < 2 ^ 53 ∧ n = m * 2 ^ e

/-- The nearest magnitude of 53 bits, with an even last bit if there are two. -/
def round (n : ℕ) : ℕ :=
  let k := n.log2 - 52
  let q := n / 2 ^ k
  let r := n % 2 ^ k
  if 2 * r < 2 ^ k ∨ 2 * r = 2 ^ k ∧ q % 2 = 0 then q * 2 ^ k else (q + 1) * 2 ^ k

variable {n j : ℕ} {x : BitVec 64}

theorem representable_magnitude (x : BitVec 64) : Representable (magnitude x) := by
  have hfraction : fraction x < 2 ^ 52 := Nat.mod_lt _ (by decide)
  rw [magnitude]
  split_ifs
  · exact ⟨fraction x, 0, by omega, by rw [pow_zero, Nat.mul_one]⟩
  · exact ⟨_, _, by omega, rfl⟩

theorem Representable.dvd (h : Representable n) (hj : 2 ^ j ≤ n) : 2 ^ (j - 52) ∣ n := by
  obtain ⟨m, e, hm, rfl⟩ := h
  have hlt : 2 ^ j < 2 ^ (53 + e) := by
    rw [pow_add]
    exact hj.trans_lt (Nat.mul_lt_mul_of_pos_right hm (Nat.two_pow_pos e))
  have hle : j - 52 ≤ e := by
    have := (Nat.pow_lt_pow_iff_right (by decide : 1 < 2)).1 hlt
    omega
  exact (pow_dvd_pow 2 hle).mul_left m

theorem Representable.dvd_log2 (h : Representable n) : 2 ^ (n.log2 - 52) ∣ n := by
  obtain rfl | hn := eq_or_ne n 0
  · exact Nat.dvd_zero _
  · exact h.dvd (Nat.log2_self_le hn)

theorem Representable.mod (h : Representable n) (j : ℕ) : Representable (n % 2 ^ j) := by
  obtain ⟨m, e, hm, rfl⟩ := h
  obtain hlt | hle := Nat.lt_or_ge e j
  · refine ⟨m % 2 ^ (j - e), e, (Nat.mod_le _ _).trans_lt hm, ?_⟩
    rw [← Nat.mul_mod_mul_right, ← pow_add, Nat.sub_add_cancel hlt.le]
  · refine ⟨0, 0, by decide, ?_⟩
    rw [Nat.mod_eq_zero_of_dvd ((pow_dvd_pow 2 hle).mul_left m), Nat.zero_mul]

theorem Representable.add_le (h : Representable n) (hj : 53 ≤ j) (hlt : n < 2 ^ j) :
    n + 2 ^ (j - 53) ≤ 2 ^ j := by
  have hpow : 2 ^ j = 2 ^ 53 * 2 ^ (j - 53) := by rw [← pow_add, Nat.add_sub_cancel' hj]
  obtain ⟨m, e, hm, rfl⟩ := h
  obtain hle | hle := Nat.le_total e (j - 53)
  · have hmul : m * 2 ^ e ≤ (2 ^ 53 - 1) * 2 ^ (j - 53) :=
      Nat.mul_le_mul (by omega) (Nat.pow_le_pow_right (by decide) hle)
    omega
  · obtain ⟨c, hc⟩ := (pow_dvd_pow 2 hle).mul_left m
    rw [hc] at hlt ⊢
    have hlt' : c < 2 ^ 53 := by
      rw [hpow, Nat.mul_comm] at hlt
      exact Nat.lt_of_mul_lt_mul_right hlt
    have hmul : (c + 1) * 2 ^ (j - 53) ≤ 2 ^ 53 * 2 ^ (j - 53) := Nat.mul_le_mul_right _ hlt'
    rw [Nat.add_mul, Nat.one_mul] at hmul
    rw [hpow, Nat.mul_comm (2 ^ (j - 53)) c]
    exact hmul

/-! ### Rounding -/

theorem round_of_dvd (h : 2 ^ (n.log2 - 52) ∣ n) : round n = n := by
  have hpos : 0 < 2 ^ (n.log2 - 52) := Nat.two_pow_pos _
  rw [round, Nat.mod_eq_zero_of_dvd h, if_pos (.inl (by omega)), Nat.div_mul_cancel h]

theorem round_of_representable (h : Representable n) : round n = n := round_of_dvd h.dvd_log2

theorem representable_round (n : ℕ) : Representable (round n) := by
  have hq : n / 2 ^ (n.log2 - 52) < 2 ^ 53 := by
    rw [Nat.div_lt_iff_lt_mul (Nat.two_pow_pos _), ← pow_add]
    exact Nat.lt_log2_self.trans_le (Nat.pow_le_pow_right (by decide) (by omega))
  rw [round]
  split_ifs
  · exact ⟨_, _, hq, rfl⟩
  · obtain hlt | heq := Nat.lt_or_eq_of_le (Nat.succ_le_of_lt hq)
    · exact ⟨_, _, hlt, rfl⟩
    · refine ⟨2 ^ 52, n.log2 - 52 + 1, by decide, ?_⟩
      rw [← Nat.succ_eq_add_one, heq, ← pow_add, ← pow_add]
      exact congrArg _ (by omega)

/-- **The error of rounding** is at most a part in `2 ^ 53`. -/
theorem round_error (n : ℕ) :
    2 ^ 53 * n ≤ 2 ^ 53 * round n + n ∧ 2 ^ 53 * round n ≤ 2 ^ 53 * n + n := by
  obtain hsmall | hlarge := Nat.lt_or_ge 52 n.log2
  swap
  · rw [round_of_dvd (by rw [Nat.sub_eq_zero_of_le hlarge, pow_zero]; exact one_dvd n)]
    omega
  have hn : n ≠ 0 := by
    rintro rfl
    cases hsmall
  have hle : 2 ^ 52 * 2 ^ (n.log2 - 52) ≤ n := by
    rw [← pow_add, Nat.add_sub_cancel' hsmall.le]
    exact Nat.log2_self_le hn
  have hdiv := Nat.div_add_mod' n (2 ^ (n.log2 - 52))
  have hlt : n % 2 ^ (n.log2 - 52) < 2 ^ (n.log2 - 52) := Nat.mod_lt _ (Nat.two_pow_pos _)
  rw [round]
  split_ifs with hdown
  · omega
  · rw [Nat.add_mul, Nat.one_mul]
    omega

theorem round_mul_two_pow (n j : ℕ) : round (n * 2 ^ j) = round n * 2 ^ j := by
  obtain hsmall | hlarge := Nat.lt_or_ge n.log2 52
  · have hrep : Representable n :=
      ⟨n, 0, Nat.lt_log2_self.trans_le (Nat.pow_le_pow_right (by decide) (by omega)),
        by rw [pow_zero, Nat.mul_one]⟩
    obtain ⟨m, e, hm, hn⟩ := hrep
    rw [round_of_representable ⟨m, e, hm, hn⟩]
    exact round_of_representable ⟨m, e + j, hm, by rw [hn, pow_add, Nat.mul_assoc]⟩
  · have hn : n ≠ 0 := by
      rintro rfl
      cases hlarge
    have hpos : 0 < 2 ^ j := Nat.two_pow_pos j
    have hlog : (n * 2 ^ j).log2 = n.log2 + j := by
      refine (Nat.log2_eq_iff (Nat.mul_ne_zero hn hpos.ne')).2 ⟨?_, ?_⟩
      · rw [pow_add]
        exact Nat.mul_le_mul_right _ (Nat.log2_self_le hn)
      · rw [Nat.add_right_comm, pow_add]
        exact Nat.mul_lt_mul_of_pos_right Nat.lt_log2_self hpos
    have hshift : (n * 2 ^ j).log2 - 52 = n.log2 - 52 + j := by omega
    have hties : ∀ r k q : ℕ,
        2 * (r * 2 ^ j) < k * 2 ^ j ∨ 2 * (r * 2 ^ j) = k * 2 ^ j ∧ q % 2 = 0 ↔
          2 * r < k ∨ 2 * r = k ∧ q % 2 = 0 := fun r k q => by
      rw [← Nat.mul_assoc, Nat.mul_lt_mul_right hpos, Nat.mul_left_inj hpos.ne']
    rw [round, round, hshift, pow_add, Nat.mul_div_mul_right _ _ hpos, Nat.mul_mod_mul_right]
    simp only [hties]
    split_ifs <;> rw [Nat.mul_assoc]

end Binary64
