import Mathlib.Algebra.Order.Ring.Nat
import Mathlib.Data.Nat.Find
import Mathlib.Logic.Function.Basic
import Mathlib.Tactic.Common

/-!
# Byte memory

A memory maps addresses to bytes.  `load M a n` reads the `n` bytes from `a` on as a little-endian
number and `store M a n v` writes the low `n` bytes of `v` there.

* `load_store_self` : what is stored is read back, as far as it fits;
* `store_of_notMem`, `load_store_of_apart` : nothing else changes;
* `load_congr` : a load depends only on the bytes it covers;
* `copy_of_mem`, `copy_of_notMem` : what copying one region to another does;
* `findZero_eq_some` : the length of a terminated string;
* `bytes_add`, `bytes_congr` : the bytes of a region, as a list.
-/

namespace ByteMemory

/-- A memory of bytes. -/
abbrev Memory := ℕ → UInt8

/-- The `n` bytes from `a` on, as a little-endian number. -/
def load (M : Memory) (a : ℕ) : ℕ → ℕ
  | 0 => 0
  | n + 1 => (M a).toNat + 256 * load M (a + 1) n

/-- Write the `n` low bytes of `v` from `a` on, least significant first. -/
def store (M : Memory) (a : ℕ) : ℕ → ℕ → Memory
  | 0, _ => M
  | n + 1, v => Function.update (store M (a + 1) n (v / 256)) a (UInt8.ofNat v)

/-- Set the `n` bytes from `a` on to `b`. -/
def fill (M : Memory) (a n : ℕ) (b : UInt8) : Memory :=
  fun x => if a ≤ x ∧ x < a + n then b else M x

/-- Write some bytes from `a` on. -/
def put (M : Memory) (a : ℕ) (bs : List UInt8) : Memory :=
  fun x => if a ≤ x ∧ x < a + bs.length then bs.getD (x - a) 0 else M x

/-- The number of bytes from `a` on before the first zero byte, if it is among the first `n`. -/
def findZero (M : Memory) (a : ℕ) : ℕ → Option ℕ
  | 0 => none
  | n + 1 => if M a = 0 then some 0 else (findZero M (a + 1) n).map (· + 1)

/-- Copy `n` bytes from `src` on to `dest` on, one after the other. -/
def copy (src dest : ℕ) : ℕ → Memory → Memory
  | 0, M => M
  | n + 1, M => copy (src + 1) (dest + 1) n (Function.update M dest (M src))

/-- The `n` bytes from `a` on. -/
def bytes (M : Memory) (a n : ℕ) : List UInt8 := (List.range n).map fun i => M (a + i)

variable {M M' : Memory} {a b m n v x : ℕ}

theorem store_succ : store M a (n + 1) v =
    Function.update (store M (a + 1) n (v / 256)) a (UInt8.ofNat v) := rfl

theorem load_succ : load M a (n + 1) = (M a).toNat + 256 * load M (a + 1) n := rfl

theorem store_of_notMem (h : x < a ∨ a + n ≤ x) : store M a n v x = M x := by
  induction n generalizing a v with
  | zero => rfl
  | succ n ih =>
    rw [store_succ, Function.update_of_ne (by omega)]
    exact ih (by omega)

theorem load_eq_load (h : ∀ i < n, M (a + i) = M' (b + i)) : load M a n = load M' b n := by
  induction n generalizing a b with
  | zero => rfl
  | succ n ih =>
    have hhead : M a = M' b := h 0 (by omega)
    have htail : load M (a + 1) n = load M' (b + 1) n := ih fun i hi => by
      rw [show a + 1 + i = a + (i + 1) by omega, show b + 1 + i = b + (i + 1) by omega]
      exact h (i + 1) (by omega)
    rw [load_succ, load_succ, hhead, htail]

theorem load_congr (h : ∀ i < n, M (a + i) = M' (a + i)) : load M a n = load M' a n :=
  load_eq_load h

theorem load_eq_zero (h : ∀ i < n, M (a + i) = 0) : load M a n = 0 := by
  induction n generalizing a with
  | zero => rfl
  | succ n ih =>
    have htail : load M (a + 1) n = 0 := ih fun i hi => by
      rw [show a + 1 + i = a + (i + 1) by omega]
      exact h (i + 1) (by omega)
    have hhead : M a = 0 := h 0 (by omega)
    rw [load_succ, hhead, htail]
    rfl

theorem load_lt : load M a n < 256 ^ n := by
  induction n generalizing a with
  | zero => exact Nat.one_pos
  | succ n ih =>
    have hhead : (M a).toNat < 256 := (M a).toNat_lt
    have htail := ih (a := a + 1)
    rw [load_succ, pow_succ']
    omega

theorem load_store_of_apart (h : a + n ≤ b ∨ b + m ≤ a) :
    load (store M a n v) b m = load M b m :=
  load_congr fun _ _ => store_of_notMem (by omega)

theorem load_store_self : load (store M a n v) a n = v % 256 ^ n := by
  induction n generalizing a v with
  | zero => exact (Nat.mod_one v).symm
  | succ n ih =>
    have hbyte : (UInt8.ofNat v).toNat = v % 256 := UInt8.toNat_ofNat'
    have htail : load (store M a (n + 1) v) (a + 1) n = v / 256 % 256 ^ n := by
      rw [← ih (a := a + 1)]
      refine load_congr fun i _ => ?_
      rw [store_succ, Function.update_of_ne (by omega)]
    rw [load_succ, htail, store_succ, Function.update_self, hbyte, pow_succ', Nat.mod_mul]

/-! ### Copying -/

theorem copy_of_notMem {src dest : ℕ} (h : x < dest ∨ dest + n ≤ x) :
    copy src dest n M x = M x := by
  induction n generalizing M src dest with
  | zero => rfl
  | succ n ih =>
    rw [copy, ih (by omega), Function.update_of_ne (by omega)]

theorem copy_self (a : ℕ) : copy a a n M = M := by
  induction n generalizing a with
  | zero => rfl
  | succ n ih => rw [copy, Function.update_eq_self, ih]

theorem copy_of_mem {src dest i : ℕ} (h : src + n ≤ dest ∨ dest + n ≤ src) (hi : i < n) :
    copy src dest n M (dest + i) = M (src + i) := by
  induction n generalizing M src dest i with
  | zero => exact absurd hi (Nat.not_lt_zero i)
  | succ n ih =>
    rw [copy]
    obtain rfl | ⟨i, rfl⟩ : i = 0 ∨ ∃ k, i = k + 1 := by
      cases i
      · exact .inl rfl
      · exact .inr ⟨_, rfl⟩
    · rw [copy_of_notMem (by omega), Nat.add_zero, Function.update_self, Nat.add_zero]
    · have hnext : copy (src + 1) (dest + 1) n (Function.update M dest (M src)) (dest + 1 + i) =
          Function.update M dest (M src) (src + 1 + i) := ih (by omega) (Nat.lt_of_succ_lt_succ hi)
      rw [show dest + (i + 1) = dest + 1 + i by omega, hnext, Function.update_of_ne (by omega),
        show src + 1 + i = src + (i + 1) by omega]

theorem fill_of_notMem {v : UInt8} (h : x < a ∨ a + n ≤ x) : fill M a n v x = M x :=
  if_neg (by omega)

theorem fill_of_mem {v : UInt8} (h : a ≤ x ∧ x < a + n) : fill M a n v x = v := if_pos h

theorem put_of_notMem {bs : List UInt8} (h : x < a ∨ a + bs.length ≤ x) : put M a bs x = M x :=
  if_neg (by omega)

theorem findZero_eq_some : findZero M a m = some n ↔
    n < m ∧ M (a + n) = 0 ∧ ∀ i < n, M (a + i) ≠ 0 := by
  induction m generalizing a n with
  | zero => exact iff_of_false (by simp [findZero]) fun h => Nat.not_lt_zero n h.1
  | succ m ih =>
    rw [findZero]
    split_ifs with hzero
    · constructor
      · rintro h
        cases h
        exact ⟨Nat.succ_pos m, hzero, fun i hi => absurd hi (Nat.not_lt_zero i)⟩
      · rintro ⟨-, -, hbefore⟩
        cases n with
        | zero => rfl
        | succ n => exact absurd hzero (hbefore 0 (Nat.succ_pos n))
    · rw [Option.map_eq_some_iff]
      constructor
      · rintro ⟨k, hk, rfl⟩
        obtain ⟨hlt, hend, hbefore⟩ := ih.1 hk
        refine ⟨Nat.succ_lt_succ hlt, ?_, fun i hi => ?_⟩
        · rwa [Nat.add_right_comm] at hend
        · cases i with
          | zero => exact hzero
          | succ i =>
            have := hbefore i (Nat.lt_of_succ_lt_succ hi)
            rwa [Nat.add_right_comm] at this
      · rintro ⟨hlt, hend, hbefore⟩
        cases n with
        | zero => exact absurd hend hzero
        | succ n =>
          refine ⟨n, ih.2 ⟨Nat.lt_of_succ_lt_succ hlt, ?_, fun i hi => ?_⟩, rfl⟩
          · rwa [Nat.add_right_comm]
          · rw [Nat.add_right_comm]
            exact hbefore (i + 1) (Nat.succ_lt_succ hi)

theorem exists_findZero {j : ℕ} (hj : j < m) (hzero : M (a + j) = 0) :
    ∃ n ≤ j, findZero M a m = some n := by
  have hex : ∃ j, M (a + j) = 0 := ⟨j, hzero⟩
  have hle : Nat.find hex ≤ j := Nat.find_min' hex hzero
  exact ⟨_, hle, findZero_eq_some.2 ⟨hle.trans_lt hj, Nat.find_spec hex, fun _ => Nat.find_min hex⟩⟩

/-! ### Regions as lists -/

@[simp] theorem length_bytes : (bytes M a n).length = n := by
  rw [bytes, List.length_map, List.length_range]

theorem bytes_add : bytes M a (m + n) = bytes M a m ++ bytes M (a + m) n := by
  rw [bytes, List.range_add, List.map_append, List.map_map]
  refine congrArg _ (List.map_congr_left fun i _ => ?_)
  rw [Function.comp_apply, Nat.add_assoc]

theorem bytes_congr (h : ∀ i < n, M (a + i) = M' (b + i)) : bytes M a n = bytes M' b n :=
  List.map_congr_left fun i hi => h i (List.mem_range.1 hi)

end ByteMemory
