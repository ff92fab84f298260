import Eterna.Memory.Common
import Mathlib.Tactic.Common

/-!
# The bitmap

`Bitmap` of `bitmap.cc`: a byte buffer read most significant bit first.

* `Bitmap.get_eq` : `get` reads one bit of one byte, and is `false` out of range;
* `Bitmap.get_set` : `set` changes the one bit it is asked to, when it is in range;
* `Bitmap.get_init` : a fresh bitmap is all clear.
-/

namespace Eterna

/-- A `Bitmap`: its size in bytes, the address of its buffer, and the bytes at that address
(byte `i` of the buffer is `bytes i`). -/
structure Bitmap where
  /-- `Size`, in bytes. -/
  size : ℕ
  /-- `Buffer`, the address of the first byte. -/
  buffer : ℕ
  /-- The contents of the buffer. -/
  bytes : ℕ → BitVec 8

namespace Bitmap

/-- `Bitmap::length`: the size in bytes. -/
def length (b : Bitmap) : ℕ := b.size

/-- `Bitmap::base`. -/
def base (b : Bitmap) : ℕ := b.buffer

/-- `Bitmap::init`: take over a buffer and clear it. -/
def init (b : Bitmap) (size bufferAddress : ℕ) : Bitmap :=
  { size := size, buffer := bufferAddress, bytes := fun i => if i < size then 0#8 else b.bytes i }

/-- The mask `0b10000000 >> (index % 8)`. -/
def bitIndexer (index : ℕ) : BitVec 8 := 0b10000000#8 >>> (index % 8)

/-- `Bitmap::get`. -/
def get (b : Bitmap) (index : ℕ) : Bool :=
  if b.size ≤ index / 8 then false else decide (0#8 < b.bytes (index / 8) &&& bitIndexer index)

/-- `Bitmap::set`: the new bitmap and whether the index was in range. -/
def set (b : Bitmap) (index : ℕ) (value : Bool) : Bitmap × Bool :=
  if b.size ≤ index / 8 then (b, false)
  else
    let cleared := b.bytes (index / 8) &&& ~~~bitIndexer index
    let byte := if value then cleared ||| bitIndexer index else cleared
    ({ b with bytes := fun i => if i = index / 8 then byte else b.bytes i }, true)

/-! ### Bits of a byte -/

theorem bitIndexer_eq (index : ℕ) : bitIndexer index = BitVec.twoPow 8 (7 - index % 8) := by
  have key : ∀ k : Fin 8, 0b10000000#8 >>> (k : ℕ) = BitVec.twoPow 8 (7 - k) := by decide
  exact key ⟨index % 8, Nat.mod_lt _ (by decide)⟩

theorem get_eq (b : Bitmap) (i : ℕ) :
    b.get i = (decide (i / 8 < b.size) && (b.bytes (i / 8)).getLsbD (7 - i % 8)) := by
  unfold get
  by_cases h : b.size ≤ i / 8
  · have h' : ¬ i / 8 < b.size := by omega
    simp [h, h']
  · have h' : i / 8 < b.size := by omega
    simp only [h, h', ↓reduceIte, decide_true, Bool.true_and, bitIndexer_eq, BitVec.and_twoPow]
    cases (b.bytes (i / 8)).getLsbD (7 - i % 8)
    · simp
    · have key : ∀ k : Fin 8, decide (0#8 < BitVec.twoPow 8 k) = true := by decide
      simpa using key ⟨7 - i % 8, by omega⟩

theorem get_of_le {b : Bitmap} {i : ℕ} (h : b.size ≤ i / 8) : b.get i = false := by
  simp [get, h]

theorem lt_of_get {b : Bitmap} {i : ℕ} (h : b.get i = true) : i / 8 < b.size := by
  by_contra hn
  rw [get_of_le (by omega)] at h
  exact Bool.false_ne_true h

@[simp] theorem size_init (b : Bitmap) (n a : ℕ) : (b.init n a).size = n := rfl

@[simp] theorem get_init (b : Bitmap) (n a i : ℕ) : (b.init n a).get i = false := by
  rw [get_eq]
  by_cases h : i / 8 < n <;> simp [init, h]

@[simp] theorem size_set (b : Bitmap) (i : ℕ) (v : Bool) : (b.set i v).1.size = b.size := by
  unfold set; split <;> rfl

@[simp] theorem base_set (b : Bitmap) (i : ℕ) (v : Bool) : (b.set i v).1.base = b.base := by
  unfold set; split <;> rfl

theorem set_snd (b : Bitmap) (i : ℕ) (v : Bool) : (b.set i v).2 = decide (i / 8 < b.size) := by
  unfold set
  split
  · rename_i h; simp; omega
  · rename_i h; simp; omega

theorem get_set (b : Bitmap) (i j : ℕ) (v : Bool) :
    (b.set i v).1.get j = if j = i ∧ i / 8 < b.size then v else b.get j := by
  by_cases h : b.size ≤ i / 8
  · have hn : ¬ i / 8 < b.size := by omega
    simp [set, h, hn]
  · have h' : i / 8 < b.size := by omega
    have hbit : ∀ k, (bitIndexer i).getLsbD k = decide (k < 8 ∧ k = 7 - i % 8) := by
      intro k
      rw [bitIndexer_eq, BitVec.getLsbD_twoPow]
      by_cases hk : k = 7 - i % 8
      · subst hk; simp
      · simp [hk, Ne.symm hk]
    rw [get_eq, get_eq]
    simp only [set, h, ↓reduceIte, h', and_true]
    by_cases hbyte : j / 8 = i / 8
    · simp only [hbyte, ↓reduceIte, h', decide_true, Bool.true_and]
      by_cases hji : j = i
      · subst hji
        have h8 : 7 - j % 8 < 8 := by omega
        cases v <;> simp only [BitVec.getLsbD_and, BitVec.getLsbD_or, BitVec.getLsbD_not, hbit, h8,
          ↓reduceIte, Bool.false_eq_true, and_self, decide_true, Bool.not_true, Bool.and_false,
          Bool.or_true]
      · have hpos : 7 - j % 8 ≠ 7 - i % 8 := by omega
        have h8 : 7 - j % 8 < 8 := by omega
        cases v <;> simp only [BitVec.getLsbD_and, BitVec.getLsbD_or, BitVec.getLsbD_not, hbit, h8,
          hpos, hji, ↓reduceIte, Bool.false_eq_true, and_false, decide_false, decide_true,
          Bool.not_false, Bool.and_self, Bool.and_true, Bool.or_false]
    · have hji : j ≠ i := fun e => hbyte (by rw [e])
      simp [hbyte, hji]

end Bitmap

end Eterna
