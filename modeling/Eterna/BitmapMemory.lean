import Eterna.Bitmap
import Eterna.Library.Machines
import Eterna.Memory.Memset

/-!
# The bitmap in memory

`Bitmap` of `bitmap.cc` as an object that points to its buffer, in memory that logs its accesses.

* `BitmapState.get_fst`, `BitmapState.get_bitmap_set` : the functions do to the buffer what those of
  `Eterna.Bitmap` do to its bytes;
* `refines` : so the object is an array of `8 * Size` booleans;
* `bitmap_refines_array` : over any calls, and with no access outside of the buffer.
-/

namespace Eterna

open AccessLog

/-- A `Bitmap` object, and the memory with its buffer. -/
structure BitmapState where
  /-- `Size`, in bytes. -/
  size : BitVec 64
  /-- `Buffer`. -/
  buffer : BitVec 64
  /-- The memory. -/
  memory : LoggedMemory

namespace BitmapState

/-- The constructor `Bitmap(size, bufferAddress)`. -/
def create (size bufferAddress : BitVec 64) (t : LoggedMemory) : BitmapState :=
  ⟨size, bufferAddress, memset bufferAddress 0 size t⟩

/-- `Bitmap::init`. -/
def init (s : BitmapState) (size bufferAddress : BitVec 64) : BitmapState :=
  let s := { s with size := size }
  let s := { s with buffer := bufferAddress }
  { s with memory := memset s.buffer 0 size s.memory }

/-- `Bitmap::get`. -/
def get (s : BitmapState) (index : BitVec 64) : Bool × BitmapState :=
  let byteIndex := index / 8
  if s.size ≤ byteIndex then (false, s)
  else
    let byte := s.memory.read (s.buffer + byteIndex)
    (decide (0#8 < byte.1 &&& Bitmap.bitIndexer index.toNat), { s with memory := byte.2 })

/-- `Bitmap::set`. -/
def set (s : BitmapState) (index : BitVec 64) (value : Bool) : Bool × BitmapState :=
  let byteIndex := index / 8
  if s.size ≤ byteIndex then (false, s)
  else
    let bitIndexer := Bitmap.bitIndexer index.toNat
    let byte := s.memory.read (s.buffer + byteIndex)
    let s := { s with memory := byte.2.write (s.buffer + byteIndex) (byte.1 &&& ~~~bitIndexer) }
    if value then
      let byte := s.memory.read (s.buffer + byteIndex)
      (true, { s with memory := byte.2.write (s.buffer + byteIndex) (byte.1 ||| bitIndexer) })
    else (true, s)

/-- The buffer as a `Bitmap`. -/
def bitmap (s : BitmapState) : Bitmap where
  size := s.size.toNat
  buffer := s.buffer.toNat
  bytes k := s.memory.mem (s.buffer + BitVec.ofNat 64 k)

end BitmapState

/-- A call of a bitmap. -/
inductive BitmapCall where
  | init (size bufferAddress : BitVec 64)
  | get (index : BitVec 64)
  | set (index : BitVec 64) (value : Bool)
  deriving DecidableEq

/-- What a call answers and does. -/
def BitmapState.step (s : BitmapState) : BitmapCall → Option Bool × BitmapState
  | .init size bufferAddress => (none, s.init size bufferAddress)
  | .get index => ((s.get index).1, (s.get index).2)
  | .set index value => ((s.set index value).1, (s.set index value).2)

/-- What the call answers and does to an array of booleans. -/
def BitmapCall.onArray (bits : List Bool) : BitmapCall → Option Bool × List Bool
  | .init size _ => (none, List.replicate (8 * size.toNat) false)
  | .get index => (some (bits.getD index.toNat false), bits)
  | .set index value => (some (decide (index.toNat < bits.length)), bits.set index.toNat value)

/-- The buffer that a call is about. -/
def BitmapCall.buffer (s : BitmapState) : BitmapCall → Set (BitVec 64)
  | .init size bufferAddress => region bufferAddress size
  | _ => region s.buffer s.size

/-- The bitmap holds the array. -/
structure BitmapState.Holds (s : BitmapState) (bits : List Bool) : Prop where
  length : bits.length = 8 * s.size.toNat
  get : ∀ i, s.bitmap.get i = bits.getD i false

namespace BitmapState

variable {s : BitmapState} {index : BitVec 64} {bits : List Bool}

/-! ### One call -/

theorem toNat_byteIndex (index : BitVec 64) : (index / 8).toNat = index.toNat / 8 := by
  rw [BitVec.toNat_udiv]
  rfl

theorem inRange_iff : ¬ s.size ≤ index / 8 ↔ index.toNat < 8 * s.size.toNat := by
  rw [BitVec.le_def, toNat_byteIndex]
  omega

theorem get_fst (s : BitmapState) (index : BitVec 64) :
    (s.get index).1 = s.bitmap.get index.toNat := by
  have hbyte : BitVec.ofNat 64 (index.toNat / 8) = index / 8 := by
    rw [← toNat_byteIndex, BitVec.ofNat_toNat, BitVec.setWidth_eq]
  simp only [get, Bitmap.get, bitmap, hbyte, BitVec.le_def, toNat_byteIndex]
  split_ifs <;> rfl

theorem bitmap_get_congr {b b' : Bitmap} (hsize : b.size = b'.size)
    (hbytes : ∀ k < b.size, b.bytes k = b'.bytes k) (j : ℕ) : b.get j = b'.get j := by
  rw [Bitmap.get, Bitmap.get, ← hsize]
  split_ifs with hle
  · rfl
  · rw [hbytes (j / 8) (by omega)]

theorem set_of_le (h : s.size ≤ index / 8) (value : Bool) : s.set index value = (false, s) :=
  if_pos h

/-- What `set` leaves in memory. -/
theorem mem_set (h : ¬ s.size ≤ index / 8) (value : Bool) (x : BitVec 64) :
    (s.set index value).2.memory.mem x =
      if x = s.buffer + index / 8 then
        let cleared := s.memory.mem x &&& ~~~Bitmap.bitIndexer index.toNat
        if value then cleared ||| Bitmap.bitIndexer index.toNat else cleared
      else s.memory.mem x := by
  rw [set, if_neg h]
  cases value with
  | false =>
    simp only [Bool.false_eq_true, ↓reduceIte, Logged.mem_write, Logged.read_fst, Logged.mem_read]
    split_ifs with hx
    · rw [hx]
    · rfl
  | true =>
    simp only [↓reduceIte, Logged.mem_write, Logged.read_fst, Logged.mem_read]
    split_ifs with hx
    · rw [hx]
    · rfl

theorem size_set (s : BitmapState) (index : BitVec 64) (value : Bool) :
    (s.set index value).2.size = s.size := by
  rw [set]
  cases value <;> split_ifs <;> rfl

theorem buffer_set (s : BitmapState) (index : BitVec 64) (value : Bool) :
    (s.set index value).2.buffer = s.buffer := by
  rw [set]
  cases value <;> split_ifs <;> rfl

theorem set_fst (s : BitmapState) (index : BitVec 64) (value : Bool) :
    (s.set index value).1 = decide (index.toNat < 8 * s.size.toNat) := by
  by_cases h : s.size ≤ index / 8
  · have hout : ¬ index.toNat < 8 * s.size.toNat := fun hlt => inRange_iff.2 hlt h
    rw [set_of_le h, decide_eq_false hout]
  · rw [set, if_neg h, decide_eq_true (inRange_iff.1 h)]
    cases value <;> rfl

theorem get_bitmap_set (s : BitmapState) (index : BitVec 64) (value : Bool) (j : ℕ) :
    (s.set index value).2.bitmap.get j = (s.bitmap.set index.toNat value).1.get j := by
  by_cases h : s.size ≤ index / 8
  · have hle : s.bitmap.size ≤ index.toNat / 8 := by
      rwa [BitVec.le_def, toNat_byteIndex] at h
    rw [set_of_le h, Bitmap.set, if_pos hle]
  · have hle : ¬ s.bitmap.size ≤ index.toNat / 8 := by
      rwa [BitVec.le_def, toNat_byteIndex] at h
    rw [Bitmap.set, if_neg hle]
    refine bitmap_get_congr (congrArg BitVec.toNat (size_set s index value)) (fun k hk => ?_) j
    have hlt := s.size.isLt
    have hk' : k < s.size.toNat := hk.trans_eq (congrArg BitVec.toNat (size_set s index value))
    -- the bytes of the buffer have different addresses even where it wraps around
    have hpos : s.buffer + BitVec.ofNat 64 k = s.buffer + index / 8 ↔ k = index.toNat / 8 := by
      rw [BitVec.add_right_inj, ← BitVec.toNat_inj, toNat_byteIndex, BitVec.toNat_ofNat,
        Nat.mod_eq_of_lt (by omega)]
    simp only [bitmap, mem_set h, buffer_set, hpos]
    by_cases hk : k = index.toNat / 8
    · subst hk
      simp
    · simp [hk]

theorem byteIndex_mem_region (h : ¬ s.size ≤ index / 8) :
    s.buffer + index / 8 ∈ region s.buffer s.size :=
  mem_region (BitVec.not_le.1 h)

theorem confined_get (s : BitmapState) (index : BitVec 64) :
    Confined (region s.buffer s.size) s.memory (s.get index).2.memory := by
  rw [get]
  split_ifs with h
  · exact Confined.refl _ s.memory
  · exact Confined.read s.memory (byteIndex_mem_region h)

theorem confined_set (s : BitmapState) (index : BitVec 64) (value : Bool) :
    Confined (region s.buffer s.size) s.memory (s.set index value).2.memory := by
  by_cases h : s.size ≤ index / 8
  · rw [set_of_le h]
    exact Confined.refl _ s.memory
  · have ha := byteIndex_mem_region h
    have hclear := (Confined.read s.memory ha).trans (Confined.write _
      (s.memory.mem (s.buffer + index / 8) &&& ~~~Bitmap.bitIndexer index.toNat) ha)
    rw [set, if_neg h]
    cases value with
    | false => exact hclear
    | true => exact hclear.trans ((Confined.read _ ha).trans (Confined.write _ _ ha))

/-- **No call touches a byte outside of its buffer.** -/
theorem confined_step (s : BitmapState) (c : BitmapCall) :
    Confined (c.buffer s) s.memory (s.step c).2.memory := by
  cases c with
  | init size bufferAddress => exact confined_memset bufferAddress 0 size s.memory
  | get index => exact confined_get s index
  | set index value => exact confined_set s index value

/-! ### The array of booleans -/

theorem holds_create (size bufferAddress : BitVec 64) (t : LoggedMemory) :
    (create size bufferAddress t).Holds (List.replicate (8 * size.toNat) false) where
  length := List.length_replicate
  get i := by
    have hfalse : (List.replicate (8 * size.toNat) false).getD i false = false := by
      rw [List.getD_eq_getElem?_getD, List.getElem?_replicate]
      split_ifs <;> rfl
    rw [hfalse, Bitmap.get_eq, Bool.and_eq_false_iff]
    by_cases hi : i / 8 < size.toNat
    · right
      have hlt : BitVec.ofNat 64 (i / 8) < size := by
        have hsize := size.isLt
        rw [BitVec.lt_def, BitVec.toNat_ofNat, Nat.mod_eq_of_lt (by omega)]
        exact hi
      have hzero : (create size bufferAddress t).bitmap.bytes (i / 8) = 0#8 :=
        mem_memset 0#8 t hlt
      rw [hzero, BitVec.getLsbD_zero]
    · left
      exact decide_eq_false hi

theorem Holds.get_fst (h : s.Holds bits) (index : BitVec 64) :
    (s.get index).1 = bits.getD index.toNat false := by
  rw [BitmapState.get_fst]
  exact h.get index.toNat

theorem Holds.get_snd (h : s.Holds bits) (index : BitVec 64) : (s.get index).2.Holds bits := by
  rw [BitmapState.get]
  split_ifs
  · exact h
  · exact ⟨h.length, h.get⟩

theorem Holds.set (h : s.Holds bits) (index : BitVec 64) (value : Bool) :
    (s.set index value).2.Holds (bits.set index.toNat value) where
  length := by
    rw [List.length_set, size_set]
    exact h.length
  get i := by
    have hlength := h.length
    have hsize : s.bitmap.size = s.size.toNat := rfl
    rw [get_bitmap_set, Bitmap.get_set, h.get i, hsize, List.getD_eq_getElem?_getD,
      List.getD_eq_getElem?_getD, List.getElem?_set]
    by_cases hi : i = index.toNat
    · subst hi
      by_cases hlt : index.toNat < bits.length
      · have hbyte : index.toNat / 8 < s.size.toNat := by omega
        simp [hbyte, hlt]
      · have hbyte : ¬ index.toNat / 8 < s.size.toNat := by omega
        simp [hbyte, hlt]
    · simp [hi, Ne.symm hi]

theorem refines : Machines.Refines Holds step fun bits c => c.onArray bits where
  answer {s bits} h c := by
    cases c with
    | init size bufferAddress => rfl
    | get index => exact congrArg some (h.get_fst index)
    | set index value => exact congrArg some (by rw [set_fst, h.length])
  related {s bits} h c := by
    cases c with
    | init size bufferAddress => exact holds_create size bufferAddress s.memory
    | get index => exact h.get_snd index
    | set index value => exact h.set index value

end BitmapState

/-- **A bitmap is an array of `8 * Size` booleans.**  Any calls of a new bitmap are answered like
those of the array, which the bitmap then holds.  Each call keeps to the buffer, and a call of `set`
changes the bit it names, when there is one, and no other. -/
theorem bitmap_refines_array :
    (∀ (size bufferAddress : BitVec 64) (t : LoggedMemory) (calls : List BitmapCall),
      let b := Machines.run BitmapState.step (BitmapState.create size bufferAddress t) calls
      let array := Machines.run (fun bits (c : BitmapCall) => c.onArray bits)
        (List.replicate (8 * size.toNat) false) calls
      b.1 = array.1 ∧ b.2.Holds array.2) ∧
    (∀ (s : BitmapState) (c : BitmapCall), Confined (c.buffer s) s.memory (s.step c).2.memory) ∧
    ∀ (s : BitmapState) (i : BitVec 64) (v : Bool),
      ((s.set i v).1 = true ↔ i.toNat < 8 * s.size.toNat) ∧
      (i.toNat < 8 * s.size.toNat → ((s.set i v).2.get i).1 = v) ∧
      (∀ j ≠ i, ((s.set i v).2.get j).1 = (s.get j).1) ∧
      (¬ i.toNat < 8 * s.size.toNat →
        (s.set i v).2.memory.mem = s.memory.mem ∧ (s.get i).1 = false) := by
  refine ⟨fun size bufferAddress t => ?_, BitmapState.confined_step, fun s i v => ⟨?_, ?_, ?_, ?_⟩⟩
  · exact BitmapState.refines.run (BitmapState.holds_create size bufferAddress t)
  · rw [BitmapState.set_fst, decide_eq_true_iff]
  · intro hi
    have hbyte : i.toNat / 8 < s.bitmap.size := by
      have hsize : s.bitmap.size = s.size.toNat := rfl
      omega
    rw [BitmapState.get_fst, BitmapState.get_bitmap_set, Bitmap.get_set, if_pos ⟨rfl, hbyte⟩]
  · intro j hj
    have hne : j.toNat ≠ i.toNat := fun h => hj (BitVec.eq_of_toNat_eq h)
    rw [BitmapState.get_fst, BitmapState.get_fst, BitmapState.get_bitmap_set, Bitmap.get_set,
      if_neg fun h => hne h.1]
  · intro hi
    have hle : s.size ≤ i / 8 := by
      by_contra h
      exact hi (BitmapState.inRange_iff.1 h)
    rw [BitmapState.set_of_le hle, BitmapState.get, if_pos hle]
    exact ⟨rfl, rfl⟩

end Eterna
