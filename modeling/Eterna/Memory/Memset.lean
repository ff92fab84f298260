import Eterna.Library.AccessLog
import Eterna.Library.ByteMemory
import Mathlib.Data.BitVec

/-!
# `memset`

`memset` of `memory.cc`, which from 256 bytes on first writes eight bytes at a time and then, in
any case, one byte at a time.  Memory has an address for every 64-bit word, at which a region may
also wrap around, and keeps a log of the addresses that are accessed.

* `confined_wideLoop` : the wide loop stays in the region;
* `memset_fills` : the region is filled, as by the byte loop alone, and nothing else is touched;
* `memset_eq_fill` : hence the calls of `memset` elsewhere may be taken for `ByteMemory.fill`.
-/

namespace Eterna

open AccessLog ByteMemory Loops

/-- Memory with a log of its accesses. -/
abbrev LoggedMemory := Logged (BitVec 64) (BitVec 8)

/-- The addresses `start` to `start + numBytes - 1`. -/
def region (start numBytes : BitVec 64) : Set (BitVec 64) := {a | ∃ i < numBytes, a = start + i}

/-- `*(uint64_t*)a = v`. -/
def writeQWord (t : LoggedMemory) (a v : BitVec 64) : LoggedMemory :=
  forRange 0 8 (fun k t => t.write (a + BitVec.ofNat 64 k) ((v >>> (8 * k)).setWidth 8)) t

/-- `qWordValue`, to which each line ors the value at one of the shifts. -/
def qWordValue (value : BitVec 8) : BitVec 64 :=
  [0, 8, 16, 24, 32, 40, 48, 56].foldl (fun q s => q ||| value.setWidth 64 <<< s) 0#64

/-- The loop of `memset` that writes eight bytes at a time. -/
def wideLoop (start qWordValue numBytes : BitVec 64) (hwide : 256#64 ≤ numBytes) (i : BitVec 64)
    (t : LoggedMemory) : LoggedMemory :=
  if i ≤ numBytes - 8 then
    wideLoop start qWordValue numBytes hwide (i + 8) (writeQWord t (start + i) qWordValue)
  else t
termination_by numBytes.toNat - i.toNat
decreasing_by
  bv_omega

/-- The loop of `memset` that writes one byte at a time. -/
def byteLoop (start : BitVec 64) (value : BitVec 8) (numBytes : BitVec 64) (t : LoggedMemory) :
    LoggedMemory :=
  forRange 0 numBytes.toNat (fun i t => t.write (start + BitVec.ofNat 64 i) value) t

/-- `memset`. -/
def memset (start : BitVec 64) (value : BitVec 8) (numBytes : BitVec 64) (t : LoggedMemory) :
    LoggedMemory :=
  let t := if hwide : 256#64 ≤ numBytes then
      wideLoop start (qWordValue value) numBytes hwide 0 t
    else t
  byteLoop start value numBytes t

variable {start numBytes i : BitVec 64} {t : LoggedMemory}

/-! ### The byte loop -/

theorem mem_region (hi : i < numBytes) : start + i ∈ region start numBytes := ⟨i, hi, rfl⟩

theorem confined_byteLoop (start : BitVec 64) (value : BitVec 8) (numBytes : BitVec 64)
    (t : LoggedMemory) : Confined (region start numBytes) t (byteLoop start value numBytes t) := by
  refine Confined.forRange (fun i hi t => Confined.write t value (mem_region ?_)) t
  have hlt := numBytes.isLt
  rw [BitVec.lt_def, BitVec.toNat_ofNat, Nat.mod_eq_of_lt (by omega)]
  exact hi

theorem mem_byteLoop (value : BitVec 8) (t : LoggedMemory) (hi : i < numBytes) :
    (byteLoop start value numBytes t).mem (start + i) = value := by
  refine read_forRange_of_once (fun t : LoggedMemory => t.mem (start + i)) (fun _ => value)
    (Nat.zero_le i.toNat) hi (fun t => ?_) (fun j _ hj hne t => ?_) t
  · rw [BitVec.ofNat_toNat, BitVec.setWidth_eq, Logged.mem_write, if_pos rfl]
  · rw [Logged.mem_write, if_neg]
    -- the numbers of the iterations are below `2 ^ 64`, so no two write to one address
    intro h
    have hlt := numBytes.isLt
    have hij : i = BitVec.ofNat 64 j := (BitVec.add_right_inj start).1 h
    rw [hij, BitVec.toNat_ofNat, Nat.mod_eq_of_lt (by omega)] at hne
    exact hne rfl

/-! ### The wide loop -/

theorem confined_writeQWord (t : LoggedMemory) (a v : BitVec 64) :
    Confined (region a 8) t (writeQWord t a v) := by
  refine Confined.forRange (fun k hk t => Confined.write t _ (mem_region ?_)) t
  bv_omega

theorem region_subset {k : BitVec 64} (hi : i ≤ numBytes) (hk : k ≤ numBytes - i) :
    region (start + i) k ⊆ region start numBytes := by
  rintro a ⟨j, hj, rfl⟩
  rw [BitVec.add_assoc]
  refine mem_region ?_
  bv_omega

/-- **The wide loop stays in the region**: it ends before fewer than eight bytes are left. -/
theorem confined_wideLoop (start q : BitVec 64) (hwide : 256#64 ≤ numBytes) (i : BitVec 64)
    (t : LoggedMemory) (hi : i ≤ numBytes) :
    Confined (region (start + i) (numBytes - i)) t (wideLoop start q numBytes hwide i t) := by
  have hnum := hwide
  fun_induction wideLoop start q numBytes hwide i t with
  | case1 i t hle ih =>
    have hnext : start + i + 8 = start + (i + 8) := BitVec.add_assoc start i 8
    refine Confined.trans ((confined_writeQWord t (start + i) q).mono ?_) ((ih ?_).mono ?_)
    · rintro a ⟨j, hj, rfl⟩
      refine mem_region ?_
      bv_omega
    · bv_omega
    · rw [← hnext]
      refine region_subset ?_ ?_
      · bv_omega
      · bv_omega
  | case2 i t hle => exact Confined.refl _ t

/-! ### The whole function -/

theorem confined_memset (start : BitVec 64) (value : BitVec 8) (numBytes : BitVec 64)
    (t : LoggedMemory) : Confined (region start numBytes) t (memset start value numBytes t) := by
  refine Confined.trans ?_ (confined_byteLoop start value numBytes _)
  split_ifs with hwide
  · have hfrom := confined_wideLoop start (qWordValue value) hwide 0 t (by bv_omega)
    simpa using hfrom
  · exact Confined.refl _ t

theorem mem_memset (value : BitVec 8) (t : LoggedMemory) (hi : i < numBytes) :
    (memset start value numBytes t).mem (start + i) = value :=
  mem_byteLoop value _ hi

/-- **The region is filled** and nothing else is touched, whichever loops have been taken, and with
the memory that the byte loop alone leaves. -/
theorem memset_fills (start : BitVec 64) (value : BitVec 8) (numBytes : BitVec 64)
    (t : LoggedMemory) :
    (∀ i < numBytes, (memset start value numBytes t).mem (start + i) = value) ∧
    Confined (region start numBytes) t (memset start value numBytes t) ∧
    (memset start value numBytes t).mem = (byteLoop start value numBytes t).mem := by
  refine ⟨fun i hi => mem_memset value t hi, confined_memset start value numBytes t, ?_⟩
  funext a
  by_cases ha : a ∈ region start numBytes
  · obtain ⟨i, hi, rfl⟩ := ha
    rw [mem_memset value t hi, mem_byteLoop value t hi]
  · rw [(confined_memset start value numBytes t).kept a ha,
      (confined_byteLoop start value numBytes t).kept a ha]

/-- A region that does not wrap around is filled as a whole. -/
theorem memset_eq_fill (M : Memory) (l : List (BitVec 64)) (value : UInt8)
    (hroom : start.toNat + numBytes.toNat ≤ 2 ^ 64) (a : BitVec 64) :
    (memset start value.toBitVec numBytes ⟨fun a => (M a.toNat).toBitVec, l⟩).mem a =
      (fill M start.toNat numBytes.toNat value a.toNat).toBitVec := by
  by_cases ha : start.toNat ≤ a.toNat ∧ a.toNat < start.toNat + numBytes.toNat
  · have hpos : a = start + (a - start) := by bv_omega
    have hlt : a - start < numBytes := by bv_omega
    rw [fill_of_mem ha, hpos, mem_memset value.toBitVec _ hlt]
  · have hnotMem : a ∉ region start numBytes := by
      rintro ⟨i, hi, rfl⟩
      bv_omega
    rw [fill_of_notMem (by omega), (confined_memset start value.toBitVec numBytes _).kept a hnotMem]

end Eterna
