import Eterna.Library.LastWrite
import Eterna.Memory.Common
import Mathlib.Tactic.Common

/-!
# Page tables

The types of `memory/paging.hpp`: the flags of a page table entry, the four indices of a virtual
address, and the entry itself.

* `PageDirectoryEntry.flag_setFlag`, `PageDirectoryEntry.address_setFlag`,
  `PageDirectoryEntry.address_setAddress`, `PageDirectoryEntry.flag_setAddress` : the flags and
  the address of an entry are independent fields;
* `PageMapIndexer.ofAddress_eq_iff` : two addresses have the same indices exactly when their bits
  12 to 47 agree;
* `entry_fields_and_indices` : both, and what an entry holds after any updates.
-/

namespace Eterna

/-- `PageTableFlag`. -/
inductive PageTableFlag where
  | present
  | readWrite
  | userSuper
  | writeThrough
  | cacheDisabled
  | accessed
  | dirty
  | largerPages
  | global
  | nx
  deriving DecidableEq, Repr

/-- The bit a flag stands for. -/
def PageTableFlag.bit : PageTableFlag → ℕ
  | .present => 0
  | .readWrite => 1
  | .userSuper => 2
  | .writeThrough => 3
  | .cacheDisabled => 4
  | .accessed => 5
  | .dirty => 6
  | .largerPages => 7
  | .global => 8
  | .nx => 63

/-- The underlying value of a flag, `1ull << bit`. -/
def PageTableFlag.value (f : PageTableFlag) : BitVec 64 := 1#64 <<< f.bit

/-- `PageMapIndexer`: the four table indices of a virtual address. -/
structure PageMapIndexer where
  /-- `PageDirectoryPointerIndex`, the index into the page map level four. -/
  pageDirectoryPointer : Fin 512
  /-- `PageDirectoryIndex`. -/
  pageDirectory : Fin 512
  /-- `PageTableIndex`. -/
  pageTable : Fin 512
  /-- `PageIndex`. -/
  page : Fin 512
  deriving DecidableEq

/-- `x & 0x1ff`. -/
def lowNine (x : ℕ) : Fin 512 := ⟨x &&& 0x1ff, Nat.lt_of_le_of_lt Nat.and_le_right (by decide)⟩

/-- The constructor of `PageMapIndexer`. -/
def PageMapIndexer.ofAddress (virtualAddress : ℕ) : PageMapIndexer where
  page := lowNine (virtualAddress >>> 12)
  pageTable := lowNine (virtualAddress >>> 12 >>> 9)
  pageDirectory := lowNine (virtualAddress >>> 12 >>> 9 >>> 9)
  pageDirectoryPointer := lowNine (virtualAddress >>> 12 >>> 9 >>> 9 >>> 9)

/-- `PageDirectoryEntry`: one 64-bit word. -/
structure PageDirectoryEntry where
  /-- `Value`. -/
  value : BitVec 64 := 0#64
  deriving DecidableEq

namespace PageDirectoryEntry

/-- `address()`: the number of the frame the entry points to. -/
def address (e : PageDirectoryEntry) : ℕ := ((e.value &&& 0x000ffffffffff000#64) >>> 12).toNat

/-- `set_address(addr)`. -/
def setAddress (e : PageDirectoryEntry) (addr : ℕ) : PageDirectoryEntry :=
  ⟨(e.value &&& 0xfff0000000000fff#64) |||
    ((BitVec.ofNat 64 addr &&& 0x000000ffffffffff#64) <<< 12)⟩

/-- `flag(flag)`. -/
def flag (e : PageDirectoryEntry) (f : PageTableFlag) : Bool :=
  decide (e.value &&& f.value ≠ 0#64)

/-- `set_flag(flag, enabled)`. -/
def setFlag (e : PageDirectoryEntry) (f : PageTableFlag) (enabled : Bool) : PageDirectoryEntry :=
  let cleared := e.value &&& ~~~f.value
  ⟨if enabled then cleared ||| f.value else cleared⟩

end PageDirectoryEntry

/-- `PageTable`: 512 entries. -/
abbrev PageTable := Fin 512 → PageDirectoryEntry

/-- Physical memory, page by page: `ram f` is the 4096 bytes of frame `f` read as a table. -/
abbrev PhysicalMemory := ℕ → PageTable

/-- A table that `memset` has just cleared. -/
def PageTable.zero : PageTable := fun _ => {}

/-! ### Indices -/

theorem lowNine_val (x : ℕ) : (lowNine x : ℕ) = x % 512 :=
  Nat.and_two_pow_sub_one_eq_mod x 9

theorem lowNine_eq_iff {x y : ℕ} : lowNine x = lowNine y ↔ x % 512 = y % 512 := by
  rw [Fin.ext_iff, lowNine_val, lowNine_val]

/-- The number of the virtual page of an address: its bits 12 to 47. -/
def pageNumber (virtualAddress : ℕ) : ℕ := virtualAddress / 4096 % 2 ^ 36

theorem PageMapIndexer.ofAddress_eq_iff {v w : ℕ} :
    ofAddress v = ofAddress w ↔ pageNumber v = pageNumber w := by
  simp only [ofAddress, PageMapIndexer.mk.injEq, lowNine_eq_iff, Nat.shiftRight_eq_div_pow,
    pageNumber]
  omega

theorem testBit_pageNumber (v i : ℕ) :
    (pageNumber v).testBit i = (decide (i < 36) && v.testBit (12 + i)) := by
  rw [pageNumber, Nat.testBit_mod_two_pow, show 4096 = 2 ^ 12 from rfl, Nat.testBit_div_two_pow,
    Nat.add_comm]

theorem pageNumber_eq_iff {v w : ℕ} :
    pageNumber v = pageNumber w ↔ ∀ i, 12 ≤ i → i < 48 → v.testBit i = w.testBit i := by
  constructor
  · intro h i hlow hhigh
    have hbit := testBit_pageNumber v (i - 12)
    have hpos : 12 + (i - 12) = i := by omega
    have hlt : i - 12 < 36 := by omega
    rw [h, testBit_pageNumber, hpos] at hbit
    simpa [hlt] using hbit.symm
  · intro h
    apply Nat.eq_of_testBit_eq
    intro i
    rw [testBit_pageNumber, testBit_pageNumber]
    by_cases hi : i < 36
    · rw [h (12 + i) (by omega) (by omega)]
    · simp [hi]

/-! ### Bits of an entry -/

theorem PageTableFlag.value_eq (f : PageTableFlag) : f.value = BitVec.twoPow 64 f.bit :=
  (BitVec.twoPow_eq 64 f.bit).symm

theorem PageTableFlag.bit_lt (f : PageTableFlag) : f.bit < 64 := by cases f <;> decide

theorem PageTableFlag.bit_injective {f g : PageTableFlag} (h : f.bit = g.bit) : f = g := by
  cases f <;> cases g <;> first | rfl | (simp [bit] at h)

theorem PageTableFlag.bit_outside (f : PageTableFlag) : f.bit < 12 ∨ 52 ≤ f.bit := by
  cases f <;> decide

namespace PageDirectoryEntry

theorem flag_eq (e : PageDirectoryEntry) (f : PageTableFlag) :
    e.flag f = e.value.getLsbD f.bit := by
  have hf := f.bit_lt
  rw [flag, f.value_eq, BitVec.and_twoPow]
  cases e.value.getLsbD f.bit
  · simp
  · have key : ∀ k : Fin 64, decide (BitVec.twoPow 64 k ≠ 0#64) = true := by decide
    simpa using key ⟨f.bit, hf⟩

@[simp] theorem flag_zero (f : PageTableFlag) : ({} : PageDirectoryEntry).flag f = false := by
  simp [flag_eq]

theorem getLsbD_setFlag (e : PageDirectoryEntry) (f : PageTableFlag) (b : Bool) (i : ℕ) :
    (e.setFlag f b).value.getLsbD i = if i = f.bit then b else e.value.getLsbD i := by
  have hf := f.bit_lt
  have hv : f.value.getLsbD i = decide (f.bit = i) := by
    rw [f.value_eq, BitVec.getLsbD_twoPow]; simp [hf]
  by_cases hi : i < 64
  · cases b <;> simp only [setFlag, Bool.false_eq_true, ↓reduceIte, BitVec.getLsbD_and,
      BitVec.getLsbD_or, BitVec.getLsbD_not, hv, hi, decide_true, Bool.true_and]
    · by_cases h : i = f.bit
      · simp [h]
      · simp [h, Ne.symm h]
    · by_cases h : i = f.bit
      · simp [h]
      · simp [h, Ne.symm h]
  · have hne : i ≠ f.bit := by omega
    rw [BitVec.getLsbD_of_ge _ i (by omega), BitVec.getLsbD_of_ge _ i (by omega), if_neg hne]

theorem flag_setFlag (e : PageDirectoryEntry) (f g : PageTableFlag) (b : Bool) :
    (e.setFlag g b).flag f = if f = g then b else e.flag f := by
  rw [flag_eq, flag_eq, getLsbD_setFlag]
  by_cases h : f = g
  · simp [h]
  · have hb : f.bit ≠ g.bit := fun e => h (PageTableFlag.bit_injective e)
    simp [h, hb]

theorem address_testBit (e : PageDirectoryEntry) (i : ℕ) :
    e.address.testBit i = (decide (i < 40) && e.value.getLsbD (12 + i)) := by
  -- the mask has the bits 12 to 51
  have mask : ∀ k : Fin 64, (0x000ffffffffff000#64).getLsbD k =
    decide (12 ≤ k.val ∧ k.val < 52) := by
    decide
  rw [address, ← BitVec.getLsbD, BitVec.getLsbD_ushiftRight, BitVec.getLsbD_and]
  by_cases hi : i < 40
  · have := mask ⟨12 + i, by omega⟩
    simp only [this, hi, decide_true, Bool.true_and]
    have hd : (12 ≤ 12 + i ∧ 12 + i < 52) := by omega
    simp [hd]
  · by_cases h64 : 12 + i < 64
    · have hd : ¬ (12 ≤ 12 + i ∧ 12 + i < 52) := by omega
      have := mask ⟨12 + i, h64⟩
      simp only [this, hd, hi, decide_false, Bool.and_false, Bool.false_and]
    · rw [BitVec.getLsbD_of_ge e.value _ (by omega)]; simp

@[simp] theorem address_zero : ({} : PageDirectoryEntry).address = 0 := by decide

theorem address_lt (e : PageDirectoryEntry) : e.address < 2 ^ 40 := by
  apply Nat.lt_pow_two_of_testBit
  intro i hi
  rw [address_testBit]
  have : ¬ i < 40 := by omega
  simp [this]

@[simp] theorem address_setFlag (e : PageDirectoryEntry) (f : PageTableFlag) (b : Bool) :
    (e.setFlag f b).address = e.address := by
  apply Nat.eq_of_testBit_eq
  intro i
  rw [address_testBit, address_testBit, getLsbD_setFlag]
  have hf := f.bit_outside
  by_cases hi : i < 40
  · have hne : 12 + i ≠ f.bit := by omega
    simp [hne]
  · simp [hi]

theorem getLsbD_setAddress (e : PageDirectoryEntry) (a i : ℕ) (hi : i < 64) :
    (e.setAddress a).value.getLsbD i =
      if 12 ≤ i ∧ i < 52 then a.testBit (i - 12) else e.value.getLsbD i := by
  have keep : ∀ k : Fin 64,
      (0xfff0000000000fff#64).getLsbD k = decide (¬ (12 ≤ k.val ∧ k.val < 52)) := by decide
  have low : ∀ k : Fin 64, (0x000000ffffffffff#64).getLsbD k = decide (k.val < 40) := by decide
  have h3 : i - 12 < 64 := by omega
  simp only [setAddress, BitVec.getLsbD_or, BitVec.getLsbD_and, BitVec.getLsbD_shiftLeft,
    keep ⟨i, hi⟩, low ⟨i - 12, h3⟩, hi, decide_true, Bool.true_and]
  rw [BitVec.getLsbD_ofNat]
  by_cases h : 12 ≤ i ∧ i < 52
  · have h1 : ¬ i < 12 := by omega
    have h2 : i - 12 < 40 := by omega
    simp [h, h1, h2, h3]
  · rw [if_neg h]
    by_cases h1 : i < 12
    · simp [h1]
    · have h2 : ¬ i - 12 < 40 := by omega
      simp [h, h2]

@[simp] theorem address_setAddress (e : PageDirectoryEntry) (a : ℕ) :
    (e.setAddress a).address = a % 2 ^ 40 := by
  apply Nat.eq_of_testBit_eq
  intro i
  rw [address_testBit, Nat.testBit_mod_two_pow]
  by_cases hi : i < 40
  · rw [getLsbD_setAddress _ _ _ (by omega), if_pos (by omega), Nat.add_sub_cancel_left]
  · simp [hi]

@[simp] theorem flag_setAddress (e : PageDirectoryEntry) (a : ℕ) (f : PageTableFlag) :
    (e.setAddress a).flag f = e.flag f := by
  have hf := f.bit_outside
  rw [flag_eq, flag_eq, getLsbD_setAddress _ _ _ f.bit_lt, if_neg (by omega)]

end PageDirectoryEntry

/-! ### Updates -/

/-- An update of an entry. -/
inductive EntryUpdate where
  | setAddress (addr : ℕ)
  | setFlag (f : PageTableFlag) (enabled : Bool)
  deriving DecidableEq

namespace EntryUpdate

/-- The address that an update sets. -/
def address? : EntryUpdate → Option ℕ
  | .setAddress addr => some addr
  | .setFlag _ _ => none

/-- What an update sets a flag to. -/
def flag? (f : PageTableFlag) : EntryUpdate → Option Bool
  | .setAddress _ => none
  | .setFlag g enabled => if f = g then some enabled else none

end EntryUpdate

namespace PageDirectoryEntry

/-- The effect of an update. -/
def update (e : PageDirectoryEntry) : EntryUpdate → PageDirectoryEntry
  | .setAddress addr => e.setAddress addr
  | .setFlag f enabled => e.setFlag f enabled

open LastWrite

theorem address_foldl_update (e : PageDirectoryEntry) (us : List EntryUpdate) :
    (us.foldl update e).address =
      (lastValue EntryUpdate.address? us).elim e.address fun a => a % 2 ^ 40 := by
  refine read_foldl_value address (fun e u => ?_) e us
  cases u with
  | setAddress addr => exact address_setAddress e addr
  | setFlag f enabled => exact address_setFlag e f enabled

theorem flag_foldl_update (e : PageDirectoryEntry) (us : List EntryUpdate) (f : PageTableFlag) :
    (us.foldl update e).flag f = (lastValue (EntryUpdate.flag? f) us).elim (e.flag f) id := by
  refine read_foldl_value (fun e : PageDirectoryEntry => e.flag f) (fun e u => ?_) e us
  cases u with
  | setAddress addr => exact flag_setAddress e addr f
  | setFlag g enabled =>
    simp only [update, flag_setFlag, EntryUpdate.flag?]
    split_ifs <;> rfl

end PageDirectoryEntry

/-- **The fields of an entry are independent, and the indices are the bits 12 to 47.** -/
theorem entry_fields_and_indices :
    (∀ (e : PageDirectoryEntry) (a : ℕ), a < 2 ^ 40 → (e.setAddress a).address = a ∧
      ∀ i < 64, i < 12 ∨ 52 ≤ i → (e.setAddress a).value.getLsbD i = e.value.getLsbD i) ∧
    (∀ (e : PageDirectoryEntry) (f : PageTableFlag) (b : Bool), (e.setFlag f b).flag f = b ∧
      (e.setFlag f b).address = e.address ∧ ∀ g ≠ f, (e.setFlag f b).flag g = e.flag g) ∧
    (∀ (e : PageDirectoryEntry) (us : List EntryUpdate),
      (us.foldl PageDirectoryEntry.update e).address =
        (LastWrite.lastValue EntryUpdate.address? us).elim e.address (fun a => a % 2 ^ 40) ∧
      ∀ f, (us.foldl PageDirectoryEntry.update e).flag f =
        (LastWrite.lastValue (EntryUpdate.flag? f) us).elim (e.flag f) id) ∧
    ∀ v w, PageMapIndexer.ofAddress v = PageMapIndexer.ofAddress w ↔
      ∀ i, 12 ≤ i → i < 48 → v.testBit i = w.testBit i := by
  refine ⟨fun e a ha => ⟨?_, fun i hi houtside => ?_⟩, fun e f b => ⟨?_, e.address_setFlag f b, ?_⟩,
    fun e us => ⟨e.address_foldl_update us, e.flag_foldl_update us⟩, fun v w => ?_⟩
  · rw [PageDirectoryEntry.address_setAddress, Nat.mod_eq_of_lt ha]
  · rw [PageDirectoryEntry.getLsbD_setAddress e a i hi, if_neg (by omega)]
  · rw [PageDirectoryEntry.flag_setFlag, if_pos rfl]
  · intro g hg
    rw [PageDirectoryEntry.flag_setFlag, if_neg hg]
  · rw [PageMapIndexer.ofAddress_eq_iff, pageNumber_eq_iff]

/-- An entry of zeros that is given the address 12. -/
theorem entry_fields_and_indices_twelve :
    (({} : PageDirectoryEntry).setAddress 12).address = 12 :=
  (entry_fields_and_indices.1 {} 12 (by decide)).1

end Eterna
