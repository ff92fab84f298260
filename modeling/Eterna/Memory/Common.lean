import Mathlib.Algebra.Order.Ring.Nat

/-!
# Machine words and page arithmetic

The kernel computes with `uint64_t`.  A word is modelled as a natural number below `2 ^ 64`, and
every addition, subtraction and multiplication of the source is one of `add64`, `sub64`, `mul64`,
which reduce modulo `2 ^ 64`.  The constants are those of `memory/common.hpp` and of the linker
script.
-/

namespace Eterna

/-- Addition of two `uint64_t`. -/
def add64 (a b : ℕ) : ℕ := (a + b) % 2 ^ 64

/-- Subtraction of two `uint64_t`. -/
def sub64 (a b : ℕ) : ℕ := (a + (2 ^ 64 - b % 2 ^ 64)) % 2 ^ 64

/-- Multiplication of two `uint64_t`. -/
def mul64 (a b : ℕ) : ℕ := a * b % 2 ^ 64

/-- `PAGE_SIZE`. -/
def pageSize : ℕ := 4096

/-- `MiB(x)`. -/
def mib (x : ℕ) : ℕ := x <<< 20

/-- The number of iterations of `for (t = start; t < bound; t += PAGE_SIZE)`. -/
def pageSteps (start bound : ℕ) : ℕ := (bound - start + (pageSize - 1)) / pageSize

/-- `KERNEL_PHYSICAL`. -/
def kernelPhysical : ℕ := 0x100000

/-- `KERNEL_VIRTUAL`. -/
def kernelVirtual : ℕ := 0xffffffff80000000

/-- `KERNEL_START`. -/
def kernelStart : ℕ := kernelPhysical + kernelVirtual

/-- What the linker script fixes about a kernel image: its end, which as a symbol is a 64-bit
address at or above the start, and the address of the buffer `InitialPageBitmap`. -/
structure KernelImage where
  /-- `KERNEL_END`. -/
  kernelEnd : ℕ
  /-- `&InitialPageBitmap[0]`. -/
  initialPageBitmap : ℕ
  start_le : kernelStart ≤ kernelEnd
  end_lt : kernelEnd < 2 ^ 64

/-- `KERNEL_END - KERNEL_START`. -/
def KernelImage.byteCount (k : KernelImage) : ℕ := k.kernelEnd - kernelStart

/-- A kernel that ends where it starts. -/
def KernelImage.empty : KernelImage := ⟨kernelStart, 0, Nat.le_refl _, by decide⟩

theorem add64_lt (a b : ℕ) : add64 a b < 2 ^ 64 := Nat.mod_lt _ (by decide)

theorem sub64_lt (a b : ℕ) : sub64 a b < 2 ^ 64 := Nat.mod_lt _ (by decide)

theorem add64_of_lt {a b : ℕ} (h : a + b < 2 ^ 64) : add64 a b = a + b := Nat.mod_eq_of_lt h

theorem mul64_of_lt {a b : ℕ} (h : a * b < 2 ^ 64) : mul64 a b = a * b := Nat.mod_eq_of_lt h

theorem sub64_of_le {a b : ℕ} (h : b ≤ a) (ha : a < 2 ^ 64) : sub64 a b = a - b := by
  unfold sub64; omega

/-- Moving one unit from one counter to another keeps their sum, wrapped or not. -/
theorem add64_sub64_add64 (a b : ℕ) : add64 (sub64 a 1) (add64 b 1) = add64 a b := by
  unfold add64 sub64; omega

theorem add64_add64_sub64 (a b : ℕ) : add64 (add64 a 1) (sub64 b 1) = add64 a b := by
  unfold add64 sub64; omega

end Eterna
