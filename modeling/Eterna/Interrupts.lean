import Eterna.Library.LastWrite
import Mathlib.Data.Nat.Notation

/-!
# Interrupt masks

`enable_interrupt`, `disable_interrupt` and `disable_all_interrupts` of `interrupts.cc`.  The two
8259 chips have eight lines each; bit `i` of the mask register, which is read and written at the
data port, masks line `i`.  Reading the port returns the last mask written.

* `masked_call` : what one call does to one line;
* `masks_follow_iff` : `disable_all_interrupts` writes zero masks, which leaves every line unmasked,
  so a line is as asked for exactly if that was not the last call for it.
-/

namespace Eterna

/-- `PIC1_DATA`. -/
def pic1Data : ℕ := 0x21

/-- `PIC2_DATA`. -/
def pic2Data : ℕ := 0xa1

/-- `IRQ_BIT(IRQx)`, an `int`. -/
def irqBit (irq : BitVec 8) : BitVec 32 := 1#32 <<< irq.toNat

/-- `IRQ_UART_COM1`. -/
def irqUartCom1 : BitVec 8 := 4#8

/-- The bytes that were last written to the I/O ports. -/
abbrev Ports := ℕ → BitVec 8

namespace Ports

/-- `in8`. -/
def in8 (p : Ports) (port : ℕ) : BitVec 8 := p port

/-- `out8`. -/
def out8 (p : Ports) (port : ℕ) (value : BitVec 8) : Ports :=
  fun q => if q = port then value else p q

/-- `enable_interrupt`. -/
def enableInterrupt (p : Ports) (irq : BitVec 8) : Ports :=
  if 15#8 < irq then p
  else
    let port := if irq < 8#8 then pic1Data else pic2Data
    let irq := if irq < 8#8 then irq else irq - 8#8
    let value := (((p.in8 port).setWidth 32) &&& ~~~irqBit irq).setWidth 8
    p.out8 port value

/-- `disable_interrupt`. -/
def disableInterrupt (p : Ports) (irq : BitVec 8) : Ports :=
  if 15#8 < irq then p
  else
    let port := if irq < 8#8 then pic1Data else pic2Data
    let irq := if irq < 8#8 then irq else irq - 8#8
    let value := (((p.in8 port).setWidth 32) ||| irqBit irq).setWidth 8
    p.out8 port value

/-- `disable_all_interrupts`. -/
def disableAllInterrupts (p : Ports) : Ports := (p.out8 pic1Data 0#8).out8 pic2Data 0#8

/-- The line is masked: its bit is set in the mask of its chip. -/
def masked (p : Ports) (line : ℕ) : Bool :=
  if line < 8 then (p.in8 pic1Data).getLsbD line else (p.in8 pic2Data).getLsbD (line - 8)

end Ports

/-- A call of the mask API. -/
inductive MaskCall where
  | enable (irq : BitVec 8)
  | disable (irq : BitVec 8)
  | disableAll
deriving DecidableEq

namespace MaskCall

/-- The call is about the line. -/
def affects : MaskCall → ℕ → Bool
  | enable irq, line => irq.toNat == line
  | disable irq, line => irq.toNat == line
  | disableAll, _ => true

/-- Whether a line that the call is about is to be masked. -/
def masks : MaskCall → Bool
  | enable _ => false
  | disable _ => true
  | disableAll => true

/-- Whether a line that the call is about is masked when the call returns. -/
def leavesMasked : MaskCall → Bool
  | enable _ => false
  | disable _ => true
  | disableAll => false

/-- The last of the calls that is about the line. -/
def lastFor (line : ℕ) (calls : List MaskCall) : Option MaskCall :=
  LastWrite.last (fun c => c.affects line = true) calls

end MaskCall

open MaskCall

namespace Ports

/-- The ports after a call. -/
def call (p : Ports) : MaskCall → Ports
  | .enable irq => p.enableInterrupt irq
  | .disable irq => p.disableInterrupt irq
  | .disableAll => p.disableAllInterrupts

/-- The ports after some calls. -/
def run (p : Ports) (calls : List MaskCall) : Ports := calls.foldl call p

variable {p : Ports} {line : ℕ}

/-! ### One call -/

theorem getLsbD_irqBit {irq : BitVec 8} {k : ℕ} (hk : k < 32) :
    (irqBit irq).getLsbD k = decide (k = irq.toNat) := by
  rw [irqBit, BitVec.getLsbD_shiftLeft, BitVec.getLsbD_one, decide_eq_true hk, Bool.true_and]
  by_cases h : k = irq.toNat
  · simp [h]
  · by_cases hlt : k < irq.toNat
    · simp [h, hlt]
    · have hpos : k - irq.toNat ≠ 0 := by omega
      simp [h, hpos]

theorem getLsbD_unmask (x irq : BitVec 8) {k : ℕ} (hk : k < 8) :
    ((x.setWidth 32 &&& ~~~irqBit irq).setWidth 8).getLsbD k =
      if k = irq.toNat then false else x.getLsbD k := by
  have hk32 : k < 32 := by omega
  simp only [BitVec.getLsbD_setWidth, BitVec.getLsbD_and, BitVec.getLsbD_not, getLsbD_irqBit hk32,
    hk, hk32, decide_true, Bool.true_and]
  by_cases h : k = irq.toNat <;> simp [h]

theorem getLsbD_mask (x irq : BitVec 8) {k : ℕ} (hk : k < 8) :
    ((x.setWidth 32 ||| irqBit irq).setWidth 8).getLsbD k =
      if k = irq.toNat then true else x.getLsbD k := by
  have hk32 : k < 32 := by omega
  simp only [BitVec.getLsbD_setWidth, BitVec.getLsbD_or, getLsbD_irqBit hk32, hk, hk32, decide_true,
    Bool.true_and]
  by_cases h : k = irq.toNat <;> simp [h]

theorem masked_eq (p : Ports) (line : ℕ) : p.masked line =
    (p.in8 (if line < 8 then pic1Data else pic2Data)).getLsbD
      (if line < 8 then line else line - 8) := by
  unfold masked
  split <;> rfl

theorem masked_out8 (value : BitVec 8) (chip line : ℕ) :
    (p.out8 (if chip < 8 then pic1Data else pic2Data) value).masked line =
      if (line < 8 ↔ chip < 8) then value.getLsbD (if line < 8 then line else line - 8)
      else p.masked line := by
  have hports : pic1Data ≠ pic2Data := by decide
  rw [masked_eq, masked_eq]
  unfold out8 in8
  by_cases h : line < 8 <;> by_cases h' : chip < 8 <;> simp [h, h', hports, hports.symm]

theorem lt_eight_iff (irq : BitVec 8) : irq < 8#8 ↔ irq.toNat < 8 := BitVec.lt_def

theorem toNat_onChip (irq : BitVec 8) : (if irq < 8#8 then irq else irq - 8#8).toNat =
    if irq.toNat < 8 then irq.toNat else irq.toNat - 8 := by
  simp only [lt_eight_iff]
  split
  next => rfl
  next h => exact BitVec.toNat_sub_of_le (BitVec.le_def.mpr (Nat.le_of_not_lt h))

/-- Writing the mask of the chip of `irq` so that bit `i` becomes `f b` for `i` the number of `irq`
on its chip, and stays `b` otherwise, changes one line. -/
theorem masked_write {irq : BitVec 8} {value : BitVec 8} {b : Bool} (hline : line < 16)
    (hirq : irq.toNat < 16)
    (hvalue : ∀ k < 8, value.getLsbD k =
      if k = (if irq < 8#8 then irq else irq - 8#8).toNat then b
      else (p.in8 (if irq < 8#8 then pic1Data else pic2Data)).getLsbD k) :
    (p.out8 (if irq < 8#8 then pic1Data else pic2Data) value).masked line =
      if irq.toNat = line then b else p.masked line := by
  simp only [toNat_onChip] at hvalue
  simp only [lt_eight_iff] at hvalue ⊢
  rw [masked_out8]
  by_cases hchip : line < 8 ↔ irq.toNat < 8
  · have hk : (if line < 8 then line else line - 8) < 8 := by split <;> omega
    rw [if_pos hchip, hvalue _ hk, masked_eq]
    simp only [hchip]
    by_cases hsame : irq.toNat = line
    · subst hsame
      rw [if_pos rfl, if_pos rfl]
    · rw [if_neg hsame, if_neg (by split <;> omega)]
  · have hne : irq.toNat ≠ line := fun h => hchip (by rw [h])
    rw [if_neg hchip, if_neg hne]

/-- **One call**: `enable_interrupt` unmasks its line and `disable_interrupt` masks it, without a
change to any other line; `disable_all_interrupts` unmasks all lines. -/
theorem masked_call (p : Ports) (c : MaskCall) (hline : line < 16) :
    (p.call c).masked line = if c.affects line then c.leavesMasked else p.masked line := by
  cases c with
  | enable irq =>
    simp only [call, enableInterrupt, affects, leavesMasked, beq_iff_eq]
    split
    next h =>
      have hlt : 15 < irq.toNat := BitVec.lt_def.mp h
      rw [if_neg (by omega)]
    next h =>
      have hle : irq.toNat ≤ 15 := Nat.le_of_not_lt fun hlt => h (BitVec.lt_def.mpr hlt)
      exact masked_write hline (by omega) fun k hk => getLsbD_unmask _ _ hk
  | disable irq =>
    simp only [call, disableInterrupt, affects, leavesMasked, beq_iff_eq]
    split
    next h =>
      have hlt : 15 < irq.toNat := BitVec.lt_def.mp h
      rw [if_neg (by omega)]
    next h =>
      have hle : irq.toNat ≤ 15 := Nat.le_of_not_lt fun hlt => h (BitVec.lt_def.mpr hlt)
      exact masked_write hline (by omega) fun k hk => getLsbD_mask _ _ hk
  | disableAll =>
    rw [masked_eq, affects, if_pos rfl]
    simp only [call, disableAllInterrupts, out8, in8, leavesMasked]
    split <;> simp

end Ports

/-! ### All calls -/

/-- After the calls, a line that some call was about is unmasked exactly if the last of them was
`enable_interrupt`, and any other line is as before. -/
def MasksFollow (p : Ports) (calls : List MaskCall) : Prop :=
  ∀ line < 16, match lastFor line calls with
    | some c => (p.run calls).masked line = c.masks
    | none => (p.run calls).masked line = p.masked line

theorem Ports.masked_run (p : Ports) (calls : List MaskCall) {line : ℕ} (hline : line < 16) :
    (p.run calls).masked line = (lastFor line calls).elim (p.masked line) leavesMasked :=
  LastWrite.read_foldl (fun p => p.masked line) (fun p c => p.masked_call c hline) p calls

/-- **When the masks follow the calls**: exactly if no line is left to `disable_all_interrupts`,
that is every line has been enabled or disabled since it was last called. -/
theorem masks_follow_iff (p : Ports) (calls : List MaskCall) :
    MasksFollow p calls ↔ ∀ line < 16, lastFor line calls ≠ some .disableAll := by
  refine forall₂_congr fun line hline => ?_
  have hrun := p.masked_run calls hline
  cases hlast : lastFor line calls with
  | none =>
    rw [hlast] at hrun
    exact iff_of_true hrun (by simp)
  | some c =>
    rw [hlast] at hrun
    dsimp only
    rw [hrun]
    cases c <;> simp [masks, leavesMasked]

/-- The calls of `kstage1`, `disable_all_interrupts` and then `enable_interrupt(IRQ_UART_COM1)`,
leave every line unmasked. -/
theorem boot_unmasks_all : ¬ ∀ (p : Ports) (calls : List MaskCall), MasksFollow p calls := by
  intro hall
  have hboot : (Ports.run (fun _ => 0xff#8) [.disableAll, .enable irqUartCom1]).masked 0 =
      MaskCall.masks .disableAll :=
    hall (fun _ => 0xff#8) [.disableAll, .enable irqUartCom1] 0 (by decide)
  exact absurd hboot (by decide)

end Eterna
