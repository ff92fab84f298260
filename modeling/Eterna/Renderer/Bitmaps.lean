import Eterna.Renderer.Drawing
import Mathlib.Data.Nat.Bitwise

/-!
# Bitmaps

`drawBMP` and `drawBMPOver` take the byte of a pixel from its place in the whole bitmap, and the bit
from its column alone.

* `bitmapBit_eq` : the bit that decides a pixel;
* `draws_bits_iff` : for which rectangles it is the pixel's own;
* `drawBMP_eq` : drawing a bitmap is clearing its rectangle and drawing the bitmap over it.
-/

namespace Eterna

/-- A framebuffer whose scan lines have room for its pixels. -/
structure Screen extends Framebuffer where
  width_le_pitch : pixelWidth ≤ pixelsPerScanLine

/-- Bit number `n` of a packed bitmap, the most significant bit of each byte first. -/
def packedBit (bitmap : ℤ → UInt8) (n : ℕ) : Bool := (bitmap (n / 8 : ℕ)).toNat.testBit (7 - n % 8)

/-- The bitmap with bit number `n` and no other. -/
def singleBit (n : ℕ) : ℤ → UInt8 :=
  fun k => if k = (n / 8 : ℕ) then UInt8.ofNat (2 ^ (7 - n % 8)) else 0

namespace Framebuffer

variable {target : Framebuffer} {position size : Vector2} {bitmap : ℤ → UInt8}
  {initX i j n k x y w : ℕ}

/-! ### Bits -/

theorem toNat_shift : ∀ k < 8, ((0b10000000 : UInt8) >>> UInt8.ofNat k).toNat = 2 ^ (7 - k) := by
  decide

theorem mask_pos_iff (b : UInt8) (hk : k < 8) :
    0 < b &&& ((0b10000000 : UInt8) >>> UInt8.ofNat k) ↔ b.toNat.testBit (7 - k) = true := by
  have hzero : (0 : UInt8).toNat = 0 := rfl
  rw [UInt8.lt_iff_toNat_lt, UInt8.toNat_and, toNat_shift k hk, Nat.and_two_pow, hzero]
  cases b.toNat.testBit (7 - k) <;> simp

/-- The index of the byte, an `int32_t`. -/
def byteIndex (initX i j : ℕ) : ℤ := (BitVec.ofNat 32 (add64 i (mul64 j initX) / 8)).toInt

/-- **The bit that decides a pixel.** -/
theorem bitmapBit_eq :
    bitmapBit bitmap initX i j = (bitmap (byteIndex initX i j)).toNat.testBit (7 - i % 8) := by
  rw [Bool.eq_iff_iff, bitmapBit, decide_eq_true_iff]
  exact mask_pos_iff _ (Nat.mod_lt i (by decide))

theorem packedBit_singleBit : packedBit (singleBit n) n = true := by
  have hpow : 2 ^ (7 - n % 8) < 2 ^ 8 := Nat.pow_lt_pow_right (by decide) (by omega)
  rw [packedBit, singleBit, if_pos rfl, UInt8.toNat_ofNat', Nat.mod_eq_of_lt hpow]
  exact Nat.testBit_two_pow_self

theorem of_bitmapBit_singleBit (h : bitmapBit (singleBit n) initX i j = true) :
    byteIndex initX i j = (n / 8 : ℕ) ∧ i % 8 = n % 8 := by
  rw [bitmapBit_eq, singleBit] at h
  split_ifs at h with hbyte
  · have hpow : 2 ^ (7 - n % 8) < 2 ^ 8 := Nat.pow_lt_pow_right (by decide) (by omega)
    rw [UInt8.toNat_ofNat', Nat.mod_eq_of_lt hpow, Nat.testBit_two_pow] at h
    have := of_decide_eq_true h
    exact ⟨hbyte, by omega⟩
  · simp at h

/-- The index wraps from `2 ^ 31` on. -/
theorem byteIndex_eq_iff (hi : i < 2 ^ 32) (hj : j < 2 ^ 32) (hw : initX < 2 ^ 32)
    (hn : (i + j * initX) / 8 ≤ n) :
    byteIndex initX i j = n ↔ (i + j * initX) / 8 = n ∧ n < 2 ^ 31 := by
  have hle : j * initX ≤ (2 ^ 32 - 1) * (2 ^ 32 - 1) := Nat.mul_le_mul (by omega) (by omega)
  rw [byteIndex, mul64_of_lt (by omega), add64_of_lt (by omega), BitVec.toInt_eq_toNat_cond,
    BitVec.toNat_ofNat]
  generalize (i + j * initX) / 8 = m at hn
  split <;> omega

/-! ### Rectangles -/

/-- `drawBMP` and `drawBMPOver` give each visible pixel of a bitmap the colour that its own bit
stands for, whatever the bitmap. -/
structure DrawsBits (target : Framebuffer) (position size : Vector2) : Prop where
  drawBMP : ∀ bitmap background color i j,
    Visible target position size (position.x + i) (position.y + j) →
      (target.drawBMP background position size (some bitmap) color).1.words
        (target.place (position.x + i) (position.y + j)) =
        if packedBit bitmap (j * size.x + i) then color else background
  drawBMPOver : ∀ bitmap color i j,
    Visible target position size (position.x + i) (position.y + j) →
      (target.drawBMPOver position size (some bitmap) color).1.words
        (target.place (position.x + i) (position.y + j)) =
        if packedBit bitmap (j * size.x + i) then color
        else target.words (target.place (position.x + i) (position.y + j))

/-- Only the first row is visible; or the width is a number of whole bytes that a `uint32_t` can
hold, and the byte of every visible pixel has an index that an `int32_t` can hold. -/
def WholeBytes (target : Framebuffer) (position size : Vector2) : Prop :=
  ∀ i j, Visible target position size (position.x + i) (position.y + j) →
    j = 0 ∨ 8 ∣ size.x ∧ size.x < 2 ^ 32 ∧ j * size.x + i < 2 ^ 34

/-- The bit that decides a pixel is its own. -/
def Decides (size : Vector2) (i j : ℕ) : Prop :=
  byteIndex (size.x % 2 ^ 32) i j = ((j * size.x + i) / 8 : ℕ) ∧ i % 8 = (j * size.x + i) % 8

theorem bitmapBit_of_decides (h : Decides size i j) :
    bitmapBit bitmap (size.x % 2 ^ 32) i j = packedBit bitmap (j * size.x + i) := by
  rw [bitmapBit_eq, h.1, h.2, packedBit]

theorem Visible.bounds (hv : Visible target position size (position.x + i) (position.y + j)) :
    i < 2 ^ 32 ∧ j < 2 ^ 32 := by
  have hwidth := target.width_lt
  have hheight := target.height_lt
  have hcolumn := hv.column
  have hrow := hv.row
  omega

theorem drawBMP_visible {background color : UInt32}
    (hpitch : target.pixelWidth ≤ target.pixelsPerScanLine)
    (hv : Visible target position size (position.x + i) (position.y + j)) :
    (target.drawBMP background position size (some bitmap) color).1.words
        (target.place (position.x + i) (position.y + j)) =
      if bitmapBit bitmap (size.x % 2 ^ 32) i j then color else background := by
  refine (drawClipped_visible hpitch hv).trans ?_
  rw [Nat.add_sub_cancel_left, Nat.add_sub_cancel_left]
  rfl

theorem drawBMPOver_visible {color : UInt32}
    (hpitch : target.pixelWidth ≤ target.pixelsPerScanLine)
    (hv : Visible target position size (position.x + i) (position.y + j)) :
    (target.drawBMPOver position size (some bitmap) color).1.words
        (target.place (position.x + i) (position.y + j)) =
      if bitmapBit bitmap (size.x % 2 ^ 32) i j then color
      else target.words (target.place (position.x + i) (position.y + j)) := by
  refine (drawClipped_visible hpitch hv).trans ?_
  rw [Nat.add_sub_cancel_left, Nat.add_sub_cancel_left]
  split <;> rfl

theorem WholeBytes.decides (h : WholeBytes target position size)
    (hv : Visible target position size (position.x + i) (position.y + j)) : Decides size i j := by
  obtain ⟨hi, hj⟩ := hv.bounds
  have hmod : size.x % 2 ^ 32 < 2 ^ 32 := Nat.mod_lt _ (by decide)
  obtain rfl | ⟨⟨m, hm⟩, hwidth, hlast⟩ := h i j hv
  · rw [Decides, Nat.zero_mul, Nat.zero_add, byteIndex_eq_iff hi hj hmod (by omega)]
    omega
  · have hrow : j * size.x = 8 * (j * m) := by rw [hm, Nat.mul_left_comm]
    rw [← Nat.mod_eq_of_lt hwidth] at hrow
    rw [Nat.mod_eq_of_lt hwidth] at hrow
    rw [Decides, byteIndex_eq_iff hi hj hmod (by rw [Nat.mod_eq_of_lt hwidth]; omega),
      Nat.mod_eq_of_lt hwidth]
    omega

/-- If the bit of a pixel in a later row is its own, the index has not wrapped. -/
theorem Decides.bounds (h : Decides size i j) (hi : i < 2 ^ 32) (hj : j < 2 ^ 32) (hpos : 0 < j) :
    size.x < 2 ^ 32 ∧ j * size.x + i < 2 ^ 34 := by
  have hrow : j * size.x = j * (size.x % 2 ^ 32) + 2 ^ 32 * (j * (size.x / 2 ^ 32)) := by
    rw [Nat.mul_left_comm, ← Nat.mul_add, Nat.mod_add_div]
  obtain ⟨heq, hlt⟩ := (byteIndex_eq_iff hi hj (Nat.mod_lt _ (by decide)) (by omega)).1 h.1
  have hwrap : j * (size.x / 2 ^ 32) = 0 := by omega
  obtain hzero | hzero := Nat.mul_eq_zero.1 hwrap
  · omega
  · omega

theorem Visible.above (hv : Visible target position size (position.x + i) (position.y + j))
    (hk : k ≤ j) : Visible target position size (position.x + i) (position.y + k) := by
  obtain ⟨hleft, hright, htop, hbottom, hcolumn, hrow⟩ := hv
  exact ⟨hleft, hright, by omega, by omega, hcolumn, by omega⟩

theorem DrawsBits.decides (hpitch : target.pixelWidth ≤ target.pixelsPerScanLine)
    (h : DrawsBits target position size)
    (hv : Visible target position size (position.x + i) (position.y + j)) : Decides size i j := by
  have hdrawn := h.drawBMP (singleBit (j * size.x + i)) 0 1 i j hv
  rw [packedBit_singleBit, if_pos rfl, drawBMP_visible hpitch hv] at hdrawn
  split_ifs at hdrawn with hbit
  · exact of_bitmapBit_singleBit hbit
  · exact absurd hdrawn (by decide)

theorem DrawsBits.wholeBytes (hpitch : target.pixelWidth ≤ target.pixelsPerScanLine)
    (h : DrawsBits target position size) : WholeBytes target position size := by
  intro i j hv
  obtain rfl | hpos := Nat.eq_zero_or_pos j
  · exact .inl rfl
  obtain ⟨hi, hj⟩ := hv.bounds
  -- the second row shows the width to be a multiple of 8
  have hsecond := (h.decides hpitch (hv.above hpos)).2
  rw [Nat.succ_mul, Nat.zero_mul, Nat.zero_add] at hsecond
  exact .inr ⟨by omega, (h.decides hpitch hv).bounds hi hj hpos⟩

end Framebuffer

open Framebuffer

/-- **A bitmap is drawn bit by bit** exactly if every visible row but the first starts with a byte
of its own. -/
theorem draws_bits_iff (screen : Screen) (position size : Vector2) :
    DrawsBits screen.toFramebuffer position size ↔
      WholeBytes screen.toFramebuffer position size := by
  have hpitch := screen.width_le_pitch
  constructor
  · exact DrawsBits.wholeBytes hpitch
  · intro h
    refine ⟨fun bitmap background color i j hv => ?_, fun bitmap color i j hv => ?_⟩
    · rw [drawBMP_visible hpitch hv, bitmapBit_of_decides (h.decides hv)]
    · rw [drawBMPOver_visible hpitch hv, bitmapBit_of_decides (h.decides hv)]

/-- The screen of 4 by 3 pixels. -/
def Screen.small : Screen := ⟨Framebuffer.small, by decide⟩

/-- In a bitmap that is 4 pixels wide, the second row is decided by the bits of the first. -/
theorem narrow_bitmap_misdrawn : ¬ ∀ (screen : Screen) (position size : Vector2),
    DrawsBits screen.toFramebuffer position size := by
  intro h
  have hv : Visible Screen.small.toFramebuffer ⟨0, 0⟩ ⟨4, 2⟩ (0 + 0) (0 + 1) := by
    constructor <;> decide
  obtain h0 | ⟨hdvd, -⟩ :=
    DrawsBits.wholeBytes Screen.small.width_le_pitch (h _ _ _) 0 1 hv
  · exact absurd h0 (by decide)
  · exact absurd hdvd (by decide)

/-! ### Drawing over a cleared rectangle -/

namespace Framebuffer

variable {target : Framebuffer} {position size : Vector2} {ink : ℕ → ℕ → ℕ → Option UInt32}
  {x y : ℕ}

theorem visible_clampDrawPosition :
    Visible target (target.clampDrawPosition position) size x y ↔
      Visible target position size x y := by
  constructor
  · intro hv
    have hcolumn := hv.left.trans_lt hv.column
    have hrow := hv.top.trans_lt hv.row
    -- a clamped position from which a pixel is visible is the position itself
    have hsame : target.clampDrawPosition position = position := by
      simp only [clampDrawPosition] at hcolumn hrow ⊢
      rw [if_neg fun hlt => by simp [hlt] at hcolumn, if_neg fun hlt => by simp [hlt] at hrow]
    rwa [hsame] at hv
  · intro hv
    rwa [clampDrawPosition_of_visible hv]

theorem visible_with_words {words : ℕ → UInt32} :
    Visible { target with words := words } position size x y ↔ Visible target position size x y :=
  ⟨fun ⟨hl, hr, ht, hb, hc, hw⟩ => ⟨hl, hr, ht, hb, hc, hw⟩,
    fun ⟨hl, hr, ht, hb, hc, hw⟩ => ⟨hl, hr, ht, hb, hc, hw⟩⟩

theorem clampDrawPosition_idem :
    target.clampDrawPosition (target.clampDrawPosition position) =
      target.clampDrawPosition position := by
  simp only [clampDrawPosition, Vector2.mk.injEq]
  constructor
  · split <;> simp_all
  · split <;> simp_all

/-- Clearing with one colour and then drawing some of the pixels is drawing all of them. -/
theorem drawClipped_drawRect {color : UInt32}
    (hpitch : target.pixelWidth ≤ target.pixelsPerScanLine) :
    (target.drawRect position size color).1.drawClipped (target.drawRect position size color).2
        size ink =
      target.drawClipped position size fun initX i j => some ((ink initX i j).getD color) := by
  have hvisible : ∀ x y, Visible (target.drawRect position size color).1
      (target.drawRect position size color).2 size x y ↔ Visible target position size x y :=
    fun x y => visible_with_words.trans visible_clampDrawPosition
  have hwords : ((target.drawRect position size color).1.drawClipped
        (target.drawRect position size color).2 size ink).1.words =
      (target.drawClipped position size
        fun initX i j => some ((ink initX i j).getD color)).1.words := by
    funext k
    by_cases hk : ∃ x y, Visible target position size x y ∧ target.place x y = k
    · obtain ⟨x, y, hv, rfl⟩ := hk
      have hstart : (target.drawRect position size color).2 = position :=
        clampDrawPosition_of_visible hv
      have hcleared : (target.drawRect position size color).1.words (target.place x y) = color :=
        drawRect_visible hpitch hv
      have hover := @drawClipped_visible (target.drawRect position size color).1
        (target.drawRect position size color).2 size ink x y hpitch ((hvisible x y).2 hv)
      refine hover.trans (Eq.trans ?_ (drawClipped_visible hpitch hv).symm)
      rw [hstart, Option.getD_some]
      exact congrArg _ hcleared
    · have hk' : ∀ x y, Visible target position size x y → target.place x y ≠ k :=
        fun x y hv h => hk ⟨x, y, hv, h⟩
      have hover := @drawClipped_elsewhere (target.drawRect position size color).1
        (target.drawRect position size color).2 size ink k
        fun x y hv => hk' x y ((hvisible x y).1 hv)
      exact hover.trans ((drawClipped_elsewhere hk').trans (drawClipped_elsewhere hk').symm)
  exact Prod.ext (congrArg (fun words => { target with words := words }) hwords)
    clampDrawPosition_idem

end Framebuffer

/-- **Drawing a bitmap** is clearing its rectangle and drawing the bitmap over it, from the position
where clearing has left it. -/
theorem drawBMP_eq (screen : Screen) (background : UInt32) (position size : Vector2)
    (bitmap : ℤ → UInt8) (color : UInt32) :
    screen.drawBMP background position size (some bitmap) color =
      (screen.drawRect position size background).1.drawBMPOver
        (screen.drawRect position size background).2 size (some bitmap) color := by
  simp only [drawBMP, drawBMPOver]
  rw [drawClipped_drawRect screen.width_le_pitch]
  congr 1
  funext initX i j
  split <;> rfl

end Eterna
