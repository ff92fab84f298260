import Eterna.Library.Loops
import Eterna.Memory.Common
import Mathlib.Logic.Function.Basic

/-!
# Drawing rectangles

The functions of `renderer.cc` that draw a rectangle of pixels into the target framebuffer.  Word
`k` of a framebuffer is the 32-bit word at `BaseAddress + 4 * k`, and pixel `(x, y)` is word
`x + y * PixelsPerScanLine`.  The buffers that the callers pass lie outside of it.

* `drawClipped` : what the four functions share;
* `drawClipped_visible`, `drawClipped_elsewhere` : what it does to the pixels of the rectangle that
  are on the screen, and to all other words;
* `drawing_clipped` : so `drawRect` and `drawPix` draw just these pixels, and no drawing function
  changes another word.
-/

namespace Eterna

open Loops

/-- `Vector2<uint64_t>`. -/
structure Vector2 where
  x : ℕ
  y : ℕ
  deriving DecidableEq

/-- `Framebuffer`, with its contents. -/
structure Framebuffer where
  /-- `PixelWidth`. -/
  pixelWidth : ℕ
  /-- `PixelHeight`. -/
  pixelHeight : ℕ
  /-- `PixelsPerScanLine`. -/
  pixelsPerScanLine : ℕ
  /-- The words from `BaseAddress` on. -/
  words : ℕ → UInt32
  width_lt : pixelWidth < 2 ^ 32
  height_lt : pixelHeight < 2 ^ 32
  pitch_lt : pixelsPerScanLine < 2 ^ 32

namespace Framebuffer

/-- `clamp_draw_position`. -/
def clampDrawPosition (target : Framebuffer) (position : Vector2) : Vector2 where
  x := if target.pixelWidth < position.x then target.pixelWidth else position.x
  y := if target.pixelHeight < position.y then target.pixelHeight else position.y

/-- What `drawRect`, `drawPix`, `drawBMP` and `drawBMPOver` share: the position is clamped, the size
is cut off at the edges, and the rest is drawn row by row.  `ink initX i j` is the colour of column
`i` and row `j` of the rectangle, if it is drawn, where `initX` is the width that was asked for, as
a `uint32_t`.  The result is the framebuffer and the clamped position. -/
def drawClipped (target : Framebuffer) (position size : Vector2)
    (ink : ℕ → ℕ → ℕ → Option UInt32) : Framebuffer × Vector2 :=
  let position := target.clampDrawPosition position
  let initX := size.x % 2 ^ 32
  let diffX := sub64 target.pixelWidth position.x % 2 ^ 32
  let diffY := sub64 target.pixelHeight position.y % 2 ^ 32
  let sizeX := if diffX < size.x then diffX else size.x
  let sizeY := if diffY < size.y then diffY else size.y
  let words := forRange position.y (add64 position.y sizeY) (fun y =>
    forRange position.x (add64 position.x sizeX) fun x words =>
      match ink initX (sub64 x position.x) (sub64 y position.y) with
      | some color => Function.update words (x + mul64 y target.pixelsPerScanLine) color
      | none => words) target.words
  ({ target with words := words }, position)

/-- `drawRect(position, size, color)`. -/
def drawRect (target : Framebuffer) (position size : Vector2) (color : UInt32) :
    Framebuffer × Vector2 :=
  target.drawClipped position size fun _ _ _ => some color

/-- `drawPix(position, size, pixels)`. -/
def drawPix (target : Framebuffer) (position size : Vector2) (pixels : Option (ℕ → UInt32)) :
    Framebuffer × Vector2 :=
  match pixels with
  | none => (target, position)
  | some pixels =>
    target.drawClipped position size fun initX i j => some (pixels (add64 i (mul64 j initX)))

/-- The test of `drawBMP` and `drawBMPOver` for column `i` and row `j`.  The index of the byte is an
`int32_t`. -/
def bitmapBit (bitmap : ℤ → UInt8) (initX i j : ℕ) : Bool :=
  let byte := (BitVec.ofNat 32 (add64 i (mul64 j initX) / 8)).toInt
  decide ((0 : UInt8) < bitmap byte &&& ((0b10000000 : UInt8) >>> UInt8.ofNat (i % 8)))

/-- `drawBMP(position, size, bitmap, color)`. -/
def drawBMP (target : Framebuffer) (backgroundColor : UInt32) (position size : Vector2)
    (bitmap : Option (ℤ → UInt8)) (color : UInt32) : Framebuffer × Vector2 :=
  match bitmap with
  | none => (target, position)
  | some bitmap =>
    target.drawClipped position size fun initX i j =>
      some (if bitmapBit bitmap initX i j then color else backgroundColor)

/-- `drawBMPOver(position, size, bitmap, color)`. -/
def drawBMPOver (target : Framebuffer) (position size : Vector2) (bitmap : Option (ℤ → UInt8))
    (color : UInt32) : Framebuffer × Vector2 :=
  match bitmap with
  | none => (target, position)
  | some bitmap =>
    target.drawClipped position size fun initX i j =>
      if bitmapBit bitmap initX i j then some color else none

variable {target : Framebuffer} {position size : Vector2} {ink : ℕ → ℕ → ℕ → Option UInt32}
  {x y k : ℕ}

/-! ### Pixels -/

/-- The word of a pixel. -/
def place (target : Framebuffer) (x y : ℕ) : ℕ := x + y * target.pixelsPerScanLine

/-- The pixel is in the rectangle, and on the screen. -/
structure Visible (target : Framebuffer) (position size : Vector2) (x y : ℕ) : Prop where
  left : position.x ≤ x
  right : x < position.x + size.x
  top : position.y ≤ y
  bottom : y < position.y + size.y
  column : x < target.pixelWidth
  row : y < target.pixelHeight

theorem add_mul_inj {a b a' b' w : ℕ} (ha : a < w) (ha' : a' < w) (h : a + b * w = a' + b' * w) :
    a = a' ∧ b = b' := by
  have hpos : 0 < w := by omega
  have hmod := congrArg (· % w) h
  have hdiv := congrArg (· / w) h
  simp only [Nat.add_mul_mod_self_right, Nat.add_mul_div_right _ _ hpos] at hmod hdiv
  rw [Nat.mod_eq_of_lt ha, Nat.mod_eq_of_lt ha'] at hmod
  rw [Nat.div_eq_of_lt ha, Nat.div_eq_of_lt ha', Nat.zero_add, Nat.zero_add] at hdiv
  exact ⟨hmod, hdiv⟩

theorem place_inj (hpitch : target.pixelWidth ≤ target.pixelsPerScanLine) {x' y' : ℕ}
    (hx : x < target.pixelWidth) (hx' : x' < target.pixelWidth)
    (h : target.place x y = target.place x' y') : x = x' ∧ y = y' :=
  add_mul_inj (hx.trans_le hpitch) (hx'.trans_le hpitch) h

/-! ### Clipping -/

theorem span_iff {limit position size : ℕ} (hlimit : limit < 2 ^ 32) :
    let start := if limit < position then limit else position
    let diff := sub64 limit start % 2 ^ 32
    start ≤ x ∧ x < add64 start (if diff < size then diff else size) ↔
      position ≤ x ∧ x < position + size ∧ x < limit := by
  dsimp only
  have hdiff : ∀ start ≤ limit, sub64 limit start % 2 ^ 32 = limit - start := fun start hle => by
    rw [sub64_of_le hle (by omega), Nat.mod_eq_of_lt (by omega)]
  split_ifs with hlt hmin hmin
  all_goals
    rw [hdiff _ (by omega)] at hmin
    try rw [hdiff _ (by omega)]
    rw [add64_of_lt (by omega)]
    omega

theorem clampDrawPosition_of_visible (hv : Visible target position size x y) :
    target.clampDrawPosition position = position := by
  have hcolumn := hv.left.trans_lt hv.column
  have hrow := hv.top.trans_lt hv.row
  rw [clampDrawPosition, if_neg (by omega), if_neg (by omega)]

section Loop

variable {S V : Type*} {body : ℕ → ℕ → S → S}

/-- The two loops over the pixels that clamping and cutting off leave. -/
def forPixels (target : Framebuffer) (position size : Vector2) (body : ℕ → ℕ → S → S) : S → S :=
  let position := target.clampDrawPosition position
  let diffX := sub64 target.pixelWidth position.x % 2 ^ 32
  let diffY := sub64 target.pixelHeight position.y % 2 ^ 32
  let sizeX := if diffX < size.x then diffX else size.x
  let sizeY := if diffY < size.y then diffY else size.y
  forRange position.y (add64 position.y sizeY) fun y =>
    forRange position.x (add64 position.x sizeX) fun x => body x y

theorem read_forPixels_of_kept (read : S → V)
    (hkept : ∀ x y, Visible target position size x y → ∀ s, read (body x y s) = read s) (s : S) :
    read (target.forPixels position size body s) = read s := by
  simp only [forPixels, clampDrawPosition]
  refine read_forRange_of_kept read (fun y' hlo hhi s => ?_) s
  obtain ⟨htop, hbottom, hrow⟩ := (span_iff target.height_lt).1 ⟨hlo, hhi⟩
  refine read_forRange_of_kept read (fun x' hlo' hhi' s => ?_) s
  obtain ⟨hleft, hright, hcolumn⟩ := (span_iff target.width_lt).1 ⟨hlo', hhi'⟩
  exact hkept x' y' ⟨hleft, hright, htop, hbottom, hcolumn, hrow⟩ s

theorem read_forPixels_of_once (read : S → V) (f : V → V) (hv : Visible target position size x y)
    (hchange : ∀ s, read (body x y s) = f (read s))
    (hkept : ∀ x' y', Visible target position size x' y' → ¬ (x' = x ∧ y' = y) →
      ∀ s, read (body x' y' s) = read s) (s : S) :
    read (target.forPixels position size body s) = f (read s) := by
  have hx := (span_iff target.width_lt).2 ⟨hv.left, hv.right, hv.column⟩
  have hy := (span_iff target.height_lt).2 ⟨hv.top, hv.bottom, hv.row⟩
  simp only [forPixels, clampDrawPosition]
  refine read_forRange_of_once read f hy.1 hy.2 (fun s => ?_) (fun y' hlo hhi hne s => ?_) s
  · refine read_forRange_of_once read f hx.1 hx.2 hchange (fun x' hlo hhi hne s => ?_) s
    obtain ⟨hleft, hright, hcolumn⟩ := (span_iff target.width_lt).1 ⟨hlo, hhi⟩
    exact hkept x' y ⟨hleft, hright, hv.top, hv.bottom, hcolumn, hv.row⟩ (fun h => hne h.1) s
  · obtain ⟨htop, hbottom, hrow⟩ := (span_iff target.height_lt).1 ⟨hlo, hhi⟩
    refine read_forRange_of_kept read (fun x' hlo' hhi' s => ?_) s
    obtain ⟨hleft, hright, hcolumn⟩ := (span_iff target.width_lt).1 ⟨hlo', hhi'⟩
    exact hkept x' y' ⟨hleft, hright, htop, hbottom, hcolumn, hrow⟩ (fun h => hne h.2) s

end Loop

/-! ### Drawing -/

theorem place_eq (hy : y < target.pixelHeight) :
    x + mul64 y target.pixelsPerScanLine = target.place x y := by
  have hheight := target.height_lt
  have hpitch := target.pitch_lt
  have hlt : y * target.pixelsPerScanLine < 2 ^ 32 * 2 ^ 32 := Nat.mul_lt_mul'' (by omega) hpitch
  rw [mul64_of_lt (by omega), place]

/-- What one turn of the inner loop does to a word. -/
theorem update_ink (c : Option UInt32) (words : ℕ → UInt32) (a : ℕ) :
    (match c with
      | some color => Function.update words a color
      | none => words) k = if k = a then c.getD (words k) else words k := by
  cases c with
  | none => exact (ite_self _).symm
  | some color => exact Function.update_apply words a color k

/-- **The pixels of the rectangle that are on the screen** are drawn. -/
theorem drawClipped_visible (hpitch : target.pixelWidth ≤ target.pixelsPerScanLine)
    (hv : Visible target position size x y) :
    (target.drawClipped position size ink).1.words (target.place x y) =
      (ink (size.x % 2 ^ 32) (x - position.x) (y - position.y)).getD
        (target.words (target.place x y)) := by
  have hwidth := target.width_lt
  have hheight := target.height_lt
  have hcolumn := hv.column
  have hrow := hv.row
  have hsubX : sub64 x position.x = x - position.x := sub64_of_le hv.left (by omega)
  have hsubY : sub64 y position.y = y - position.y := sub64_of_le hv.top (by omega)
  refine read_forPixels_of_once (fun words : ℕ → UInt32 => words (target.place x y))
    (ink (size.x % 2 ^ 32) (x - position.x) (y - position.y)).getD hv (fun words => ?_)
    (fun x' y' hv' hne words => ?_) target.words
  · rw [clampDrawPosition_of_visible hv, update_ink, place_eq hrow, if_pos rfl, hsubX, hsubY]
  · rw [update_ink, place_eq hv'.row, if_neg]
    intro h
    obtain ⟨hx, hy⟩ := place_inj hpitch hcolumn hv'.column h
    exact hne ⟨hx.symm, hy.symm⟩

theorem drawRect_visible {color : UInt32} (hpitch : target.pixelWidth ≤ target.pixelsPerScanLine)
    (hv : Visible target position size x y) :
    (target.drawRect position size color).1.words (target.place x y) = color :=
  drawClipped_visible hpitch hv

/-- **All other words** stay as they are. -/
theorem drawClipped_elsewhere
    (hk : ∀ x y, Visible target position size x y → target.place x y ≠ k) :
    (target.drawClipped position size ink).1.words k = target.words k := by
  refine read_forPixels_of_kept (fun words : ℕ → UInt32 => words k) (fun x y hv words => ?_)
    target.words
  rw [update_ink, place_eq hv.row, if_neg (hk x y hv).symm]

/-- The index of a pixel in the linear buffer of a rectangle does not wrap around. -/
theorem pixelIndex_eq (hsize : size.x < 2 ^ 32) (hv : Visible target position size x y) :
    add64 (x - position.x) (mul64 (y - position.y) (size.x % 2 ^ 32)) =
      x - position.x + (y - position.y) * size.x := by
  have hwidth := target.width_lt
  have hheight := target.height_lt
  have hcolumn := hv.column
  have hrow := hv.row
  have hle : (y - position.y) * size.x ≤ (2 ^ 32 - 1) * (2 ^ 32 - 1) :=
    Nat.mul_le_mul (by omega) (by omega)
  rw [Nat.mod_eq_of_lt hsize, mul64_of_lt (by omega), add64_of_lt (by omega)]

end Framebuffer

open Framebuffer

/-- **Drawing stays on the screen.**  `drawRect` and `drawPix` set the pixels of the rectangle that
are on the screen, to the colour or to their element of `pixels`, and no drawing function changes
another word of the framebuffer: not in the rest of a scan line, and not behind the last row. -/
theorem drawing_clipped {target : Framebuffer} {position size : Vector2}
    (hpitch : target.pixelWidth ≤ target.pixelsPerScanLine) (hsize : size.x < 2 ^ 32) :
    (∀ x y, Visible target position size x y →
      (∀ color, (target.drawRect position size color).1.words (target.place x y) = color) ∧
      ∀ pixels, (target.drawPix position size (some pixels)).1.words (target.place x y) =
        pixels (x - position.x + (y - position.y) * size.x)) ∧
    ∀ k, (∀ x y, Visible target position size x y → target.place x y ≠ k) →
      (∀ color, (target.drawRect position size color).1.words k = target.words k) ∧
      (∀ pixels, (target.drawPix position size pixels).1.words k = target.words k) ∧
      (∀ background bitmap color,
        (target.drawBMP background position size bitmap color).1.words k = target.words k) ∧
      ∀ bitmap color, (target.drawBMPOver position size bitmap color).1.words k =
        target.words k := by
  refine ⟨fun x y hv => ⟨fun color => drawRect_visible hpitch hv, fun pixels => ?_⟩,
    fun k hk => ⟨fun color => drawClipped_elsewhere hk, fun pixels => ?_,
      fun background bitmap color => ?_, fun bitmap color => ?_⟩⟩
  · exact (drawClipped_visible hpitch hv).trans (congrArg pixels (pixelIndex_eq hsize hv))
  · cases pixels with
    | none => rfl
    | some pixels => exact drawClipped_elsewhere hk
  · cases bitmap with
    | none => rfl
    | some bitmap => exact drawClipped_elsewhere hk
  · cases bitmap with
    | none => rfl
    | some bitmap => exact drawClipped_elsewhere hk

/-- A screen of 4 by 3 pixels, with scan lines of 5 words. -/
def Framebuffer.small : Framebuffer :=
  ⟨4, 3, 5, fun _ => 0, by decide, by decide, by decide⟩

theorem drawing_clipped_small :
    (Framebuffer.small.drawRect ⟨3, 1⟩ ⟨2, 2⟩ 7).1.words 8 = 7 ∧
      (Framebuffer.small.drawRect ⟨3, 1⟩ ⟨2, 2⟩ 7).1.words 9 = 0 := by
  obtain ⟨hdrawn, hkept⟩ :=
    @drawing_clipped Framebuffer.small ⟨3, 1⟩ ⟨2, 2⟩ (by decide) (by decide)
  refine ⟨(hdrawn 3 1 ⟨?_, ?_, ?_, ?_, ?_, ?_⟩).1 7, (hkept 9 ?_).1 7⟩
  all_goals try decide
  rintro x y ⟨-, -, -, -, hcolumn, -⟩ h
  have hx : x < 4 := hcolumn
  have hword : x + y * 5 = 9 := h
  omega

end Eterna
