import Eterna.Renderer.Bitmaps

/-!
# Saving and restoring pixels

`readpix` copies a rectangle of the target framebuffer into a buffer of the caller, and `drawPix`
copies such a buffer back.  Both clamp the position in place, cut the size off at the edges, and
address the buffer by the width that was asked for.

* `readpix_visible` : what the buffer holds afterwards;
* `save_restore` : so a rectangle that was saved can be drawn over and restored, and pixels that
  were drawn are read back.
-/

namespace Eterna

open Loops

namespace Framebuffer

/-- `readpix(position, size, buffer)`.  The result is the buffer and the clamped position. -/
def readpix (target : Framebuffer) (position size : Vector2) (buffer : Option (ℕ → UInt32)) :
    Option (ℕ → UInt32) × Vector2 :=
  match buffer with
  | none => (none, position)
  | some buffer =>
    let position := target.clampDrawPosition position
    let initX := size.x % 2 ^ 32
    let diffX := sub64 target.pixelWidth position.x % 2 ^ 32
    let diffY := sub64 target.pixelHeight position.y % 2 ^ 32
    let sizeX := if diffX < size.x then diffX else size.x
    let sizeY := if diffY < size.y then diffY else size.y
    let buffer := forRange position.y (add64 position.y sizeY) (fun y =>
      forRange position.x (add64 position.x sizeX) fun x buffer =>
        Function.update buffer (add64 (sub64 x position.x) (mul64 (sub64 y position.y) initX))
          (target.words (x + mul64 y target.pixelsPerScanLine))) buffer
    (some buffer, position)

variable {target : Framebuffer} {position size : Vector2} {words pixels buffer saved : ℕ → UInt32}
  {x y i j k : ℕ}

/-! ### The buffer -/

/-- The element of a pixel in the linear buffer of a rectangle. -/
def element (position size : Vector2) (x y : ℕ) : ℕ := x - position.x + (y - position.y) * size.x

theorem element_inj {x' y' : ℕ} (hv : Visible target position size x y)
    (hv' : Visible target position size x' y')
    (h : element position size x y = element position size x' y') : x = x' ∧ y = y' := by
  obtain ⟨hleft, hright, htop, -, -, -⟩ := hv
  obtain ⟨hleft', hright', htop', -, -, -⟩ := hv'
  obtain ⟨hx, hy⟩ := add_mul_inj (by omega) (by omega) h
  omega

theorem element_eq (hsize : size.x < 2 ^ 32) (hv : Visible target position size x y) :
    add64 (x - position.x) (mul64 (y - position.y) (size.x % 2 ^ 32)) =
      element position size x y := pixelIndex_eq hsize hv

theorem element_sub (hsize : size.x < 2 ^ 32) (hv : Visible target position size x y) :
    add64 (sub64 x (target.clampDrawPosition position).x)
        (mul64 (sub64 y (target.clampDrawPosition position).y) (size.x % 2 ^ 32)) =
      element position size x y := by
  have hwidth := target.width_lt
  have hheight := target.height_lt
  have hcolumn := hv.column
  have hrow := hv.row
  rw [clampDrawPosition_of_visible hv, sub64_of_le hv.left (by omega),
    sub64_of_le hv.top (by omega), element_eq hsize hv]

/-- **What `readpix` leaves in its buffer.** -/
theorem readpix_visible (hsize : size.x < 2 ^ 32) (hv : Visible target position size x y)
    (hsaved : (target.readpix position size (some buffer)).1 = some saved) :
    saved (element position size x y) = target.words (target.place x y) := by
  obtain rfl := Option.some.inj hsaved
  refine read_forPixels_of_once (fun buffer : ℕ → UInt32 => buffer (element position size x y))
    (fun _ => target.words (target.place x y)) hv (fun buffer => ?_)
    (fun x' y' hv' hne buffer => ?_) buffer
  · rw [element_sub hsize hv, place_eq hv.row, Function.update_self]
  · rw [element_sub hsize hv', Function.update_of_ne]
    intro h
    obtain ⟨hx, hy⟩ := element_inj hv hv' h
    exact hne ⟨hx.symm, hy.symm⟩

theorem drawPix_visible (hpitch : target.pixelWidth ≤ target.pixelsPerScanLine)
    (hsize : size.x < 2 ^ 32) (hv : Visible target position size x y) :
    (target.drawPix position size (some pixels)).1.words (target.place x y) =
      pixels (element position size x y) := by
  refine (drawClipped_visible hpitch hv).trans (congrArg pixels ?_)
  exact element_eq hsize hv

/-! ### Saving, drawing and restoring -/

/-- The words of the framebuffer after some drawing inside the rectangle. -/
def DrawnInside (target : Framebuffer) (position size : Vector2) (words : ℕ → UInt32) : Prop :=
  ∀ k, (∀ x y, Visible target position size x y → target.place x y ≠ k) → words k = target.words k

theorem drawnInside_drawClipped (ink : ℕ → ℕ → ℕ → Option UInt32) :
    DrawnInside target position size (target.drawClipped position size ink).1.words :=
  fun _ hk => drawClipped_elsewhere hk

end Framebuffer

open Framebuffer

/-- **Pixels that have been saved can be restored**, whatever has been drawn over them, and pixels
that have been drawn are read back. -/
theorem save_restore (screen : Screen) (position size : Vector2) (hsize : size.x < 2 ^ 32)
    (buffer pixels : ℕ → UInt32) :
    (∀ words, DrawnInside screen.toFramebuffer position size words →
      let saved := screen.readpix position size (some buffer)
      (Framebuffer.drawPix { screen.toFramebuffer with words := words } saved.2 size saved.1).1 =
        screen.toFramebuffer) ∧
    ∀ x y, Visible screen.toFramebuffer position size x y →
      let drawn := screen.drawPix position size (some pixels)
      ∃ read, (drawn.1.readpix drawn.2 size (some buffer)).1 = some read ∧
        read (element position size x y) = pixels (element position size x y) := by
  have hpitch := screen.width_le_pitch
  constructor
  · intro words hwords saved
    obtain ⟨b, hb⟩ : ∃ b, saved.1 = some b := ⟨_, rfl⟩
    have hposition : saved.2 = screen.clampDrawPosition position := rfl
    rw [hb, hposition]
    have hrestored : (Framebuffer.drawPix { screen.toFramebuffer with words := words }
        (screen.clampDrawPosition position) size (some b)).1.words = screen.words := by
      funext k
      -- a word is a pixel that has been saved, or has not been drawn over
      by_cases hk : ∃ x y, Visible screen.toFramebuffer position size x y ∧ screen.place x y = k
      · obtain ⟨x, y, hv, rfl⟩ := hk
        rw [clampDrawPosition_of_visible hv]
        have hdrawn := @drawPix_visible { screen.toFramebuffer with words := words } position size b
          x y hpitch hsize (visible_with_words.2 hv)
        exact hdrawn.trans (readpix_visible hsize hv hb)
      · have hk' : ∀ x y, Visible screen.toFramebuffer position size x y → screen.place x y ≠ k :=
          fun x y hv h => hk ⟨x, y, hv, h⟩
        refine Eq.trans (drawClipped_elsewhere fun x y hv => ?_) (hwords k hk')
        exact hk' x y (visible_clampDrawPosition.1 (visible_with_words.1 hv))
    exact congrArg (fun words => { screen.toFramebuffer with words := words }) hrestored
  · intro x y hv drawn
    have hposition : drawn.2 = position := clampDrawPosition_of_visible hv
    have hv' : Visible drawn.1 position size x y := visible_with_words.2 hv
    rw [hposition]
    exact ⟨_, rfl, (readpix_visible hsize hv' rfl).trans (drawPix_visible hpitch hsize hv)⟩

/-- A rectangle that hangs over the right and the bottom edge is drawn over and restored. -/
theorem save_restore_small :
    let saved := Screen.small.readpix ⟨3, 2⟩ ⟨2, 2⟩ (some fun _ => 0)
    ((Screen.small.drawRect ⟨3, 2⟩ ⟨2, 2⟩ 7).1.drawPix saved.2 ⟨2, 2⟩ saved.1).1 =
      Screen.small.toFramebuffer := by
  have hdrawn : DrawnInside Screen.small.toFramebuffer ⟨3, 2⟩ ⟨2, 2⟩
      (Screen.small.drawRect ⟨3, 2⟩ ⟨2, 2⟩ 7).1.words := drawnInside_drawClipped _
  exact (save_restore Screen.small ⟨3, 2⟩ ⟨2, 2⟩ (by decide) (fun _ => 0) fun _ => 0).1
    (Screen.small.drawRect ⟨3, 2⟩ ⟨2, 2⟩ 7).1.words hdrawn

end Eterna
