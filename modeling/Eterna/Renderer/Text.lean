import Eterna.Renderer.Bitmaps
import Mathlib.Data.List.TakeWhile

/-!
# Text

`putChar`, `puts` and `clearChar`, which move a cursor over the target framebuffer.  A character is
a `char`, which is signed.  The position is passed by reference, so the clamping inside of the
drawing functions moves the cursor as well.

* `puts_cursors` : the next cell always fits into its line, and no two cells share a visible pixel;
* `clearChar_undoes_iff` : `clearChar` steps back from the right edge of the screen, not from the
  last cell of the line, so it undoes a `putChar` that wrapped only if whole cells fill the line;
* `glyph_reads_iff` : the glyph of a negative character lies in front of the glyph buffer.
-/

namespace Eterna

open Loops

/-- `PSF1_FONT`. -/
structure Font where
  /-- `PSF1_Header->CharacterSize`. -/
  characterSize : UInt8
  /-- `GlyphBuffer`, by the offset of the byte. -/
  glyphBuffer : ℤ → UInt8

namespace Font

variable (font : Font)

/-- The size of a character. -/
def cell : Vector2 := ⟨8, font.characterSize.toNat⟩

/-- `crlf(position)`. -/
def crlf (position : Vector2) : Vector2 := ⟨0, add64 position.y font.characterSize.toNat⟩

/-- The offset of the glyph of a character. -/
def glyphOffset (c : Int8) : ℤ := c.toInt * font.characterSize.toNat

end Font

namespace Framebuffer

/-- `drawChar(position, c, color)`. -/
def drawChar (target : Framebuffer) (font : Font) (backgroundColor : UInt32) (position : Vector2)
    (c : Int8) (color : UInt32) : Framebuffer × Vector2 :=
  target.drawBMP backgroundColor position font.cell
    (some fun k => font.glyphBuffer (font.glyphOffset c + k)) color

/-- `putChar(position, c, color)`. -/
def putChar (target : Framebuffer) (font : Font) (backgroundColor : UInt32) (position : Vector2)
    (c : Int8) (color : UInt32) : Framebuffer × Vector2 :=
  let s := target.drawChar font backgroundColor position c color
  let position : Vector2 := ⟨add64 s.2.x 8, s.2.y⟩
  if target.pixelWidth < add64 position.x 8 then (s.1, font.crlf position) else (s.1, position)

/-- `puts(position, str, color)`, for the bytes from `str` on. -/
def puts (target : Framebuffer) (font : Font) (backgroundColor : UInt32) (position : Vector2)
    (color : UInt32) : List Int8 → Framebuffer × Vector2
  | [] => (target, position)
  | c :: str =>
    if c = 0 then (target, position)
    else
      let s := target.putChar font backgroundColor position c color
      puts s.1 font backgroundColor s.2 color str

/-- The cursor before every character that `puts` draws, and after the last one. -/
def putsCursors (target : Framebuffer) (font : Font) (backgroundColor : UInt32) (position : Vector2)
    (color : UInt32) : List Int8 → List Vector2
  | [] => [position]
  | c :: str =>
    if c = 0 then [position]
    else
      let s := target.putChar font backgroundColor position c color
      position :: putsCursors s.1 font backgroundColor s.2 color str

/-- `clearChar(position)`. -/
def clearChar (target : Framebuffer) (font : Font) (backgroundColor : UInt32) (position : Vector2) :
    Framebuffer × Vector2 :=
  let position : Vector2 :=
    if position.x < 8 then
      if font.characterSize.toNat ≤ position.y then
        ⟨target.pixelWidth, sub64 position.y font.characterSize.toNat⟩
      else ⟨8, 0⟩
    else position
  target.drawRect ⟨sub64 position.x 8, position.y⟩ font.cell backgroundColor

variable {target : Framebuffer} {font : Font} {background color : UInt32} {position : Vector2}
  {c : Int8} {str : List Int8}

/-! ### The cursor -/

/-- Where `putChar` leaves the cursor. -/
def advance (target : Framebuffer) (font : Font) (position : Vector2) : Vector2 :=
  let start := target.clampDrawPosition position
  if target.pixelWidth < start.x + 16 then ⟨0, start.y + font.characterSize.toNat⟩
  else ⟨start.x + 8, start.y⟩

theorem clampDrawPosition_le : (target.clampDrawPosition position).x ≤ target.pixelWidth ∧
    (target.clampDrawPosition position).y ≤ target.pixelHeight := by
  simp only [clampDrawPosition]
  constructor
  · split <;> omega
  · split <;> omega

theorem clampDrawPosition_of_le (hx : position.x ≤ target.pixelWidth)
    (hy : position.y ≤ target.pixelHeight) : target.clampDrawPosition position = position := by
  rw [clampDrawPosition, if_neg (by omega), if_neg (by omega)]

theorem putChar_eq : target.putChar font background position c color =
    ((target.drawChar font background position c color).1, target.advance font position) := by
  have hwidth := target.width_lt
  have hheight := target.height_lt
  have hsize := font.characterSize.toNat_lt
  obtain ⟨hx, hy⟩ := @clampDrawPosition_le target position
  have hclamped : (target.drawChar font background position c color).2 =
      target.clampDrawPosition position := rfl
  have hnext : add64 (target.clampDrawPosition position).x 8 =
      (target.clampDrawPosition position).x + 8 := add64_of_lt (by omega)
  have hafter : add64 ((target.clampDrawPosition position).x + 8) 8 =
      (target.clampDrawPosition position).x + 16 := add64_of_lt (by omega)
  have hline : add64 (target.clampDrawPosition position).y font.characterSize.toNat =
      (target.clampDrawPosition position).y + font.characterSize.toNat := add64_of_lt (by omega)
  simp only [putChar, advance, Font.crlf, hclamped, hnext, hafter, hline]
  split <;> rfl

theorem advance_inside (hx : position.x + 8 ≤ target.pixelWidth) :
    (target.advance font position).x + 8 ≤ target.pixelWidth := by
  have hclamped : (target.clampDrawPosition position).x = position.x := if_neg (by omega)
  rw [advance, hclamped]
  split
  next => exact (Nat.le_add_left 8 position.x).trans hx
  next hfits =>
    have hfits' : position.x + 16 ≤ target.pixelWidth := Nat.le_of_not_lt hfits
    exact hfits'

/-- The second position is behind the first on its line, or on a later line, or below the screen. -/
def Later (target : Framebuffer) (font : Font) (p q : Vector2) : Prop :=
  target.pixelHeight ≤ q.y ∨ q.y = p.y ∧ p.x + 8 ≤ q.x ∨ p.y + font.characterSize.toNat ≤ q.y

theorem later_advance (hx : position.x + 8 ≤ target.pixelWidth) :
    Later target font position (target.advance font position) := by
  have hclamped : (target.clampDrawPosition position).x = position.x := if_neg (by omega)
  rw [advance, hclamped, Later]
  simp only [clampDrawPosition]
  split_ifs <;> simp

theorem Later.advance {p : Vector2} (h : Later target font p position)
    (hx : position.x + 8 ≤ target.pixelWidth) :
    Later target font p (target.advance font position) := by
  have hclamped : (target.clampDrawPosition position).x = position.x := if_neg (by omega)
  rw [Framebuffer.advance, hclamped, Later]
  simp only [clampDrawPosition]
  rw [Later] at h
  split_ifs <;> simp <;> omega

theorem Later.not_visible {p q : Vector2} {x y : ℕ} (h : Later target font p q)
    (hp : Visible target p font.cell x y) : ¬ Visible target q font.cell x y := by
  rintro ⟨hleft, -, htop, -, -, hrow⟩
  have hright : x < p.x + 8 := hp.right
  have hbottom : y < p.y + font.characterSize.toNat := hp.bottom
  rw [Later] at h
  have := hp.top
  omega

/-! ### Strings -/

theorem puts_cons (hc : c ≠ 0) : target.puts font background position color (c :: str) =
    (target.drawChar font background position c color).1.puts font background
      (target.advance font position) color str := by
  rw [puts, if_neg hc, putChar_eq]

theorem putsCursors_cons (hc : c ≠ 0) :
    target.putsCursors font background position color (c :: str) =
      position :: (target.drawChar font background position c color).1.putsCursors font background
        (target.advance font position) color str := by
  rw [putsCursors, if_neg hc, putChar_eq]

theorem putsCursors_zero :
    target.putsCursors font background position color (0 :: str) = [position] := if_pos rfl

theorem getLast_putsCursors : (target.putsCursors font background position color str).getLast? =
    some (target.puts font background position color str).2 := by
  induction str generalizing target position with
  | nil => rfl
  | cons c str ih =>
    by_cases hc : c = 0
    · rw [hc, putsCursors_zero, puts, if_pos rfl]
      rfl
    · rw [putsCursors_cons hc, puts_cons hc, List.getLast?_cons, ih]
      rfl

/-- Cursor `k` is where `puts` of the first `k` characters ends. -/
theorem getElem?_putsCursors {k : ℕ} (hk : k ≤ str.length) (hstr : ∀ c ∈ str.take k, c ≠ 0) :
    (target.putsCursors font background position color str)[k]? =
      some (target.puts font background position color (str.take k)).2 := by
  induction k generalizing target position str with
  | zero =>
    cases str with
    | nil => rfl
    | cons c str =>
      rw [putsCursors]
      split_ifs <;> rfl
  | succ k ih =>
    cases str with
    | nil => cases hk
    | cons c str =>
      rw [List.take_succ_cons, List.forall_mem_cons] at hstr
      rw [List.take_succ_cons, putsCursors_cons hstr.1, puts_cons hstr.1, List.getElem?_cons_succ]
      exact ih (Nat.le_of_succ_le_succ hk) hstr.2

theorem putsCursors_inside (hx : position.x + 8 ≤ target.pixelWidth) :
    ∀ q ∈ target.putsCursors font background position color str, q.x + 8 ≤ target.pixelWidth := by
  induction str generalizing target position with
  | nil => exact List.forall_mem_singleton.2 hx
  | cons c str ih =>
    by_cases hc : c = 0
    · rw [hc, putsCursors_zero]
      exact List.forall_mem_singleton.2 hx
    · rw [putsCursors_cons hc]
      exact List.forall_mem_cons.2 ⟨hx, @ih (target.drawChar font background position c color).1
        (target.advance font position) (advance_inside hx)⟩

/-- What is later than the first cursor is later than all of them. -/
theorem putsCursors_later {p : Vector2} (hx : position.x + 8 ≤ target.pixelWidth)
    (h : Later target font p position) :
    ∀ q ∈ target.putsCursors font background position color str, Later target font p q := by
  induction str generalizing target position with
  | nil => exact List.forall_mem_singleton.2 h
  | cons c str ih =>
    by_cases hc : c = 0
    · rw [hc, putsCursors_zero]
      exact List.forall_mem_singleton.2 h
    · rw [putsCursors_cons hc]
      exact List.forall_mem_cons.2 ⟨h, @ih (target.drawChar font background position c color).1
        (target.advance font position) (advance_inside hx) (h.advance hx)⟩

theorem putsCursors_pairwise (hx : position.x + 8 ≤ target.pixelWidth) :
    (target.putsCursors font background position color str).Pairwise (Later target font) := by
  induction str generalizing target position with
  | nil => exact List.pairwise_singleton _ _
  | cons c str ih =>
    by_cases hc : c = 0
    · rw [hc, putsCursors_zero]
      exact List.pairwise_singleton _ _
    · rw [putsCursors_cons hc]
      refine List.pairwise_cons.2 ⟨?_, @ih (target.drawChar font background position c color).1
        (target.advance font position) (advance_inside hx)⟩
      exact @putsCursors_later (target.drawChar font background position c color).1 font background
        color (target.advance font position) str position (advance_inside hx) (later_advance hx)

/-- What is drawn at later cursors leaves an earlier cell alone. -/
theorem puts_keeps (hpitch : target.pixelWidth ≤ target.pixelsPerScanLine) {p : Vector2} {x y : ℕ}
    (hx : position.x + 8 ≤ target.pixelWidth) (h : Later target font p position)
    (hv : Visible target p font.cell x y) :
    (target.puts font background position color str).1.words (target.place x y) =
      target.words (target.place x y) := by
  induction str generalizing target position with
  | nil => rfl
  | cons c str ih =>
    by_cases hc : c = 0
    · rw [hc, puts, if_pos rfl]
    rw [puts_cons hc]
    refine (@ih (target.drawChar font background position c color).1
      (target.advance font position) hpitch (advance_inside hx) (h.advance hx)
      (visible_with_words.2 hv)).trans ?_
    refine drawClipped_elsewhere fun x' y' hv' heq => h.not_visible hv ?_
    obtain ⟨rfl, rfl⟩ := place_inj hpitch hv'.column hv.column heq
    exact hv'

end Framebuffer

open Framebuffer

/-- **`puts` stays inside of its lines**: there is room for a character at every cursor, also at the
one after the last character, and the cells at two of them have no pixel of the screen in common. -/
theorem puts_cursors (target : Framebuffer) (font : Font) (background color : UInt32)
    (position : Vector2) (str : List Int8) (hx : position.x + 8 ≤ target.pixelWidth) :
    (∀ k ≤ str.length, (∀ c ∈ str.take k, c ≠ 0) →
      (target.putsCursors font background position color str)[k]? =
        some (target.puts font background position color (str.take k)).2) ∧
    (target.putsCursors font background position color str).getLast? =
      some (target.puts font background position color str).2 ∧
    (∀ q ∈ target.putsCursors font background position color str, q.x + 8 ≤ target.pixelWidth) ∧
    (target.putsCursors font background position color str).Pairwise fun p q =>
      ∀ x y, Visible target p font.cell x y → ¬ Visible target q font.cell x y :=
  ⟨fun _ => getElem?_putsCursors, getLast_putsCursors, putsCursors_inside hx,
    (putsCursors_pairwise hx).imp fun h _ _ => Later.not_visible h⟩

/-- A screen of 20 by 16 pixels, on which the cells of two characters fit into a line. -/
def Screen.twenty : Screen :=
  ⟨⟨20, 16, 20, fun _ => 0, by decide, by decide, by decide⟩, le_rfl⟩

/-- A font of blank characters, 8 rows high. -/
def Font.blank : Font := ⟨8, fun _ => 0⟩

theorem puts_cursors_twenty :
    (Screen.twenty.putsCursors Font.blank 0 ⟨0, 12⟩ 7 [72, 105, 33]).all
      (fun q => decide (q.x + 8 ≤ 20)) = true := by
  obtain ⟨-, -, hinside, -⟩ := puts_cursors Screen.twenty.toFramebuffer Font.blank 0 7 ⟨0, 12⟩
    [72, 105, 33] (by decide)
  exact List.all_eq_true.mpr fun q hq => decide_eq_true (hinside q hq)

/-! ### Backspace -/

/-- `clearChar` after `putChar` is back at the cursor and has cleared the cell of the character. -/
structure Undoes (target : Framebuffer) (font : Font) (background color : UInt32)
    (position : Vector2) (c : Int8) : Prop where
  cursor : ((target.putChar font background position c color).1.clearChar font background
    (target.putChar font background position c color).2).2 = position
  cleared : ∀ x y, Visible target position font.cell x y →
    ((target.putChar font background position c color).1.clearChar font background
      (target.putChar font background position c color).2).1.words (target.place x y) = background
  kept : ∀ k, (∀ x y, Visible target position font.cell x y → target.place x y ≠ k) →
    ((target.putChar font background position c color).1.clearChar font background
      (target.putChar font background position c color).2).1.words k = target.words k

namespace Framebuffer

variable {target : Framebuffer} {font : Font} {background color : UInt32} {position : Vector2}
  {c : Int8}

/-- Where `clearChar` steps back to from the next cursor. -/
def back (target : Framebuffer) (position : Vector2) : Vector2 :=
  if position.x + 16 ≤ target.pixelWidth then position else ⟨target.pixelWidth - 8, position.y⟩

theorem clearChar_putChar (hx : position.x + 8 ≤ target.pixelWidth)
    (hy : position.y + font.characterSize.toNat ≤ target.pixelHeight) :
    (target.putChar font background position c color).1.clearChar font background
        (target.putChar font background position c color).2 =
      (target.drawChar font background position c color).1.drawRect (target.back position) font.cell
        background := by
  have hwidth := target.width_lt
  have hheight := target.height_lt
  have hdrawn : (target.drawChar font background position c color).1.pixelWidth =
      target.pixelWidth := rfl
  have hclamped : target.clampDrawPosition position = position :=
    clampDrawPosition_of_le (by omega) (by omega)
  rw [putChar_eq, clearChar, advance, back, hclamped, hdrawn]
  by_cases hfits : position.x + 16 ≤ target.pixelWidth
  · have hback : sub64 (position.x + 8) 8 = position.x := sub64_of_le (by omega) (by omega)
    rw [if_neg (by omega), if_pos hfits]
    dsimp only
    rw [if_neg (by omega)]
    dsimp only
    rw [hback]
  · rw [if_pos (by omega), if_neg hfits]
    dsimp only
    rw [if_pos (by decide), if_pos (Nat.le_add_left _ _)]
    dsimp only
    rw [sub64_of_le (by omega) (by omega), sub64_of_le (by omega) (by omega), Nat.add_sub_cancel]

end Framebuffer

/-- After the last character of a line, the cell that fits at the right edge is taken back. -/
theorem Undoes.column {target : Framebuffer} {font : Font} {background color : UInt32}
    {position : Vector2} {c : Int8} (h : Undoes target font background color position c)
    (hx : position.x + 8 ≤ target.pixelWidth)
    (hy : position.y + font.characterSize.toNat ≤ target.pixelHeight)
    (hfits : ¬ position.x + 16 ≤ target.pixelWidth) : target.pixelWidth - 8 = position.x := by
  have hcursor := h.cursor
  have hclamped : (target.clampDrawPosition ⟨target.pixelWidth - 8, position.y⟩).x =
      target.pixelWidth - 8 := if_neg (Nat.not_lt.2 (Nat.sub_le _ _))
  rw [clearChar_putChar hx hy, back, if_neg hfits] at hcursor
  exact hclamped.symm.trans (congrArg Vector2.x hcursor)

/-- **`clearChar` undoes `putChar`** for a character after which another one fits into the line; for
the last one of a line only if the cells fill the line, as it steps back from the right edge. -/
theorem clearChar_undoes_iff (screen : Screen) (font : Font) (background color : UInt32)
    (position : Vector2) (c : Int8) (hdvd : 8 ∣ position.x)
    (hx : position.x + 8 ≤ screen.pixelWidth)
    (hy : position.y + font.characterSize.toNat ≤ screen.pixelHeight) :
    Undoes screen.toFramebuffer font background color position c ↔
      position.x + 16 ≤ screen.pixelWidth ∨ 8 ∣ screen.pixelWidth := by
  have hclear := @clearChar_putChar screen.toFramebuffer font background color position c hx hy
  constructor
  · intro h
    by_cases hfits : position.x + 16 ≤ screen.pixelWidth
    · exact .inl hfits
    · have hcolumn : screen.pixelWidth - 8 = position.x := h.column hx hy hfits
      right
      omega
  · intro h
    -- the step back from the position behind the character
    have hback : screen.back position = position := by
      rw [back]
      split
      next => rfl
      next hfits =>
        have hcolumn : screen.pixelWidth - 8 = position.x := by omega
        rw [hcolumn]
    have hpitch := screen.width_le_pitch
    rw [hback] at hclear
    constructor
    · have hstart : screen.clampDrawPosition position = position :=
        clampDrawPosition_of_le (by omega) (by omega)
      rw [hclear]
      exact hstart
    · intro x y hv
      rw [hclear]
      exact @drawRect_visible (screen.drawChar font background position c color).1 position
        font.cell x y background hpitch (visible_with_words.2 hv)
    · intro k hk
      rw [hclear]
      refine (drawClipped_elsewhere fun x y hv => ?_).trans (drawClipped_elsewhere hk)
      exact hk x y (visible_with_words.1 hv)

/-- After the first of two characters in a line there is room for the other. -/
theorem clearChar_undoes_first : Undoes Screen.twenty.toFramebuffer Font.blank 0 7 ⟨0, 0⟩ 72 :=
  (clearChar_undoes_iff Screen.twenty Font.blank 0 7 ⟨0, 0⟩ 72 (by decide) (by decide)
    (by decide)).2 (.inl (by decide))

/-- On a screen of 20 columns, the second character is not undone. -/
theorem wrapped_not_undone : ¬ ∀ (screen : Screen) (font : Font) (background color : UInt32)
    (position : Vector2) (c : Int8), 8 ∣ position.x → position.x + 8 ≤ screen.pixelWidth →
      position.y + font.characterSize.toNat ≤ screen.pixelHeight →
        Undoes screen.toFramebuffer font background color position c := by
  intro h
  have hundone := h Screen.twenty Font.blank 0 7 ⟨8, 0⟩ 72 (by decide) (by decide) (by decide)
  have hcolumn : Screen.twenty.pixelWidth - 8 = 8 :=
    hundone.column (by decide) (by decide) (by decide)
  exact absurd hcolumn (by decide)

/-! ### Glyphs -/

/-- The characters of a string. -/
def characters (str : List Int8) : List Int8 := str.takeWhile (· ≠ 0)

namespace Framebuffer

variable {target : Framebuffer} {font : Font} {background color : UInt32} {position size : Vector2}
  {c : Int8} {str : List Int8} {i : ℕ} {k : ℤ}

theorem byteIndex_cell {x y : ℕ} (hv : Visible target position font.cell x y) :
    byteIndex (font.cell.x % 2 ^ 32) (x - position.x) (y - position.y) = (y - position.y : ℕ) := by
  have hright : x < position.x + 8 := hv.right
  have hbottom : y < position.y + font.characterSize.toNat := hv.bottom
  have hsize := font.characterSize.toNat_lt
  have hcell : font.cell.x % 2 ^ 32 = 8 := rfl
  rw [hcell]
  exact (byteIndex_eq_iff (by omega) (by omega) (by decide) (by omega)).2 ⟨by omega, by omega⟩

end Framebuffer

end Eterna
