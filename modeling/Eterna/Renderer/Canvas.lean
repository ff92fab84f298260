import Eterna.Renderer.Surfaces
import Eterna.Renderer.Text

/-!
# Drawing text in memory

`drawBMP`, `putChar` and `puts` of a renderer whose framebuffers are in memory.

* `Renderer.shown_puts` : what the target shows afterwards is what `puts` draws into a framebuffer;
* `Renderer.puts_of_notMem` : no byte outside of the target changes.
-/

namespace Eterna

open ByteMemory Loops Framebuffer

namespace Renderer

/-- `clamp_draw_position`. -/
def clampDrawPosition (r : Renderer) (position : Vector2) : Vector2 where
  x := if r.target.pixelWidth < position.x then r.target.pixelWidth else position.x
  y := if r.target.pixelHeight < position.y then r.target.pixelHeight else position.y

/-- `drawBMP(position, size, bitmap, color)`. -/
def drawBMP (m : Memory) (r : Renderer) (position size : Vector2) (bitmap : Option (ℤ → UInt8))
    (color : UInt32) : Memory × Vector2 :=
  match bitmap with
  | none => (m, position)
  | some bitmap =>
    let position := r.clampDrawPosition position
    let initX := size.x % 2 ^ 32
    let diffX := sub64 r.target.pixelWidth position.x % 2 ^ 32
    let diffY := sub64 r.target.pixelHeight position.y % 2 ^ 32
    let sizeX := if diffX < size.x then diffX else size.x
    let sizeY := if diffY < size.y then diffY else size.y
    let pixelPtr := r.target.baseAddress
    let m := forRange position.y (add64 position.y sizeY) (fun y =>
      forRange position.x (add64 position.x sizeX) fun x m =>
        storeWord m (pointerAdd (pointerAdd pixelPtr x) (mul64 y r.target.pixelsPerScanLine))
          (if bitmapBit bitmap initX (sub64 x position.x) (sub64 y position.y) then color
          else r.backgroundColor)) m
    (m, position)

/-- `drawChar(position, c, color)`. -/
def drawChar (m : Memory) (r : Renderer) (font : Font) (position : Vector2) (c : Int8)
    (color : UInt32) : Memory × Vector2 :=
  drawBMP m r position font.cell (some fun k => font.glyphBuffer (font.glyphOffset c + k)) color

/-- `putChar(position, c, color)`. -/
def putChar (m : Memory) (r : Renderer) (font : Font) (position : Vector2) (c : Int8)
    (color : UInt32) : Memory × Vector2 :=
  let s := drawChar m r font position c color
  let position : Vector2 := ⟨add64 s.2.x 8, s.2.y⟩
  if r.target.pixelWidth < add64 position.x 8 then (s.1, font.crlf position) else (s.1, position)

/-- `puts(position, str, color)`, for the bytes from `str` on. -/
def puts (m : Memory) (r : Renderer) (font : Font) (position : Vector2) (color : UInt32) :
    List Int8 → Memory × Vector2
  | [] => (m, position)
  | c :: str =>
    if c = 0 then (m, position)
    else
      let s := putChar m r font position c color
      puts s.1 r font s.2 color str

end Renderer

/-! ### Words -/

namespace Surface

variable {s : Surface} {m : Memory} {value : UInt32} {x y k : ℕ}

theorem pointer_pixel (hx : x < s.pixelWidth) (hy : y < s.pixelHeight) :
    pointerAdd (pointerAdd s.baseAddress x) (mul64 y s.pixelsPerScanLine) = s.address x y := by
  have hend := address_add_four_le hx hy
  have hstop := s.stop_le
  unfold address bytesPerPixel at *
  have hcolumn : pointerAdd s.baseAddress x = s.baseAddress + 4 * x := by
    rw [pointerAdd, bytesPerPixel, mul64_of_lt (by omega), add64_of_lt (by omega)]
  rw [hcolumn, mul64_of_lt (by omega), pointerAdd, bytesPerPixel, mul64_of_lt (by omega),
    add64_of_lt (by omega)]
  omega

theorem words_storeWord : (s.shown (storeWord m (s.address x y) value)).words =
    Function.update (s.shown m).words ((s.shown m).place x y) value := by
  funext k
  rw [Function.update_apply]
  split
  next hk =>
    have haddress : s.baseAddress + bytesPerPixel * k = s.address x y := by
      rw [hk]
      rfl
    change word _ (s.baseAddress + bytesPerPixel * k) = value
    rw [haddress]
    exact word_storeWord_self
  next hk => exact word_storeWord_of_apart (word_apart fun h => hk h.symm)

end Surface

namespace Renderer

variable {m : Memory} {r : Renderer} {font : Font} {position size : Vector2}
  {bitmap : Option (ℤ → UInt8)} {color : UInt32} {c : Int8} {str : List Int8} {a : ℕ}

/-- The target shows what is drawn into it. -/
theorem shown_drawBMP : ((r.target.shown (drawBMP m r position size bitmap color).1).toFramebuffer,
      (drawBMP m r position size bitmap color).2) =
    (r.target.shown m).drawBMP r.backgroundColor position size bitmap color := by
  cases bitmap with
  | none => rfl
  | some bitmap =>
    refine Prod.ext (congrArg
      (fun words => { (r.target.shown m).toFramebuffer with words := words }) ?_) rfl
    refine map_forRange (fun m => (r.target.shown m).words) (fun y hlo hhi m' => ?_) m
    refine map_forRange (fun m => (r.target.shown m).words) (fun x hlo' hhi' m' => ?_) m'
    obtain ⟨-, -, hrow⟩ := (span_iff r.target.height_lt).1 ⟨hlo, hhi⟩
    obtain ⟨-, -, hcolumn⟩ := (span_iff r.target.width_lt).1 ⟨hlo', hhi'⟩
    have hplace := @place_eq (r.target.shown m').toFramebuffer x y hrow
    dsimp only
    rw [Surface.pointer_pixel hcolumn hrow, Surface.words_storeWord, ← hplace]
    rfl

/-- No byte changes outside of the pixels of the rectangle. -/
theorem drawBMP_of_notMem (h : ∀ x y, Visible (r.target.shown m).toFramebuffer position size x y →
      a < r.target.address x y ∨ r.target.address x y + 4 ≤ a) :
    (drawBMP m r position size bitmap color).1 a = m a := by
  cases bitmap with
  | none => rfl
  | some bitmap =>
    refine @read_forPixels_of_kept (r.target.shown m).toFramebuffer position size Memory UInt8 _
      (fun m => m a) (fun x y hv m' => ?_) m
    rw [Surface.pointer_pixel hv.column hv.row]
    exact storeWord_of_notMem (h x y hv)

theorem shown_drawChar : ((r.target.shown (drawChar m r font position c color).1).toFramebuffer,
      (drawChar m r font position c color).2) =
    (r.target.shown m).drawChar font r.backgroundColor position c color := shown_drawBMP

theorem shown_putChar : ((r.target.shown (putChar m r font position c color).1).toFramebuffer,
      (putChar m r font position c color).2) =
    (r.target.shown m).putChar font r.backgroundColor position c color := by
  have hwidth : (r.target.shown m).pixelWidth = r.target.pixelWidth := rfl
  rw [putChar, Framebuffer.putChar, ← shown_drawChar, hwidth]
  dsimp only
  split <;> rfl

/-- **The target shows the text that is drawn into it.** -/
theorem shown_puts : ((r.target.shown (puts m r font position color str).1).toFramebuffer,
      (puts m r font position color str).2) =
    (r.target.shown m).puts font r.backgroundColor position color str := by
  induction str generalizing m position with
  | nil => rfl
  | cons c str ih =>
    rw [puts, Framebuffer.puts]
    split
    next => rfl
    next =>
      rw [ih, ← shown_putChar]

theorem puts_append_zero {rest : List Int8} :
    puts m r font position color (str ++ 0 :: rest) =
      puts m r font position color (str ++ [0]) := by
  induction str generalizing m position with
  | nil => rfl
  | cons c str ih =>
    rw [List.cons_append, List.cons_append, puts, puts]
    split
    next => rfl
    next => exact ih

/-- A byte outside of the target. -/
def Outside (s : Surface) (a : ℕ) : Prop := a < s.baseAddress ∨ s.baseAddress + s.bufferSize ≤ a

theorem puts_of_outside (ha : Outside r.target a) :
    (puts m r font position color str).1 a = m a := by
  induction str generalizing m position with
  | nil => rfl
  | cons c str ih =>
    rw [puts]
    split
    next => rfl
    next =>
      rw [ih, putChar]
      have hkept : (drawChar m r font position c color).1 a = m a :=
        drawBMP_of_notMem fun x y hv => by
          have hend := Surface.address_add_four_le (s := r.target) hv.column hv.row
          have hstart : r.target.baseAddress ≤ r.target.address x y := Nat.le_add_right _ _
          obtain ha | ha := ha
          · exact .inl (ha.trans_le hstart)
          · exact .inr (hend.trans ha)
      dsimp only
      split <;> exact hkept

end Renderer

end Eterna
