import Eterna.Library.ByteMemory
import Eterna.Renderer.Bitmaps
import Mathlib.Logic.Function.Iterate

/-!
# Two framebuffers in memory

The renderer draws into the target framebuffer, and `swap` copies it to the render framebuffer,
which is on the screen.  If the target could not be allocated, the two are the same.

* `Surface.shown` : the framebuffer whose words are in memory;
* `swap_rectangle` : `swap(position, size)` copies the pixels of a rectangle, and nothing else;
* `clear_target_iff` : `clear(position, size)` clears the render framebuffer, so it clears the
  target as `drawRect` does only if the two are the same, or there is nothing to clear.
-/

namespace Eterna

open ByteMemory Loops Framebuffer

/-- `BytesPerPixel`. -/
def bytesPerPixel : ℕ := 4

/-- `pixels + n`, for a pointer to 32-bit words. -/
def pointerAdd (pixels n : ℕ) : ℕ := add64 pixels (mul64 bytesPerPixel n)

/-- The 32-bit word at an address. -/
def word (m : Memory) (a : ℕ) : UInt32 := UInt32.ofNat (load m a 4)

/-- Write a 32-bit word. -/
def storeWord (m : Memory) (a : ℕ) (value : UInt32) : Memory := store m a 4 value.toNat

/-- `memcpy(src, dest, numBytes)`. -/
def memcpy (m : Memory) (src dest numBytes : ℕ) : Memory :=
  if dest ≠ 0 ∧ src ≠ 0 then copy src dest numBytes m else m

/-- `Framebuffer`, which describes a part of memory that has room for its scan lines. -/
structure Surface where
  /-- `BaseAddress`. -/
  baseAddress : ℕ
  /-- `BufferSize`, in bytes. -/
  bufferSize : ℕ
  /-- `PixelWidth`. -/
  pixelWidth : ℕ
  /-- `PixelHeight`. -/
  pixelHeight : ℕ
  /-- `PixelsPerScanLine`. -/
  pixelsPerScanLine : ℕ
  width_lt : pixelWidth < 2 ^ 32
  height_lt : pixelHeight < 2 ^ 32
  pitch_lt : pixelsPerScanLine < 2 ^ 32
  width_le_pitch : pixelWidth ≤ pixelsPerScanLine
  fits : bytesPerPixel * (pixelHeight * pixelsPerScanLine) ≤ bufferSize
  base_pos : 0 < baseAddress
  stop_le : baseAddress + bufferSize ≤ 2 ^ 64

/-- The framebuffer that is in memory. -/
def Surface.shown (s : Surface) (m : Memory) : Screen where
  pixelWidth := s.pixelWidth
  pixelHeight := s.pixelHeight
  pixelsPerScanLine := s.pixelsPerScanLine
  words k := word m (s.baseAddress + bytesPerPixel * k)
  width_lt := s.width_lt
  height_lt := s.height_lt
  pitch_lt := s.pitch_lt
  width_le_pitch := s.width_le_pitch

/-- `Renderer`.  `Target` is a copy of `Render` somewhere else in memory, or `Render` itself. -/
structure Renderer where
  /-- `Render`. -/
  render : Surface
  /-- `Target`. -/
  target : Surface
  /-- `BackgroundColor`. -/
  backgroundColor : UInt32
  size_eq : target.bufferSize = render.bufferSize
  width_eq : target.pixelWidth = render.pixelWidth
  height_eq : target.pixelHeight = render.pixelHeight
  pitch_eq : target.pixelsPerScanLine = render.pixelsPerScanLine
  apart : target.baseAddress = render.baseAddress ∨
    target.baseAddress + target.bufferSize ≤ render.baseAddress ∨
    render.baseAddress + render.bufferSize ≤ target.baseAddress

namespace Renderer

/-- `swap()`. -/
def swapAll (m : Memory) (r : Renderer) : Memory :=
  memcpy m r.target.baseAddress r.render.baseAddress r.target.bufferSize

/-- `swap(position, size)`. -/
def swap (m : Memory) (r : Renderer) (position size : Vector2) : Memory :=
  if r.render.baseAddress = r.target.baseAddress then m
  else if r.target.pixelWidth < position.x ∨ r.target.pixelHeight < position.y then m
  else
    let diffX := sub64 r.target.pixelWidth position.x
    let diffY := sub64 r.target.pixelHeight position.y
    let sizeX := if diffX < size.x then diffX else size.x
    let sizeY := if diffY < size.y then diffY else size.y
    let offset := add64 (mul64 bytesPerPixel position.x)
      (mul64 (mul64 bytesPerPixel position.y) r.target.pixelsPerScanLine)
    let targetBaseAddress := add64 r.target.baseAddress offset
    let renderBaseAddress := add64 r.render.baseAddress offset
    let bytesPerLine := mul64 bytesPerPixel sizeX
    (forRange 0 sizeY (fun _ s => (memcpy s.1 s.2.1 s.2.2 bytesPerLine,
      (pointerAdd s.2.1 r.target.pixelsPerScanLine, pointerAdd s.2.2 r.render.pixelsPerScanLine)))
      (m, (targetBaseAddress, renderBaseAddress))).1

/-- `clear()`. -/
def clearAll (m : Memory) (r : Renderer) : Memory :=
  forRange 0 r.target.pixelHeight (fun y => forRange 0 r.target.pixelWidth fun x m =>
    storeWord m (pointerAdd r.target.baseAddress (add64 x (mul64 y r.target.pixelsPerScanLine)))
      r.backgroundColor) m

/-- `clear(position, size)`. -/
def clear (m : Memory) (r : Renderer) (position size : Vector2) : Memory :=
  if r.target.pixelWidth < position.x ∨ r.target.pixelHeight < position.y then m
  else
    let diffX := sub64 r.target.pixelWidth position.x
    let diffY := sub64 r.target.pixelHeight position.y
    let sizeX := if diffX < size.x then diffX else size.x
    let sizeY := if diffY < size.y then diffY else size.y
    let renderBaseAddress := add64 (add64 r.render.baseAddress (mul64 bytesPerPixel position.x))
      (mul64 (mul64 bytesPerPixel position.y) r.render.pixelsPerScanLine)
    (forRange 0 sizeY (fun _ s =>
      (forRange 0 sizeX (fun x m => storeWord m (pointerAdd s.2 x) r.backgroundColor) s.1,
        pointerAdd s.2 r.render.pixelsPerScanLine)) (m, renderBaseAddress)).1

end Renderer

/-! ### Words in memory -/

section Words

variable {m : Memory} {a b src dest n x : ℕ} {value : UInt32}

theorem word_storeWord_self : word (storeWord m a value) a = value := by
  have hlt : value.toNat < 256 ^ 4 := value.toNat_lt
  rw [word, storeWord, load_store_self, Nat.mod_eq_of_lt hlt]
  exact UInt32.ofNat_toNat

theorem word_storeWord_of_apart (h : a + 4 ≤ b ∨ b + 4 ≤ a) :
    word (storeWord m a value) b = word m b :=
  congrArg UInt32.ofNat (load_store_of_apart h)

theorem storeWord_of_notMem (h : x < a ∨ a + 4 ≤ x) : storeWord m a value x = m x :=
  store_of_notMem h

theorem memcpy_of_notMem (h : x < dest ∨ dest + n ≤ x) : memcpy m src dest n x = m x := by
  rw [memcpy]
  split
  next => exact copy_of_notMem h
  next => rfl

theorem memcpy_zero (m : Memory) (src dest : ℕ) : memcpy m src dest 0 = m :=
  ite_self m

theorem memcpy_of_mem (hdest : dest ≠ 0) (hsrc : src ≠ 0) (h : src + n ≤ dest ∨ dest + n ≤ src)
    {i : ℕ} (hi : i < n) : memcpy m src dest n (dest + i) = m (src + i) := by
  rw [memcpy, if_pos ⟨hdest, hsrc⟩]
  exact copy_of_mem h hi

theorem iterate_pointerAdd (hp : a < 2 ^ 64) (w i : ℕ) :
    (fun p => pointerAdd p w)^[i] a = (a + bytesPerPixel * (i * w)) % 2 ^ 64 := by
  induction i with
  | zero => simpa using (Nat.mod_eq_of_lt hp).symm
  | succ i ih =>
    rw [Function.iterate_succ_apply', ih, pointerAdd, add64, mul64, Nat.succ_mul]
    unfold bytesPerPixel
    omega

end Words

namespace Surface

variable {s : Surface} {m : Memory} {position size : Vector2} {x y x' y' i k : ℕ}

/-- The address of a pixel. -/
def address (s : Surface) (x y : ℕ) : ℕ :=
  s.baseAddress + bytesPerPixel * (x + y * s.pixelsPerScanLine)

theorem place_lt (hx : x < s.pixelWidth) (hy : y < y') :
    x + y * s.pixelsPerScanLine < y' * s.pixelsPerScanLine := by
  have hle := Nat.mul_le_mul_right s.pixelsPerScanLine (Nat.succ_le_of_lt hy)
  have hpitch := s.width_le_pitch
  rw [Nat.succ_mul] at hle
  omega

theorem address_add_four_le (hx : x < s.pixelWidth) (hy : y < s.pixelHeight) :
    s.address x y + 4 ≤ s.baseAddress + s.bufferSize := by
  have hlt := place_lt hx hy
  have hfits := s.fits
  unfold address bytesPerPixel at *
  omega

theorem address_apart (hx : x < s.pixelWidth) (hx' : x' < s.pixelWidth)
    (hne : ¬ (x = x' ∧ y = y')) :
    s.address x y + 4 ≤ s.address x' y' ∨ s.address x' y' + 4 ≤ s.address x y := by
  have hpitch := s.width_le_pitch
  have hplace : x + y * s.pixelsPerScanLine ≠ x' + y' * s.pixelsPerScanLine := fun h =>
    hne (add_mul_inj (hx.trans_le hpitch) (hx'.trans_le hpitch) h)
  unfold address bytesPerPixel
  omega

theorem line_of_notMem {src n a : ℕ}
    (h : ∀ k < n, a < s.address (x + k) y ∨ s.address (x + k) y + 4 ≤ a) :
    memcpy m src (s.address x y) (bytesPerPixel * n) a = m a := by
  refine memcpy_of_notMem ?_
  have hk := h ((a - s.address x y) / 4)
  unfold address bytesPerPixel at *
  omega

theorem word_apart (hk : (s.shown m).place x y ≠ k) :
    s.address x y + 4 ≤ s.baseAddress + bytesPerPixel * k ∨
      s.baseAddress + bytesPerPixel * k + 4 ≤ s.address x y := by
  have hplace : x + y * s.pixelsPerScanLine ≠ k := hk
  unfold address bytesPerPixel
  omega

/-- A row starts at the address that the pointer has reached. -/
theorem row_address (hx : position.x < s.pixelWidth) (hy : position.y + i < s.pixelHeight)
    {base : ℕ} (hbase : base = (s.baseAddress + (bytesPerPixel * position.x +
      bytesPerPixel * position.y * s.pixelsPerScanLine)) % 2 ^ 64) :
    (fun p => pointerAdd p s.pixelsPerScanLine)^[i] base =
      s.address position.x (position.y + i) := by
  have hend := address_add_four_le hx hy
  have hstop := s.stop_le
  have hlt : base < 2 ^ 64 := hbase ▸ Nat.mod_lt _ (by decide)
  rw [iterate_pointerAdd hlt, hbase]
  unfold address bytesPerPixel at *
  rw [Nat.mod_add_mod, Nat.mod_eq_of_lt]
  all_goals
    rw [Nat.add_mul, Nat.mul_assoc] at *
    omega

theorem pointerAdd_address (hx : x + k < s.pixelWidth) (hy : y < s.pixelHeight) :
    pointerAdd (s.address x y) k = s.address (x + k) y := by
  have hend := address_add_four_le hx hy
  have hstop := s.stop_le
  unfold address bytesPerPixel at *
  rw [pointerAdd, bytesPerPixel, mul64_of_lt (by omega), add64_of_lt (by omega)]
  omega

end Surface

/-! ### Clipping -/

/-- The part of a size that is left of the edge. -/
def cut (limit position size : ℕ) : ℕ :=
  if sub64 limit position < size then sub64 limit position else size

theorem lt_cut_iff {limit position size k : ℕ} (hle : position ≤ limit) (hlt : limit < 2 ^ 32) :
    k < cut limit position size ↔ k < size ∧ position + k < limit := by
  rw [cut, sub64_of_le hle (by omega)]
  split <;> omega

theorem cut_le {limit position size : ℕ} (hle : position ≤ limit) (hlt : limit < 2 ^ 32) :
    position + cut limit position size ≤ limit := by
  rw [cut, sub64_of_le hle (by omega)]
  split <;> omega

/-- The part of a size that is on the screen. -/
def Surface.cutSize (s : Surface) (position size : Vector2) : Vector2 where
  x := cut s.pixelWidth position.x size.x
  y := cut s.pixelHeight position.y size.y

namespace Surface

variable {s : Surface} {m : Memory} {position size : Vector2} {x y : ℕ}

/-- What is left of a rectangle is visible. -/
theorem visible_iff (hx : position.x ≤ s.pixelWidth) (hy : position.y ≤ s.pixelHeight) :
    Visible (s.shown m).toFramebuffer position size x y ↔
      (position.x ≤ x ∧ x < position.x + (s.cutSize position size).x) ∧
        position.y ≤ y ∧ y < position.y + (s.cutSize position size).y := by
  have hcutX := @lt_cut_iff s.pixelWidth position.x size.x (x - position.x) hx s.width_lt
  have hcutY := @lt_cut_iff s.pixelHeight position.y size.y (y - position.y) hy s.height_lt
  have hx' : x - position.x < (s.cutSize position size).x ↔ _ := hcutX
  have hy' : y - position.y < (s.cutSize position size).y ↔ _ := hcutY
  constructor
  · rintro ⟨hleft, hright, htop, hbottom, hcolumn, hrow⟩
    have hcolumn' : x < s.pixelWidth := hcolumn
    have hrow' : y < s.pixelHeight := hrow
    omega
  · rintro ⟨⟨hleft, hright⟩, htop, hbottom⟩
    have hright' := hx'.1 (by omega)
    have hbottom' := hy'.1 (by omega)
    exact ⟨hleft, by omega, htop, by omega, show x < s.pixelWidth by omega,
      show y < s.pixelHeight by omega⟩

theorem not_visible (h : s.pixelWidth < position.x ∨ s.pixelHeight < position.y) :
    ¬ Visible (s.shown m).toFramebuffer position size x y := by
  rintro ⟨hleft, -, htop, -, hcolumn, hrow⟩
  have hcolumn' : x < s.pixelWidth := hcolumn
  have hrow' : y < s.pixelHeight := hrow
  omega

end Surface

/-! ### Clearing -/

namespace Surface

variable {s : Surface} {m : Memory} {position size : Vector2} {color : UInt32} {x y k : ℕ}

/-- Fill rows of pixels. -/
def fillRows (s : Surface) (position size : Vector2) (color : UInt32) : Memory → Memory :=
  forRange 0 size.y fun i => forRange 0 size.x fun j m =>
    storeWord m (s.address (position.x + j) (position.y + i)) color

theorem fillRows_of_mem (hright : position.x + size.x ≤ s.pixelWidth)
    (hx : position.x ≤ x ∧ x < position.x + size.x)
    (hy : position.y ≤ y ∧ y < position.y + size.y) :
    word (s.fillRows position size color m) (s.address x y) = color := by
  obtain ⟨j, rfl⟩ := Nat.exists_eq_add_of_le hx.1
  obtain ⟨i, rfl⟩ := Nat.exists_eq_add_of_le hy.1
  let read : Memory → UInt32 := fun m => word m (s.address (position.x + j) (position.y + i))
  have hother : ∀ j' i' : ℕ, j' < size.x → ¬ (j' = j ∧ i' = i) → ∀ m,
      read (storeWord m (s.address (position.x + j') (position.y + i')) color) = read m :=
    fun j' i' hj' hne m => word_storeWord_of_apart <|
      address_apart (by omega) (by omega) (by omega)
  refine read_forRange_of_once read (fun _ => color) (Nat.zero_le i) (by omega) (fun m => ?_)
    (fun i' _ hi' hne m => ?_) m
  · refine read_forRange_of_once read (fun _ => color) (Nat.zero_le j) (by omega) (fun m => ?_)
      (fun j' _ hj' hne m => hother j' i hj' (fun h => hne h.1) m) m
    exact word_storeWord_self
  · exact read_forRange_of_kept read
      (fun j' _ hj' m => hother j' i' hj' (fun h => hne h.2) m) m

theorem fillRows_of_notMem {a : ℕ} (h : ∀ x y, position.x ≤ x → x < position.x + size.x →
      position.y ≤ y → y < position.y + size.y → a < s.address x y ∨ s.address x y + 4 ≤ a) :
    s.fillRows position size color m a = m a :=
  read_forRange_of_kept (fun m : Memory => m a) (fun i _ hi m =>
    read_forRange_of_kept (fun m : Memory => m a) (fun j _ hj m =>
      storeWord_of_notMem (h (position.x + j) (position.y + i) (by omega) (by omega) (by omega)
        (by omega))) m) m

end Surface

namespace Renderer

variable {m : Memory} {r : Renderer} {position size : Vector2} {x y k a : ℕ}

theorem clear_eq (hx : position.x ≤ r.render.pixelWidth) (hy : position.y ≤ r.render.pixelHeight) :
    clear m r position size =
      r.render.fillRows position (r.render.cutSize position size) r.backgroundColor m := by
  have hcutX := fun k => @lt_cut_iff r.render.pixelWidth position.x size.x k hx r.render.width_lt
  have hcutY := fun k => @lt_cut_iff r.render.pixelHeight position.y size.y k hy r.render.height_lt
  rw [clear, r.width_eq, r.height_eq, if_neg (by omega)]
  refine (forRange_pointer (fun m p => forRange 0 (cut r.render.pixelWidth position.x size.x)
    (fun x m => storeWord m (pointerAdd p x) r.backgroundColor) m)
    (fun p => pointerAdd p r.render.pixelsPerScanLine) _ m _).trans ?_
  refine forRange_congr (fun i _ hi m => forRange_congr (fun j _ hj m => ?_) m) m
  have hi' := (hcutY i).1 hi
  have hj' := (hcutX j).1 hj
  rw [Surface.row_address (by omega) hi'.2, Surface.pointerAdd_address hj'.2 hi'.2]
  simp only [add64, mul64, Nat.mod_mul_mod, Nat.add_mod_mod, Nat.mod_add_mod, Nat.add_assoc]

theorem clear_visible (hv : Visible (r.render.shown m).toFramebuffer position size x y) :
    word (clear m r position size) (r.render.address x y) = r.backgroundColor := by
  have hx : position.x ≤ r.render.pixelWidth := hv.left.trans hv.column.le
  have hy : position.y ≤ r.render.pixelHeight := hv.top.trans hv.row.le
  obtain ⟨hcolumns, hrows⟩ := (Surface.visible_iff hx hy).1 hv
  rw [clear_eq hx hy]
  exact Surface.fillRows_of_mem (cut_le hx r.render.width_lt) hcolumns hrows

theorem clear_of_notMem (h : ∀ x y, Visible (r.render.shown m).toFramebuffer position size x y →
      a < r.render.address x y ∨ r.render.address x y + 4 ≤ a) :
    clear m r position size a = m a := by
  by_cases hout : r.render.pixelWidth < position.x ∨ r.render.pixelHeight < position.y
  · rw [clear, r.width_eq, r.height_eq, if_pos hout]
  · have hx : position.x ≤ r.render.pixelWidth := by omega
    have hy : position.y ≤ r.render.pixelHeight := by omega
    rw [clear_eq hx hy]
    exact Surface.fillRows_of_notMem fun x y hleft hright htop hbottom =>
      h x y ((Surface.visible_iff hx hy).2 ⟨⟨hleft, hright⟩, htop, hbottom⟩)

theorem clearAll_eq : clearAll m r = r.target.fillRows ⟨0, 0⟩
    ⟨r.target.pixelWidth, r.target.pixelHeight⟩ r.backgroundColor m := by
  refine forRange_congr (fun y _ hy m => forRange_congr (fun x _ hx m => ?_) m) m
  have hend := Surface.address_add_four_le hx hy
  have hstop := r.target.stop_le
  dsimp only
  rw [Nat.zero_add, Nat.zero_add]
  unfold Surface.address bytesPerPixel at *
  rw [mul64_of_lt (by omega), add64_of_lt (by omega), pointerAdd, bytesPerPixel,
    mul64_of_lt (by omega), add64_of_lt (by omega)]

/-! ### Swapping -/

theorem swap_eq (hne : r.render.baseAddress ≠ r.target.baseAddress)
    (hx : position.x ≤ r.target.pixelWidth) (hy : position.y ≤ r.target.pixelHeight) :
    swap m r position size = forRange 0 (r.target.cutSize position size).y (fun i m =>
      memcpy m (r.target.address position.x (position.y + i))
        (r.render.address position.x (position.y + i))
        (bytesPerPixel * (r.target.cutSize position size).x)) m := by
  have hcutX := fun k => @lt_cut_iff r.target.pixelWidth position.x size.x k hx r.target.width_lt
  have hcutY := fun k => @lt_cut_iff r.target.pixelHeight position.y size.y k hy r.target.height_lt
  have hwidth := r.target.width_lt
  rw [swap, if_neg hne, if_neg (by omega)]
  refine (forRange_pointer (fun m p => memcpy m p.1 p.2
      (mul64 bytesPerPixel (cut r.target.pixelWidth position.x size.x)))
    (fun p => (pointerAdd p.1 r.target.pixelsPerScanLine,
      pointerAdd p.2 r.render.pixelsPerScanLine)) _ m _).trans ?_
  refine forRange_congr (fun i _ hi m => ?_) m
  have hi' := ((hcutY i).1 hi).2
  have hsize : (r.target.cutSize position size).x = cut r.target.pixelWidth position.x size.x := rfl
  -- of a rectangle without width nothing is copied, wherever the pointers are
  obtain hzero | hpos := Nat.eq_zero_or_pos (cut r.target.pixelWidth position.x size.x)
  · rw [hsize, hzero]
    exact (memcpy_zero _ _ _).trans (memcpy_zero _ _ _).symm
  · have hcolumn := ((hcutX 0).1 hpos).2
    have hright : position.x + cut r.target.pixelWidth position.x size.x ≤ r.target.pixelWidth :=
      cut_le hx hwidth
    have hbytes : mul64 bytesPerPixel (cut r.target.pixelWidth position.x size.x) =
        bytesPerPixel * cut r.target.pixelWidth position.x size.x :=
      mul64_of_lt (by unfold bytesPerPixel; omega)
    have hiterate : (fun p : ℕ × ℕ => (pointerAdd p.1 r.target.pixelsPerScanLine,
        pointerAdd p.2 r.render.pixelsPerScanLine))^[i] = _ :=
      Prod.map_iterate (fun p => pointerAdd p r.target.pixelsPerScanLine)
        (fun p => pointerAdd p r.render.pixelsPerScanLine) i
    rw [hiterate, Prod.map_fst, Prod.map_snd, hbytes, Surface.row_address hcolumn hi',
      Surface.row_address (r.width_eq ▸ hcolumn) (r.height_eq ▸ hi'), hsize]
    all_goals
      simp only [add64, mul64, Nat.mod_mul_mod, r.pitch_eq]
      omega

/-- The pixels of the target lie apart from those of another render framebuffer. -/
theorem address_apart (hne : r.render.baseAddress ≠ r.target.baseAddress) {x' y' : ℕ}
    (hx : x < r.target.pixelWidth) (hy : y < r.target.pixelHeight)
    (hx' : x' < r.target.pixelWidth) (hy' : y' < r.target.pixelHeight) :
    r.target.address x y + 4 ≤ r.render.address x' y' ∨
      r.render.address x' y' + 4 ≤ r.target.address x y := by
  have hend := Surface.address_add_four_le hx hy
  have hend' := Surface.address_add_four_le (s := r.render) (x := x') (y := y')
    (r.width_eq ▸ hx') (r.height_eq ▸ hy')
  have hapart := r.apart
  have hstart : r.target.baseAddress ≤ r.target.address x y := Nat.le_add_right _ _
  have hstart' : r.render.baseAddress ≤ r.render.address x' y' := Nat.le_add_right _ _
  omega

/-- A line of pixels is copied. -/
theorem line_of_mem (hne : r.render.baseAddress ≠ r.target.baseAddress)
    {n i j : ℕ} (hy : y < r.target.pixelHeight) (hi : i < n)
    (hright : x + n ≤ r.target.pixelWidth) (hj : j < 4) :
    memcpy m (r.target.address x y) (r.render.address x y) (bytesPerPixel * n)
      (r.render.address (x + i) y + j) = m (r.target.address (x + i) y + j) := by
  have hend := Surface.address_add_four_le (s := r.target) (x := x + (n - 1)) (by omega) hy
  have hend' := Surface.address_add_four_le (s := r.render) (x := x + (n - 1))
    (by rw [← r.width_eq]; omega) (r.height_eq ▸ hy)
  have hbase := r.target.base_pos
  have hbase' := r.render.base_pos
  have hapart := r.apart
  unfold Surface.address bytesPerPixel at *
  have hcopied : memcpy m (r.target.baseAddress + 4 * (x + y * r.target.pixelsPerScanLine))
      (r.render.baseAddress + 4 * (x + y * r.render.pixelsPerScanLine)) (4 * n)
      (r.render.baseAddress + 4 * (x + y * r.render.pixelsPerScanLine) + (4 * i + j)) =
        m (r.target.baseAddress + 4 * (x + y * r.target.pixelsPerScanLine) + (4 * i + j)) :=
    memcpy_of_mem (by omega) (by omega) (by omega) (by omega)
  convert hcopied using 2 <;> omega

/-- No line that is copied changes a byte of the target, ... -/
theorem line_keeps_target (hne : r.render.baseAddress ≠ r.target.baseAddress) {src n x' y' j : ℕ}
    (hx : x < r.target.pixelWidth) (hy : y < r.target.pixelHeight)
    (hright : x' + n ≤ r.target.pixelWidth) (hy' : y' < r.target.pixelHeight) (hj : j < 4) :
    memcpy m src (r.render.address x' y') (bytesPerPixel * n) (r.target.address x y + j) =
      m (r.target.address x y + j) := by
  refine Surface.line_of_notMem fun i hi => ?_
  have hapart : r.target.address x y + 4 ≤ r.render.address (x' + i) y' ∨
      r.render.address (x' + i) y' + 4 ≤ r.target.address x y :=
    address_apart hne hx hy (by omega) hy'
  omega

/-- ... and only one of them changes a byte of the screen. -/
theorem line_keeps_row {src n x' y' j : ℕ} (hx : x < r.render.pixelWidth)
    (hright : x' + n ≤ r.render.pixelWidth) (hy : y' ≠ y) (hj : j < 4) :
    memcpy m src (r.render.address x' y') (bytesPerPixel * n) (r.render.address x y + j) =
      m (r.render.address x y + j) := by
  refine Surface.line_of_notMem fun i hi => ?_
  have hapart : r.render.address x y + 4 ≤ r.render.address (x' + i) y' ∨
      r.render.address (x' + i) y' + 4 ≤ r.render.address x y :=
    Surface.address_apart hx (by omega) fun h => hy h.2.symm
  omega

/-- The bytes of the visible pixels are copied to the screen. -/
theorem swap_visible (hv : Visible (r.target.shown m).toFramebuffer position size x y)
    {j : ℕ} (hj : j < 4) :
    swap m r position size (r.render.address x y + j) = m (r.target.address x y + j) := by
  have hx : position.x ≤ r.target.pixelWidth := hv.left.trans hv.column.le
  have hy : position.y ≤ r.target.pixelHeight := hv.top.trans hv.row.le
  by_cases hne : r.render.baseAddress = r.target.baseAddress
  · rw [swap, if_pos hne, Surface.address, Surface.address, hne, r.pitch_eq]
  rw [swap_eq hne hx hy]
  obtain ⟨hcolumns, hrows⟩ := (Surface.visible_iff hx hy).1 hv
  obtain ⟨i, rfl⟩ := Nat.exists_eq_add_of_le hcolumns.1
  obtain ⟨k, rfl⟩ := Nat.exists_eq_add_of_le hrows.1
  have hright : position.x + (r.target.cutSize position size).x ≤ r.target.pixelWidth :=
    cut_le hx r.target.width_lt
  have hbottom : position.y + (r.target.cutSize position size).y ≤ r.target.pixelHeight :=
    cut_le hy r.target.height_lt
  let read : Memory → UInt8 × UInt8 := fun m =>
    (m (r.render.address (position.x + i) (position.y + k) + j),
      m (r.target.address (position.x + i) (position.y + k) + j))
  refine congrArg Prod.fst (read_forRange_of_once read (fun p => (p.2, p.2)) (Nat.zero_le k)
    (by omega) (fun m => ?_) (fun k' _ hk' hne' m => ?_) m)
  · exact Prod.ext (line_of_mem hne hv.row (by omega) hright hj)
      (line_keeps_target hne hv.column hv.row hright hv.row hj)
  · exact Prod.ext (line_keeps_row (r.width_eq ▸ hv.column) (r.width_eq ▸ hright) (by omega) hj)
      (line_keeps_target hne hv.column hv.row hright (by omega) hj)

/-- And no other byte changes. -/
theorem swap_of_notMem (h : ∀ x y, Visible (r.target.shown m).toFramebuffer position size x y →
      a < r.render.address x y ∨ r.render.address x y + 4 ≤ a) :
    swap m r position size a = m a := by
  by_cases hne : r.render.baseAddress = r.target.baseAddress
  · rw [swap, if_pos hne]
  by_cases hout : r.target.pixelWidth < position.x ∨ r.target.pixelHeight < position.y
  · rw [swap, if_neg hne, if_pos hout]
  have hx : position.x ≤ r.target.pixelWidth := by omega
  have hy : position.y ≤ r.target.pixelHeight := by omega
  rw [swap_eq hne hx hy]
  refine read_forRange_of_kept (fun m : Memory => m a) (fun k _ hk m => ?_) m
  refine Surface.line_of_notMem fun i hi => h _ _ ((Surface.visible_iff hx hy).2 ?_)
  omega

theorem visible_target : Visible (r.target.shown m).toFramebuffer position size x y ↔
    Visible (r.render.shown m).toFramebuffer position size x y := by
  constructor
  · rintro ⟨hleft, hright, htop, hbottom, hcolumn, hrow⟩
    exact ⟨hleft, hright, htop, hbottom, hcolumn.trans_eq r.width_eq, hrow.trans_eq r.height_eq⟩
  · rintro ⟨hleft, hright, htop, hbottom, hcolumn, hrow⟩
    exact ⟨hleft, hright, htop, hbottom, hcolumn.trans_eq r.width_eq.symm,
      hrow.trans_eq r.height_eq.symm⟩

/-- Another render framebuffer has no pixel in the target. -/
theorem target_apart (hne : r.render.baseAddress ≠ r.target.baseAddress)
    (ha : r.target.baseAddress ≤ a ∧ a < r.target.baseAddress + r.target.bufferSize)
    (hv : Visible (r.render.shown m).toFramebuffer position size x y) :
    a < r.render.address x y ∨ r.render.address x y + 4 ≤ a := by
  have hend : r.render.address x y + 4 ≤ r.render.baseAddress + r.render.bufferSize :=
    Surface.address_add_four_le hv.column hv.row
  have hstart : r.render.baseAddress ≤ r.render.address x y := Nat.le_add_right _ _
  have hapart := r.apart
  omega

end Renderer

open Renderer

/-- **`swap` copies a rectangle**: the pixels of it that are on the screen become those of the
target, and nothing else changes, in either framebuffer. -/
theorem swap_rectangle (m : Memory) (r : Renderer) (position size : Vector2) :
    (∀ x y, Visible (r.render.shown m).toFramebuffer position size x y →
      (r.render.shown (swap m r position size)).words ((r.render.shown m).place x y) =
        (r.target.shown m).words ((r.target.shown m).place x y)) ∧
    (∀ k, (∀ x y, Visible (r.render.shown m).toFramebuffer position size x y →
        (r.render.shown m).place x y ≠ k) →
      (r.render.shown (swap m r position size)).words k = (r.render.shown m).words k) ∧
    ∀ a, r.target.baseAddress ≤ a → a < r.target.baseAddress + r.target.bufferSize →
      swap m r position size a = m a := by
  refine ⟨fun x y hv => ?_, fun k hk => ?_, fun a hstart hend => ?_⟩
  · exact congrArg UInt32.ofNat (load_eq_load fun j hj => swap_visible (visible_target.2 hv) hj)
  · refine congrArg UInt32.ofNat (load_congr fun j hj => swap_of_notMem fun x y hv => ?_)
    have := Surface.word_apart (hk x y (visible_target.1 hv))
    omega
  · by_cases hne : r.render.baseAddress = r.target.baseAddress
    · rw [swap, if_pos hne]
    · exact swap_of_notMem fun x y hv => target_apart hne ⟨hstart, hend⟩ (visible_target.1 hv)

/-! ### What clearing is for -/

/-- `clear(position, size)` does to the target what `drawRect` does in the background colour: so
what was cleared is clear on the screen after a `swap()`, and to clear the whole screen is
`clear()`. -/
structure ClearsTarget (m : Memory) (r : Renderer) (position size : Vector2) : Prop where
  drawn : ∀ k, bytesPerPixel * (k + 1) ≤ r.target.bufferSize →
    (r.target.shown (clear m r position size)).words k =
      ((r.target.shown m).drawRect position size r.backgroundColor).1.words k
  shown : ∀ x y, Visible (r.render.shown m).toFramebuffer position size x y →
    (r.render.shown (swapAll (clear m r position size) r)).words ((r.render.shown m).place x y) =
      r.backgroundColor
  whole : position = ⟨0, 0⟩ → size = ⟨r.target.pixelWidth, r.target.pixelHeight⟩ →
    ∀ k, bytesPerPixel * (k + 1) ≤ r.target.bufferSize →
      (r.target.shown (clear m r position size)).words k = (r.target.shown (clearAll m r)).words k

/-- The visible pixels of the target have the background colour already. -/
def AlreadyClear (m : Memory) (r : Renderer) (position size : Vector2) : Prop :=
  ∀ x y, Visible (r.target.shown m).toFramebuffer position size x y →
    (r.target.shown m).words ((r.target.shown m).place x y) = r.backgroundColor

namespace Renderer

variable {m : Memory} {r : Renderer} {position size : Vector2} {k : ℕ}

theorem clear_target_of_ne (hne : r.render.baseAddress ≠ r.target.baseAddress)
    (hk : bytesPerPixel * (k + 1) ≤ r.target.bufferSize) :
    (r.target.shown (clear m r position size)).words k = (r.target.shown m).words k := by
  refine congrArg UInt32.ofNat (load_congr fun j hj => clear_of_notMem fun x y hv => ?_)
  unfold bytesPerPixel at *
  exact target_apart hne (by omega) hv

/-- The target itself is cleared, as `drawRect` does it. -/
theorem clear_target_of_eq (heq : r.render.baseAddress = r.target.baseAddress) :
    (r.target.shown (clear m r position size)).words k =
      ((r.target.shown m).drawRect position size r.backgroundColor).1.words k := by
  have haddress : ∀ x y, r.render.address x y = r.target.address x y := fun x y => by
    rw [Surface.address, Surface.address, heq, r.pitch_eq]
  by_cases hk : ∃ x y, Visible (r.target.shown m).toFramebuffer position size x y ∧
      (r.target.shown m).place x y = k
  · obtain ⟨x, y, hv, rfl⟩ := hk
    have hcleared : word (clear m r position size) (r.render.address x y) = r.backgroundColor :=
      clear_visible (visible_target.1 hv)
    rw [haddress] at hcleared
    exact hcleared.trans (drawRect_visible (r.target.shown m).width_le_pitch hv).symm
  · have hk' : ∀ x y, Visible (r.target.shown m).toFramebuffer position size x y →
        (r.target.shown m).place x y ≠ k := fun x y hv h => hk ⟨x, y, hv, h⟩
    refine Eq.trans ?_ (drawClipped_elsewhere hk').symm
    refine congrArg UInt32.ofNat (load_congr fun j hj => clear_of_notMem fun x y hv => ?_)
    have := Surface.word_apart (hk' x y (visible_target.2 hv))
    rw [haddress]
    omega

theorem clearAll_target : (r.target.shown (clearAll m r)).words k =
    ((r.target.shown m).drawRect ⟨0, 0⟩ ⟨r.target.pixelWidth, r.target.pixelHeight⟩
      r.backgroundColor).1.words k := by
  by_cases hk : ∃ x y, x < r.target.pixelWidth ∧ y < r.target.pixelHeight ∧
      (r.target.shown m).place x y = k
  · obtain ⟨x, y, hx, hy, rfl⟩ := hk
    have hv : Visible (r.target.shown m).toFramebuffer ⟨0, 0⟩
        ⟨r.target.pixelWidth, r.target.pixelHeight⟩ x y :=
      ⟨Nat.zero_le x, by simpa using hx, Nat.zero_le y, by simpa using hy, hx, hy⟩
    refine Eq.trans ?_ (drawRect_visible (r.target.shown m).width_le_pitch hv).symm
    have hfilled : word (clearAll m r) (r.target.address x y) = r.backgroundColor := by
      rw [clearAll_eq]
      exact Surface.fillRows_of_mem (by simp) (by simpa using hx) (by simpa using hy)
    exact hfilled
  · have hk' : ∀ x y, Visible (r.target.shown m).toFramebuffer ⟨0, 0⟩
        ⟨r.target.pixelWidth, r.target.pixelHeight⟩ x y → (r.target.shown m).place x y ≠ k :=
      fun x y hv h => hk ⟨x, y, hv.column, hv.row, h⟩
    refine Eq.trans ?_ (drawClipped_elsewhere hk').symm
    refine congrArg UInt32.ofNat (load_congr fun j hj => ?_)
    rw [clearAll_eq]
    refine Surface.fillRows_of_notMem fun x y _ hx _ hy => ?_
    have := Surface.word_apart (s := r.target) (m := m) (x := x) (y := y) (k := k)
      fun h => hk ⟨x, y, by simpa using hx, by simpa using hy, h⟩
    omega

theorem swapAll_of_eq (heq : r.render.baseAddress = r.target.baseAddress) : swapAll m r = m := by
  rw [swapAll, memcpy, heq]
  split
  next => exact copy_self _
  next => rfl

/-- The whole target is copied to another framebuffer. -/
theorem swapAll_visible (hne : r.render.baseAddress ≠ r.target.baseAddress) {x y : ℕ}
    (hx : x < r.target.pixelWidth) (hy : y < r.target.pixelHeight) :
    word (swapAll m r) (r.render.address x y) = word m (r.target.address x y) := by
  have hend := Surface.address_add_four_le hx hy
  have hpos := r.target.base_pos
  have hpos' := r.render.base_pos
  have hapart := r.apart
  have hsize := r.size_eq
  refine congrArg UInt32.ofNat (load_eq_load fun j hj => ?_)
  unfold Surface.address at *
  rw [Nat.add_assoc, Nat.add_assoc, r.pitch_eq] at *
  exact memcpy_of_mem (by omega) (by omega) (by omega) (by omega)

theorem place_le {s : Surface} {x y : ℕ} (hx : x < s.pixelWidth) (hy : y < s.pixelHeight) :
    bytesPerPixel * ((s.shown m).place x y + 1) ≤ s.bufferSize := by
  have hend := Surface.address_add_four_le hx hy
  have hplace : (s.shown m).place x y = x + y * s.pixelsPerScanLine := rfl
  rw [hplace]
  unfold Surface.address bytesPerPixel at *
  omega

theorem drawRect_of_alreadyClear (h : AlreadyClear m r position size) (k : ℕ) :
    ((r.target.shown m).drawRect position size r.backgroundColor).1.words k =
      (r.target.shown m).words k := by
  by_cases hk : ∃ x y, Visible (r.target.shown m).toFramebuffer position size x y ∧
      (r.target.shown m).place x y = k
  · obtain ⟨x, y, hv, rfl⟩ := hk
    exact (drawRect_visible (r.target.shown m).width_le_pitch hv).trans (h x y hv).symm
  · exact drawClipped_elsewhere fun x y hv h => hk ⟨x, y, hv, h⟩

end Renderer

theorem ClearsTarget.alreadyClear {m : Memory} {r : Renderer} {position size : Vector2}
    (h : ClearsTarget m r position size) (hne : r.render.baseAddress ≠ r.target.baseAddress) :
    AlreadyClear m r position size := by
  intro x y hv
  have hk : bytesPerPixel * ((r.target.shown m).place x y + 1) ≤ r.target.bufferSize :=
    place_le hv.column hv.row
  rw [← clear_target_of_ne hne hk, h.drawn _ hk]
  exact drawRect_visible (r.target.shown m).width_le_pitch hv

/-- **`clear(position, size)` clears the render framebuffer**: the target only if it is the same, or
if there is nothing to clear. -/
theorem clear_target_iff (m : Memory) (r : Renderer) (position size : Vector2) :
    ClearsTarget m r position size ↔
      r.render.baseAddress = r.target.baseAddress ∨ AlreadyClear m r position size := by
  constructor
  · intro h
    by_cases heq : r.render.baseAddress = r.target.baseAddress
    · exact .inl heq
    · exact .inr (h.alreadyClear heq)
  · intro h
    have hdrawn : ∀ k, bytesPerPixel * (k + 1) ≤ r.target.bufferSize →
        (r.target.shown (clear m r position size)).words k =
          ((r.target.shown m).drawRect position size r.backgroundColor).1.words k := fun k hk => by
      by_cases heq : r.render.baseAddress = r.target.baseAddress
      · exact clear_target_of_eq heq
      rw [clear_target_of_ne heq hk]
      exact (drawRect_of_alreadyClear (h.resolve_left heq) k).symm
    refine ⟨hdrawn, fun x y hv => ?_, ?_⟩
    · by_cases heq : r.render.baseAddress = r.target.baseAddress
      · rw [swapAll_of_eq heq]
        exact clear_visible hv
      · have hv' : Visible (r.target.shown m).toFramebuffer position size x y := visible_target.2 hv
        have hcopied : word (swapAll (clear m r position size) r) (r.render.address x y) =
            word (clear m r position size) (r.target.address x y) :=
          swapAll_visible heq hv'.column hv'.row
        have hk : bytesPerPixel * ((r.target.shown m).place x y + 1) ≤ r.target.bufferSize :=
          place_le hv'.column hv'.row
        exact hcopied.trans ((clear_target_of_ne heq hk).trans (h.resolve_left heq x y hv'))
    · rintro rfl rfl k hk
      rw [hdrawn k hk, clearAll_target]

/-- A framebuffer of one pixel. -/
def Surface.single (baseAddress : ℕ) (hpos : 0 < baseAddress) (hlt : baseAddress < 2 ^ 16) :
    Surface where
  baseAddress := baseAddress
  bufferSize := 4
  pixelWidth := 1
  pixelHeight := 1
  pixelsPerScanLine := 1
  width_lt := by decide
  height_lt := by decide
  pitch_lt := by decide
  width_le_pitch := le_rfl
  fits := le_rfl
  base_pos := hpos
  stop_le := by omega

/-- Two framebuffers of one pixel. -/
def Renderer.deferred : Renderer where
  render := .single 4096 (by decide) (by decide)
  target := .single 8192 (by decide) (by decide)
  backgroundColor := 7
  size_eq := rfl
  width_eq := rfl
  height_eq := rfl
  pitch_eq := rfl
  apart := by decide

/-- A black pixel of the target is not cleared. -/
theorem target_not_cleared : ¬ ∀ m r position size, ClearsTarget m r position size := by
  intro h
  have hclear := (h (fun _ => 0) .deferred ⟨0, 0⟩ ⟨1, 1⟩).alreadyClear (by decide)
  have hblack := hclear 0 0 ⟨by decide, by decide, by decide, by decide, by decide, by decide⟩
  exact absurd hblack (by decide)

end Eterna
