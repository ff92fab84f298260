import Eterna.Panic.Report

/-!
# Reports on the screen

What `panic` and the handlers draw.  Only the part of the screen right of and below the start of the
panic location is updated, so characters that wrap are not on it; and the address of a page fault is
drawn over the first report.

* `Glyph`, `Framebuffer.glyphs` : the characters of a text, with their places;
* `Panel.Written` : what has been typed can be read, and what is typed next does not touch it;
* `reports_on_screen` : after any number of exceptions, the screen shows the last report.
-/

namespace Eterna

open ByteMemory CStrings Framebuffer Numerals

/-- A character on the screen. -/
structure Glyph where
  position : Vector2
  c : Int8
  color : UInt32
  background : UInt32

/-- The colour of a pixel: row `j` of a glyph is a byte, the most significant bit of which is the
leftmost pixel. -/
def Glyph.ink (g : Glyph) (font : Font) (x y : ℕ) : UInt32 :=
  let row := font.glyphBuffer (font.glyphOffset g.c + (y - g.position.y : ℕ))
  if row.toNat.testBit (7 - (x - g.position.x) % 8) then g.color else g.background

namespace Framebuffer

/-- The characters of a string. -/
def glyphs (target : Framebuffer) (font : Font) (background color : UInt32) :
    Vector2 → List Int8 → List Glyph
  | _, [] => []
  | position, c :: str =>
    if c = 0 then []
    else ⟨position, c, color, background⟩ ::
      glyphs target font background color (target.advance font position) str

/-- The pixels of a glyph that are on the screen have its colours. -/
def ShowsGlyph (target : Framebuffer) (font : Font) (g : Glyph) : Prop :=
  ∀ x y, Visible target g.position font.cell x y → target.words (target.place x y) = g.ink font x y

variable {target : Framebuffer} {font : Font} {background color : UInt32} {position : Vector2}
  {c : Int8} {str : List Int8} {g : Glyph} {x y : ℕ}

theorem glyphs_cons (hc : c ≠ 0) : target.glyphs font background color position (c :: str) =
    ⟨position, c, color, background⟩ ::
      target.glyphs font background color (target.advance font position) str := by
  rw [glyphs, if_neg hc]

theorem map_glyphs : (target.glyphs font background color position str).map Glyph.c =
    characters str := by
  induction str generalizing position with
  | nil => rfl
  | cons c str ih =>
    by_cases hc : c = 0
    · rw [hc, glyphs, if_pos rfl]
      rfl
    rw [glyphs_cons hc, List.map_cons, ih, characters, characters,
      List.takeWhile_cons_of_pos (by simpa using hc)]

theorem glyphs_with_words {words : ℕ → UInt32} :
    glyphs { target with words := words } font background color position str =
      target.glyphs font background color position str := by
  induction str generalizing position with
  | nil => rfl
  | cons c str ih =>
    rw [glyphs, glyphs]
    split
    next => rfl
    next =>
      rw [ih]
      rfl

/-- A character that is drawn is shown. -/
theorem showsGlyph_drawChar (hpitch : target.pixelWidth ≤ target.pixelsPerScanLine) :
    (target.drawChar font background position c color).1.ShowsGlyph font
      ⟨position, c, color, background⟩ := by
  intro x y hv
  have hv' : Visible target position font.cell x y := visible_with_words.1 hv
  have hdrawn := @drawClipped_visible target position font.cell (fun initX i j =>
    some (if bitmapBit (fun k => font.glyphBuffer (font.glyphOffset c + k)) initX i j then color
      else background)) x y hpitch hv'
  refine hdrawn.trans ?_
  rw [Option.getD_some, bitmapBit_eq, byteIndex_cell hv', Glyph.ink]

/-- A pixel outside of the characters of a string stays as it is. -/
theorem puts_elsewhere (hpitch : target.pixelWidth ≤ target.pixelsPerScanLine)
    (hx : x < target.pixelWidth)
    (h : ∀ g ∈ target.glyphs font background color position str,
      ¬ Visible target g.position font.cell x y) :
    (target.puts font background position color str).1.words (target.place x y) =
      target.words (target.place x y) := by
  induction str generalizing target position with
  | nil => rfl
  | cons c str ih =>
    by_cases hc : c = 0
    · rw [hc, puts, if_pos rfl]
    rw [glyphs_cons hc, List.forall_mem_cons] at h
    rw [puts_cons hc]
    have hrest : ∀ g ∈ (target.drawChar font background position c color).1.glyphs font background
        color (target.advance font position) str,
          ¬ Visible (target.drawChar font background position c color).1 g.position font.cell
            x y := by
      intro g hg hv
      exact h.2 g (glyphs_with_words ▸ hg) (visible_with_words.1 hv)
    refine (@ih (target.drawChar font background position c color).1
      (target.advance font position) hpitch hx hrest).trans ?_
    refine drawClipped_elsewhere fun x' y' hv heq => h.1 ?_
    obtain ⟨rfl, rfl⟩ := place_inj hpitch hv.column hx heq
    exact hv

theorem puts_eq_with_words : (target.puts font background position color str).1 =
    { target with words := (target.puts font background position color str).1.words } := by
  induction str generalizing target position with
  | nil => rfl
  | cons c str ih =>
    by_cases hc : c = 0
    · rw [hc, puts, if_pos rfl]
    rw [puts_cons hc]
    exact @ih (target.drawChar font background position c color).1 (target.advance font position)

theorem visible_puts {p size : Vector2} :
    Visible (target.puts font background position color str).1 p size x y ↔
      Visible target p size x y := by
  rw [puts_eq_with_words]
  exact visible_with_words

theorem place_puts :
    (target.puts font background position color str).1.place x y = target.place x y := by
  rw [puts_eq_with_words]
  rfl

theorem puts_row {n : ℕ} (hn : target.pixelHeight + 255 ≤ n) (hy : position.y ≤ n) :
    (target.puts font background position color str).2.y ≤ n := by
  induction str generalizing target position with
  | nil => exact hy
  | cons c str ih =>
    by_cases hc : c = 0
    · rw [hc, puts, if_pos rfl]
      exact hy
    rw [puts_cons hc]
    have hclamped : (target.clampDrawPosition position).y ≤ target.pixelHeight :=
      clampDrawPosition_le.2
    have hsize := font.characterSize.toNat_lt
    refine @ih (target.drawChar font background position c color).1 (target.advance font position)
      hn ?_
    rw [advance]
    split
    · dsimp only
      omega
    · dsimp only
      omega

theorem puts_row_of_cons {n : ℕ} (hn : target.pixelHeight + 255 ≤ n) (hc : c ≠ 0) :
    (target.puts font background position color (c :: str)).2.y ≤ n := by
  have hclamped : (target.clampDrawPosition position).y ≤ target.pixelHeight :=
    clampDrawPosition_le.2
  have hsize := font.characterSize.toNat_lt
  rw [puts_cons hc]
  refine @puts_row (target.drawChar font background position c color).1 font background color
    (target.advance font position) str n hn ?_
  rw [advance]
  split
  · dsimp only
    omega
  · dsimp only
    omega

theorem mem_putsCursors : (target.puts font background position color str).2 ∈
    target.putsCursors font background position color str :=
  List.mem_of_getLast? getLast_putsCursors

theorem puts_inside (hx : position.x + 8 ≤ target.pixelWidth) :
    (target.puts font background position color str).2.x + 8 ≤ target.pixelWidth :=
  putsCursors_inside hx _ mem_putsCursors

theorem later_puts {p : Vector2} (hx : position.x + 8 ≤ target.pixelWidth)
    (h : Later target font p position) :
    Later target font p (target.puts font background position color str).2 :=
  putsCursors_later hx h _ mem_putsCursors

/-- The characters of a string are shown, and what is typed behind it does not touch them. -/
theorem puts_glyphs (hpitch : target.pixelWidth ≤ target.pixelsPerScanLine)
    (hx : position.x + 8 ≤ target.pixelWidth) :
    ∀ g ∈ target.glyphs font background color position str,
      (target.puts font background position color str).1.ShowsGlyph font g ∧
        Later target font g.position (target.puts font background position color str).2 := by
  induction str generalizing target position with
  | nil => exact fun _ h => absurd h List.not_mem_nil
  | cons c str ih =>
    by_cases hc : c = 0
    · rw [hc, glyphs, if_pos rfl]
      exact fun _ h => absurd h List.not_mem_nil
    rw [glyphs_cons hc, puts_cons hc, List.forall_mem_cons]
    constructor
    · refine ⟨fun x y hv => ?_, @later_puts (target.drawChar font background position c color).1
        font background color (target.advance font position) str position (advance_inside hx)
        (later_advance hx)⟩
      rw [visible_puts] at hv
      rw [place_puts]
      refine Eq.trans ?_ (showsGlyph_drawChar hpitch x y hv)
      exact @puts_keeps (target.drawChar font background position c color).1 font background color
        (target.advance font position) str hpitch position x y (advance_inside hx)
        (later_advance hx) hv
    · intro g hg
      refine @ih (target.drawChar font background position c color).1 (target.advance font position)
        hpitch (advance_inside hx) g ?_
      exact glyphs_with_words.symm ▸ hg

/-- What is typed behind a character keeps it. -/
theorem ShowsGlyph.puts (hpitch : target.pixelWidth ≤ target.pixelsPerScanLine)
    (hx : position.x + 8 ≤ target.pixelWidth) (h : target.ShowsGlyph font g)
    (hlater : Later target font g.position position) :
    (target.puts font background position color str).1.ShowsGlyph font g := by
  intro x y hv
  rw [visible_puts] at hv
  rw [place_puts]
  exact (puts_keeps hpitch hx hlater hv).trans (h x y hv)

end Framebuffer

/-! ### Typing -/

theorem toInt8_ne_zero {b : UInt8} (h : b ≠ 0) : b.toInt8 ≠ 0 := fun h' =>
  h (congrArg Int8.toUInt8 h')

namespace Panel

/-- The target. -/
def shown (p : Panel) : Framebuffer := (p.renderer.target.shown p.memory).toFramebuffer

/-- The characters of a string at the panic location. -/
def typed (str : List Int8) (color : UInt32) (p : Panel) : List Glyph :=
  p.shown.glyphs p.font p.renderer.backgroundColor color p.panicLocation str

/-- The characters of some lines. -/
def linesGlyphs : List (Text × BitVec 64) → Panel → List Glyph
  | [], _ => []
  | line :: lines, p =>
    let q := p.type (chars line.1) 0
    p.typed (chars line.1) 0 ++ q.typed (chars (hexadecimal 16 line.2.toNat)) 0 ++
      linesGlyphs lines (q.type (chars (hexadecimal 16 line.2.toNat)) 0).crlf

/-- The characters of a report. -/
def reportGlyphs (panicMessage : Text) (lines : List (Text × BitVec 64)) (p : Panel) : List Glyph :=
  let q := p.setBackground 0xffff0000
  let headline := chars (literal "Eterna PANIC MODE")
  q.typed headline 0xffffffff ++ (q.type headline 0xffffffff).crlf.typed (chars panicMessage) 0 ++
    linesGlyphs lines (p.panic panicMessage)

variable {p : Panel} {str : List Int8} {color : UInt32} {g : Glyph} {gs : List Glyph} {n : ℕ}
  {size : Vector2} {x y : ℕ}

theorem map_typed {s : Text} (h0 : 0 ∉ s) :
    (p.typed (chars s) color).map Glyph.c = s.map UInt8.toInt8 := by
  rw [typed, map_glyphs]
  induction s with
  | nil => rfl
  | cons b s ih =>
    rw [List.mem_cons, not_or] at h0
    have hb : b.toInt8 ≠ 0 := toInt8_ne_zero (Ne.symm h0.1)
    refine (List.takeWhile_cons_of_pos (by simpa using hb)).trans ?_
    exact congrArg (b.toInt8 :: ·) (ih h0.2)

theorem map_linesGlyphs {lines : List (Text × BitVec 64)} (h0 : ∀ line ∈ lines, 0 ∉ line.1) :
    (p.linesGlyphs lines).map Glyph.c =
      (lines.flatMap fun line => line.1 ++ hexadecimal 16 line.2.toNat).map UInt8.toInt8 := by
  induction lines generalizing p with
  | nil => rfl
  | cons line lines ih =>
    rw [List.forall_mem_cons] at h0
    have hhex : 0 ∉ hexadecimal 16 line.2.toNat := notMem_hexadecimal (by decide)
    simp only [linesGlyphs, List.map_append, List.flatMap_cons, map_typed h0.1, map_typed hhex,
      ih h0.2]

theorem shown_type : ((p.type str color).shown, (p.type str color).panicLocation) =
    p.shown.puts p.font p.renderer.backgroundColor p.panicLocation color str := Renderer.shown_puts

/-- A character can be read, and what is typed next does not touch it. -/
structure Written (p : Panel) (g : Glyph) : Prop where
  shown : p.shown.ShowsGlyph p.font g
  later : Later p.shown p.font g.position p.panicLocation

/-- These characters have been typed. -/
structure Typing (p : Panel) (n : ℕ) (gs : List Glyph) : Prop where
  column : p.panicLocation.x + 8 ≤ p.renderer.target.pixelWidth
  row : p.panicLocation.y ≤ 2 ^ 32 + 255 * n
  written : ∀ g ∈ gs, p.Written g

theorem column_type (h : p.panicLocation.x + 8 ≤ p.renderer.target.pixelWidth) :
    (p.type str color).panicLocation.x + 8 ≤ p.renderer.target.pixelWidth := by
  have hlocation := congrArg Prod.snd (@shown_type p str color)
  dsimp only at hlocation
  rw [hlocation]
  exact puts_inside h

theorem written_type (hx : p.panicLocation.x + 8 ≤ p.renderer.target.pixelWidth)
    (h : ∀ g ∈ gs, p.Written g) :
    ∀ g ∈ gs ++ p.typed str color, (p.type str color).Written g := by
  obtain ⟨hshown, hlocation⟩ := Prod.ext_iff.1 (@shown_type p str color)
  have hpitch : p.shown.pixelWidth ≤ p.shown.pixelsPerScanLine :=
    (p.renderer.target.shown p.memory).width_le_pitch
  have hcolumn : p.panicLocation.x + 8 ≤ p.shown.pixelWidth := hx
  dsimp only at hshown hlocation
  have hgeometry := @puts_eq_with_words p.shown p.font p.renderer.backgroundColor color
    p.panicLocation str
  intro g hg
  constructor
  · rw [hshown]
    obtain hg | hg := List.mem_append.1 hg
    · exact (h g hg).shown.puts hpitch hcolumn (h g hg).later
    · exact (puts_glyphs hpitch hcolumn g hg).1
  · rw [hshown, hlocation, hgeometry]
    obtain hg | hg := List.mem_append.1 hg
    · exact later_puts hcolumn (h g hg).later
    · exact (puts_glyphs hpitch hcolumn g hg).2

theorem Typing.type (h : p.Typing (n + 1) gs) :
    (p.type str color).Typing (n + 1) (gs ++ p.typed str color) := by
  have hlocation := congrArg Prod.snd (@shown_type p str color)
  have hheight : p.shown.pixelHeight < 2 ^ 32 := p.shown.height_lt
  refine ⟨column_type h.column, ?_, written_type h.column h.written⟩
  dsimp only at hlocation
  rw [hlocation]
  exact puts_row (by omega) h.row

/-- From any location, the first line of a report comes onto the screen, or right behind it. -/
theorem typing_type {c : Int8} (hc : c ≠ 0)
    (hx : p.panicLocation.x + 8 ≤ p.renderer.target.pixelWidth) :
    (p.type (c :: str) color).Typing 1 (p.typed (c :: str) color) := by
  have hlocation := congrArg Prod.snd (@shown_type p (c :: str) color)
  have hheight : p.shown.pixelHeight < 2 ^ 32 := p.shown.height_lt
  refine ⟨column_type hx, ?_, @written_type p (c :: str) color [] hx fun _ h =>
    absurd h List.not_mem_nil⟩
  dsimp only at hlocation
  rw [hlocation]
  exact puts_row_of_cons (by omega) hc

theorem Typing.crlf (h : p.Typing n gs) (hn : n ≤ 2 ^ 32)
    (hwidth : 408 ≤ p.renderer.target.pixelWidth) : p.crlf.Typing (n + 1) gs := by
  have hsize := p.font.characterSize.toNat_lt
  have hrow := h.row
  have hadd : add64 p.panicLocation.y p.font.characterSize.toNat =
      p.panicLocation.y + p.font.characterSize.toNat := add64_of_lt (by omega)
  refine ⟨hwidth, ?_, fun g hg => ⟨(h.written g hg).shown, ?_⟩⟩
  · rw [Panel.crlf, hadd]
    dsimp only
    omega
  · have hlater := (h.written g hg).later
    rw [Panel.crlf, hadd]
    change Later p.shown p.font g.position _
    rw [Later] at *
    dsimp only
    omega

/-- Memory that has the same pixels in the target. -/
theorem Typing.of_memory {m : Memory} (h : p.Typing n gs)
    (hm : ∀ x y, x < p.renderer.target.pixelWidth → y < p.renderer.target.pixelHeight →
      word m (p.renderer.target.address x y) = word p.memory (p.renderer.target.address x y)) :
    Typing { p with memory := m } n gs :=
  ⟨h.column, h.row, fun g hg => ⟨fun x y hv => (hm x y hv.column hv.row).trans
    ((h.written g hg).shown x y (visible_with_words.1 hv)), (h.written g hg).later⟩⟩

end Panel

namespace Renderer

variable {m : Memory} {r : Renderer} {position size : Vector2} {x y : ℕ}

theorem swap_target (hx : x < r.target.pixelWidth) (hy : y < r.target.pixelHeight) :
    word (swap m r position size) (r.target.address x y) = word m (r.target.address x y) := by
  by_cases hne : r.render.baseAddress = r.target.baseAddress
  · rw [swap, if_pos hne]
  have hend := Surface.address_add_four_le hx hy
  have hstart : r.target.baseAddress ≤ r.target.address x y := Nat.le_add_right _ _
  refine congrArg UInt32.ofNat (load_congr fun j hj => swap_of_notMem fun x' y' hv => ?_)
  exact target_apart hne (by omega) (visible_target.1 hv)

theorem swap_screen (hv : ¬ Visible (r.target.shown m).toFramebuffer position size x y)
    (hx : x < r.target.pixelWidth) :
    word (swap m r position size) (r.render.address x y) = word m (r.render.address x y) := by
  refine congrArg UInt32.ofNat (load_congr fun j hj => swap_of_notMem fun x' y' hv' => ?_)
  have hcolumn : x < r.render.pixelWidth := r.width_eq ▸ hx
  have hcolumn' : x' < r.render.pixelWidth := r.width_eq ▸ hv'.column
  have hne : ¬ (x = x' ∧ y = y') := by
    rintro ⟨rfl, rfl⟩
    exact hv hv'
  have hapart := Surface.address_apart hcolumn hcolumn' hne
  omega

end Renderer

namespace Panel

variable {p : Panel} {str : List Int8} {color : UInt32} {g : Glyph} {gs : List Glyph} {n : ℕ}
  {size : Vector2} {x y : ℕ}

theorem Typing.swap (h : p.Typing n gs) : (p.swap size).Typing n gs :=
  h.of_memory fun _ _ => Renderer.swap_target

theorem Typing.typeLines {lines : List (Text × BitVec 64)} (h : p.Typing (n + 1) gs)
    (hn : n + lines.length < 2 ^ 32) (hwidth : 408 ≤ p.renderer.target.pixelWidth) :
    (p.typeLines lines).Typing (n + 1 + lines.length) (gs ++ p.linesGlyphs lines) := by
  induction lines generalizing p n gs with
  | nil =>
    rw [linesGlyphs, List.append_nil]
    exact h
  | cons line lines ih =>
    rw [List.length_cons] at hn
    have hline : ((p.type (chars line.1) 0).type (chars (hexadecimal 16 line.2.toNat)) 0).Typing
        (n + 1) _ := h.type.type
    have hnext := hline.crlf (by omega) hwidth
    have hrest := ih hnext (by omega) hwidth
    have hlength : n + 1 + 1 + lines.length = n + 1 + (line :: lines).length := by
      rw [List.length_cons]
      omega
    rw [hlength, List.append_assoc, List.append_assoc, ← List.append_assoc (p.typed _ _)] at hrest
    exact hrest

/-- What a report has typed when it goes to the screen. -/
theorem typing_report {panicMessage : Text} {lines : List (Text × BitVec 64)}
    (hx : p.panicLocation.x + 8 ≤ p.renderer.target.pixelWidth)
    (hwidth : 408 ≤ p.renderer.target.pixelWidth) (hlines : lines.length < 2 ^ 31) :
    ((p.panic panicMessage).typeLines lines).Typing (3 + lines.length)
      (p.reportGlyphs panicMessage lines) := by
  obtain ⟨c, str, hhead, hc⟩ : ∃ c str, chars (literal "Eterna PANIC MODE") = c :: str ∧ c ≠ 0 :=
    ⟨69, _, rfl, by decide⟩
  have hheadline : ((p.setBackground 0xffff0000).type (c :: str) 0xffffffff).Typing 1 _ :=
    typing_type hc hx
  have hmessage : ((((p.setBackground 0xffff0000).type (c :: str) 0xffffffff).crlf).type
      (chars panicMessage) 0).Typing (1 + 1) _ := (hheadline.crlf (by decide) hwidth).type
  have hswap := @Typing.swap _ _ _ ⟨80000, 80000⟩ (hmessage.crlf (by decide) hwidth)
  have hall := @Typing.typeLines _ _ _ lines hswap (by omega) hwidth
  have hlength : 1 + 1 + 1 + lines.length = 3 + lines.length := by omega
  rw [hlength] at hall
  rw [reportGlyphs, panic, hhead]
  exact hall

/-! ### What is on the screen -/

/-- The pixels of a character that are in an updated part of the screen have its colours. -/
def OnScreen (p : Panel) (size : Vector2) (g : Glyph) : Prop :=
  ∀ x y, Visible p.shown g.position p.font.cell x y → Visible p.shown panicStart size x y →
    word p.memory (p.renderer.render.address x y) = g.ink p.font x y

theorem screen_swap (hv : Visible p.shown panicStart size x y) :
    word (p.swap size).memory (p.renderer.render.address x y) =
      word p.memory (p.renderer.target.address x y) :=
  congrArg UInt32.ofNat (load_eq_load fun _ hj => Renderer.swap_visible hv hj)

theorem Written.onScreen (h : p.Written g) : (p.swap size).OnScreen size g := by
  intro x y hv hpart
  have hshown : word p.memory (p.renderer.target.address x y) = g.ink p.font x y :=
    h.shown x y (visible_with_words.1 hv)
  exact (@screen_swap p size x y (visible_with_words.1 hpart)).trans hshown

/-! ### The address of a page fault -/

/-- The characters of the address of a page fault. -/
def addressText (address : BitVec 64) : Text :=
  literal "Faulty Address: 0x" ++ hexadecimal 16 address.toNat

/-- Their places. -/
def addressGlyphs (address : BitVec 64) (p : Panel) : List Glyph :=
  p.shown.glyphs p.font p.renderer.backgroundColor 0 panicStart (chars (addressText address))

theorem puts_append {s t : Text} {m : Memory} {r : Renderer} {font : Font} {position : Vector2}
    (h0 : 0 ∉ s) : (let q := Renderer.puts m r font position color (chars s)
      Renderer.puts q.1 r font q.2 color (chars t)) =
    Renderer.puts m r font position color (chars (s ++ t)) := by
  induction s generalizing m position with
  | nil => rfl
  | cons b s ih =>
    rw [List.mem_cons, not_or] at h0
    have hb : b.toInt8 ≠ 0 := toInt8_ne_zero (Ne.symm h0.1)
    have hcons (u : Text) : chars (b :: u) = b.toInt8 :: chars u := rfl
    rw [List.cons_append, hcons, hcons, Renderer.puts, Renderer.puts, if_neg hb, if_neg hb]
    exact ih h0.2

theorem faultyAddress_eq (address : BitVec 64) : p.faultyAddress address =
    swap ⟨1024, 128⟩ (p.puts panicStart (chars (addressText address)) 0).1 := by
  have hputs := @puts_append 0 (literal "Faulty Address: 0x") (hexadecimal 16 address.toNat)
    p.memory p.renderer p.font panicStart (by decide)
  rw [faultyAddress, puts, puts, puts, addressText, ← hputs]

end Panel

namespace Framebuffer

variable {target : Framebuffer} {font : Font} {background color : UInt32} {position : Vector2}
  {str : List Int8}

theorem glyphs_row (h : position.x + 8 * str.length ≤ target.pixelWidth) :
    ∀ g ∈ target.glyphs font background color position str, g.position.y ≤ position.y := by
  induction str generalizing position with
  | nil => exact fun _ h => absurd h List.not_mem_nil
  | cons c str ih =>
    rw [glyphs]
    split
    next => exact fun _ h => absurd h List.not_mem_nil
    next =>
      rw [List.forall_mem_cons]
      refine ⟨le_rfl, ?_⟩
      rw [List.length_cons] at h
      have hx : (target.clampDrawPosition position).x = position.x := if_neg (by omega)
      have hy : (target.clampDrawPosition position).y ≤ position.y := by
        simp only [clampDrawPosition]
        split <;> omega
      cases str with
      | nil => exact fun _ h => absurd h List.not_mem_nil
      | cons d str =>
        rw [List.length_cons] at h
        have hnext : target.advance font position =
            ⟨position.x + 8, (target.clampDrawPosition position).y⟩ := by
          rw [advance, hx, if_neg (by omega)]
        intro g hg
        rw [hnext] at hg
        have hrow := @ih ⟨position.x + 8, (target.clampDrawPosition position).y⟩
          (by rw [List.length_cons]; dsimp only; omega) g hg
        exact hrow.trans hy

end Framebuffer

namespace Panel

variable {p : Panel} {str : List Int8} {color : UInt32} {g : Glyph} {gs : List Glyph} {n : ℕ}
  {size : Vector2} {x y : ℕ} {address : BitVec 64}

theorem shown_puts {position : Vector2} : (p.puts position str color).1.shown =
    (p.shown.puts p.font p.renderer.backgroundColor position color str).1 :=
  congrArg Prod.fst Renderer.shown_puts

theorem screen_puts {position : Vector2}
    (hne : p.renderer.render.baseAddress ≠ p.renderer.target.baseAddress)
    (hx : x < p.renderer.target.pixelWidth) (hy : y < p.renderer.target.pixelHeight) :
    word (p.puts position str color).1.memory (p.renderer.render.address x y) =
      word p.memory (p.renderer.render.address x y) := by
  have hend := Surface.address_add_four_le (s := p.renderer.render) (x := x) (y := y)
    (p.renderer.width_eq ▸ hx) (p.renderer.height_eq ▸ hy)
  have hstart : p.renderer.render.baseAddress ≤ p.renderer.render.address x y :=
    Nat.le_add_right _ _
  have hapart := p.renderer.apart
  refine congrArg UInt32.ofNat (load_congr fun j hj => Renderer.puts_of_outside ?_)
  rw [Renderer.Outside]
  omega

theorem length_addressText : (addressText address).length = 34 := by
  rw [addressText, List.length_append, length_hexadecimal]
  rfl

theorem addressGlyphs_row (hwidth : 680 ≤ p.renderer.target.pixelWidth) :
    ∀ g ∈ p.addressGlyphs address, g.position.y ≤ panicStart.y := by
  refine glyphs_row ?_
  have hwidth' : 680 ≤ p.shown.pixelWidth := hwidth
  rw [chars, List.length_map, List.length_append, length_addressText]
  exact hwidth'

theorem pixel_faultyAddress (hwidth : 680 ≤ p.renderer.target.pixelWidth)
    (hx : x < p.renderer.target.pixelWidth)
    (hy : panicStart.y + p.font.characterSize.toNat ≤ y) :
    word (p.puts panicStart (chars (addressText address)) 0).1.memory
        (p.renderer.target.address x y) = word p.memory (p.renderer.target.address x y) := by
  have hpitch : p.shown.pixelWidth ≤ p.shown.pixelsPerScanLine :=
    (p.renderer.target.shown p.memory).width_le_pitch
  have hkept := @puts_elsewhere p.shown p.font p.renderer.backgroundColor 0 panicStart
    (chars (addressText address)) x y hpitch hx ?_
  · rw [← shown_puts] at hkept
    exact hkept
  · intro g hg hv
    have hrow := addressGlyphs_row hwidth g hg
    have hbottom : y < g.position.y + p.font.characterSize.toNat := hv.bottom
    omega

/-- A character below the address stays on the screen. -/
theorem OnScreen.faultyAddress (hwidth : 680 ≤ p.renderer.target.pixelWidth)
    (hshown : p.shown.ShowsGlyph p.font g)
    (hrow : panicStart.y + p.font.characterSize.toNat ≤ g.position.y)
    (h : p.OnScreen ⟨80000, 80000⟩ g) :
    (p.faultyAddress address).OnScreen ⟨80000, 80000⟩ g := by
  rw [faultyAddress_eq]
  intro x y hv hpart
  have hv' : Visible p.shown g.position p.font.cell x y := visible_with_words.1 hv
  have hpart' : Visible p.shown panicStart ⟨80000, 80000⟩ x y := visible_with_words.1 hpart
  have hx : x < p.renderer.target.pixelWidth := hv'.column
  have hy : y < p.renderer.target.pixelHeight := hv'.row
  let q := (p.puts panicStart (chars (addressText address)) 0).1
  have htarget : word q.memory (p.renderer.target.address x y) = g.ink p.font x y :=
    (pixel_faultyAddress hwidth hx (hrow.trans hv'.top)).trans (hshown x y hv')
  -- whether the pixel is in the part that is updated for the address
  by_cases hupdated : Visible q.shown panicStart ⟨1024, 128⟩ x y
  · exact (@screen_swap q ⟨1024, 128⟩ x y hupdated).trans htarget
  · have hswap := @Renderer.swap_screen q.memory q.renderer panicStart ⟨1024, 128⟩ x y hupdated hx
    refine hswap.trans ?_
    by_cases hne : p.renderer.render.baseAddress = p.renderer.target.baseAddress
    · have haddress : p.renderer.render.address x y = p.renderer.target.address x y := by
        rw [Surface.address, Surface.address, hne, p.renderer.pitch_eq]
      have hsame : word q.memory (p.renderer.render.address x y) = g.ink p.font x y :=
        haddress ▸ htarget
      exact hsame
    · exact (screen_puts hne hx hy).trans (h x y hv' hpart')

theorem address_onScreen (hwidth : 680 ≤ p.renderer.target.pixelWidth) :
    ∀ g ∈ p.addressGlyphs address, (p.faultyAddress address).OnScreen ⟨1024, 128⟩ g := by
  intro g hg
  have hpitch : p.shown.pixelWidth ≤ p.shown.pixelsPerScanLine :=
    (p.renderer.target.shown p.memory).width_le_pitch
  have hcolumn : panicStart.x + 8 ≤ p.shown.pixelWidth := le_trans (by decide) hwidth
  have hglyph := (puts_glyphs hpitch hcolumn g hg).1
  rw [faultyAddress_eq]
  intro x y hv hpart
  let q := (p.puts panicStart (chars (addressText address)) 0).1
  have hshown : word q.memory (p.renderer.target.address x y) = g.ink p.font x y := by
    rw [← shown_puts] at hglyph
    exact hglyph x y (visible_with_words.1 hv)
  exact (@screen_swap q ⟨1024, 128⟩ x y (visible_with_words.1 hpart)).trans hshown

/-! ### The rest of the screen -/

/-- Nothing but the panel has changed on the screen, unless the target is the screen. -/
structure Kept (p q : Panel) : Prop where
  render : q.renderer.render = p.renderer.render
  target : q.renderer.target = p.renderer.target
  font : q.font = p.font
  screen : p.renderer.render.baseAddress ≠ p.renderer.target.baseAddress →
    ∀ x y, x < p.renderer.target.pixelWidth → y < p.renderer.target.pixelHeight →
      x < panicStart.x ∨ y < panicStart.y →
      word q.memory (p.renderer.render.address x y) = word p.memory (p.renderer.render.address x y)

theorem Kept.trans {q r : Panel} (h : Kept p q) (h' : Kept q r) : Kept p r := by
  refine ⟨h'.render.trans h.render, h'.target.trans h.target, h'.font.trans h.font,
    fun hne x y hx hy hout => ?_⟩
  have hrest := h'.screen (by rwa [h.render, h.target]) x y (by rwa [h.target]) (by rwa [h.target])
    hout
  rw [h.render] at hrest
  exact hrest.trans (h.screen hne x y hx hy hout)

theorem kept_rfl : Kept p p := ⟨rfl, rfl, rfl, fun _ _ _ _ _ _ => rfl⟩

theorem kept_setBackground : Kept p (p.setBackground color) :=
  ⟨rfl, rfl, rfl, fun _ _ _ _ _ _ => rfl⟩

theorem kept_crlf : Kept p p.crlf := ⟨rfl, rfl, rfl, fun _ _ _ _ _ _ => rfl⟩

theorem kept_puts {position : Vector2} : Kept p (p.puts position str color).1 :=
  ⟨rfl, rfl, rfl, fun hne _ _ hx hy _ => screen_puts hne hx hy⟩

theorem kept_type : Kept p (p.type str color) :=
  ⟨rfl, rfl, rfl, fun hne x y hx hy hout => (@kept_puts p str color p.panicLocation).screen hne x y
    hx hy hout⟩

theorem kept_swap : Kept p (p.swap size) := by
  refine ⟨rfl, rfl, rfl, fun hne x y hx hy hout => Renderer.swap_screen (fun hv => ?_) hx⟩
  have hleft : panicStart.x ≤ x := hv.left
  have htop : panicStart.y ≤ y := hv.top
  omega

theorem kept_typeLines {lines : List (Text × BitVec 64)} : Kept p (p.typeLines lines) := by
  induction lines generalizing p with
  | nil => exact kept_rfl
  | cons line lines ih => exact ((kept_type.trans kept_type).trans kept_crlf).trans ih

theorem kept_report {panicMessage : Text} {lines : List (Text × BitVec 64)} :
    Kept p (p.report panicMessage lines) :=
  have hheadline := kept_setBackground.trans (kept_type.trans kept_crlf)
  have hmessage := hheadline.trans ((kept_type.trans kept_crlf).trans kept_swap)
  hmessage.trans (kept_typeLines.trans kept_swap)

theorem kept_faultyAddress : Kept p (p.faultyAddress address) := by
  rw [faultyAddress_eq]
  exact kept_puts.trans kept_swap

end Panel

/-! ### Exceptions -/

namespace Fault

variable {fault : Fault} {p : Panel}

/-- The characters of the report of an exception. -/
def glyphs (fault : Fault) (p : Panel) : List Glyph :=
  p.reportGlyphs fault.printed.1.text fault.lines

/-- The text of the report: the messages, and the lines of the frame. -/
def text (fault : Fault) : Text :=
  literal "Eterna PANIC MODE" ++ fault.printed.1.text ++
    fault.lines.flatMap fun line => line.1 ++ hexadecimal 16 line.2.toNat

/-- The report and the address of a page fault are on the screen, and nothing else has changed on
it. The address takes the place of what the report has in the first row of the panel. -/
structure Readable (fault : Fault) (p q : Panel) : Prop where
  text : (fault.glyphs p).map Glyph.c = fault.text.map UInt8.toInt8
  report : ∀ g ∈ fault.glyphs p,
    fault.address = none ∨ panicStart.y + p.font.characterSize.toNat ≤ g.position.y →
      q.OnScreen ⟨80000, 80000⟩ g
  address : ∀ address ∈ fault.address,
    ∀ g ∈ (p.report fault.printed.1.text fault.lines).addressGlyphs address,
      q.OnScreen ⟨1024, 128⟩ g
  rest : Panel.Kept p q

theorem length_lines : fault.lines.length < 2 ^ 31 := by
  cases fault <;> simp [lines, InterruptFrame.lines, InterruptFrameError.lines]

theorem kept_draw : Panel.Kept p (fault.draw p) := by
  rw [draw]
  split
  next => exact Panel.kept_report.trans Panel.kept_faultyAddress
  next => exact Panel.kept_report

/-- The next report finds room for a character, too. -/
theorem column_draw (hx : p.panicLocation.x + 8 ≤ p.renderer.target.pixelWidth)
    (hwidth : 680 ≤ p.renderer.target.pixelWidth) :
    (fault.draw p).panicLocation.x + 8 ≤ (fault.draw p).renderer.target.pixelWidth := by
  have hreport := (@Panel.typing_report p fault.printed.1.text fault.lines hx (by omega)
    length_lines).column
  rw [draw]
  split
  next => exact hreport
  next => exact hreport

theorem plain_lines : ∀ line ∈ fault.lines, 0 ∉ line.1 := by
  have herror : 0 ∉ literal "Error Code: 0x" := by decide
  have hinstruction : 0 ∉ literal "Instruction Address: 0x" := by decide
  have hstack : 0 ∉ literal "Stack Pointer: 0x" := by decide
  cases fault <;> simp [lines, InterruptFrame.lines, InterruptFrameError.lines, herror,
    hinstruction, hstack]

/-- **What a handler has drawn can be read.** -/
theorem readable_draw (hx : p.panicLocation.x + 8 ≤ p.renderer.target.pixelWidth)
    (hwidth : 680 ≤ p.renderer.target.pixelWidth) : fault.Readable p (fault.draw p) := by
  have hwidth' : 408 ≤ p.renderer.target.pixelWidth := by omega
  have htyped := @Panel.typing_report p fault.printed.1.text fault.lines hx hwidth' length_lines
  have hreport := @Panel.Typing.swap _ _ _ ⟨80000, 80000⟩ htyped
  have hscreen := fun g hg => @Panel.Written.onScreen _ g ⟨80000, 80000⟩ (htyped.written g hg)
  have htarget : (p.report fault.printed.1.text fault.lines).renderer.target = p.renderer.target :=
    Panel.kept_report.target
  have hfont : (p.report fault.printed.1.text fault.lines).font = p.font := Panel.kept_report.font
  rw [← htarget] at hwidth
  constructor
  · have hmessage := (Console.plain_text fault.printed.1).1
    rw [glyphs, Panel.reportGlyphs, List.map_append, List.map_append, text, List.map_append,
      List.map_append, Panel.map_typed (by decide), Panel.map_typed hmessage,
      Panel.map_linesGlyphs plain_lines]
  · intro g hg hrow
    rw [draw]
    split
    next address haddress =>
      rw [haddress] at hrow
      have hbelow := hrow.resolve_left (Option.some_ne_none address)
      rw [← hfont] at hbelow
      exact (hscreen g hg).faultyAddress hwidth (hreport.written g hg).shown hbelow
    next => exact hscreen g hg
  · intro address haddress g hg
    rw [draw, Option.mem_def.1 haddress]
    exact Panel.address_onScreen hwidth g hg
  · exact kept_draw

end Fault

namespace Console

variable {hide : Bool}

/-- What earlier exceptions have left: room for a character, and the rest of the screen. -/
theorem draw_all {faults : List Fault} {p : Panel}
    (hx : p.panicLocation.x + 8 ≤ p.renderer.target.pixelWidth)
    (hwidth : 680 ≤ p.renderer.target.pixelWidth) :
    let q := faults.foldl (fun p fault => fault.draw p) p
    q.panicLocation.x + 8 ≤ q.renderer.target.pixelWidth ∧ Panel.Kept p q := by
  induction faults generalizing p with
  | nil => exact ⟨hx, Panel.kept_rfl⟩
  | cons fault faults ih =>
    have hdraw : Panel.Kept p (fault.draw p) := Fault.kept_draw
    obtain ⟨hx', hkept⟩ := ih (p := fault.draw p) (Fault.column_draw hx hwidth)
      (by rwa [hdraw.target])
    exact ⟨hx', hdraw.trans hkept⟩

end Console

/-- **Reports can be read on the screen**, if it has at least 680 columns: whatever exceptions have
been handled before, by handlers that returned, after the next one every character of its report is
on the screen as far as it lies in the panel, and so is the address of a page fault; and the rest of
the screen is as it was, if the target is not the screen. -/
theorem reports_on_screen (hide : Bool) (faults : List Fault) (fault : Fault) (s : Console)
    (hreturns : ∀ earlier ∈ faults, earlier.ending ≠ .halts)
    (hstart : s.panicLocation = panicStart) (hwidth : 680 ≤ s.renderer.target.pixelWidth) :
    ∃ s₁ s₂, s.handleAll hide faults = .ok (s₁, false) ∧
      s₁.handle hide fault = .ok (s₂, fault.ending) ∧
      fault.Readable s₁.panel s₂.panel ∧ Panel.Kept s.panel s₂.panel := by
  have hx : s.panel.panicLocation.x + 8 ≤ s.panel.renderer.target.pixelWidth := by
    have hcolumn : s.panel.panicLocation.x = 400 := congrArg Vector2.x hstart
    rw [hcolumn]
    exact le_trans (by decide) hwidth
  obtain ⟨s₁, halted, hs₁, hhalted, -, hpanel₁⟩ := @Console.handleAll_spec hide faults s
  obtain rfl : halted = false := by
    rw [← Bool.not_eq_true, hhalted]
    rintro ⟨earlier, hmem, hhalts⟩
    exact hreturns earlier hmem hhalts
  obtain ⟨s₂, hs₂, -, -, hpanel₂⟩ := @Console.performs_report hide fault s₁
  obtain ⟨hx₁, hkept⟩ := @Console.draw_all (Fault.handled faults) s.panel hx hwidth
  rw [← hpanel₁] at hx₁ hkept
  have hwidth₁ : 680 ≤ s₁.panel.renderer.target.pixelWidth := by rwa [hkept.target]
  refine ⟨s₁, s₂, hs₁, ?_, ?_, ?_⟩
  · rw [Console.handle, hs₂]
    rfl
  · rw [hpanel₂]
    exact Fault.readable_draw hx₁ hwidth₁
  · rw [hpanel₂]
    exact hkept.trans Fault.kept_draw

/-- Two framebuffers of 680 by 600 pixels. -/
def Renderer.wide : Renderer where
  render := ⟨2 ^ 32, 1632000, 680, 600, 680, by decide, by decide, by decide, le_rfl, by decide,
    by decide, by decide⟩
  target := ⟨2 ^ 33, 1632000, 680, 600, 680, by decide, by decide, by decide, le_rfl, by decide,
    by decide, by decide⟩
  backgroundColor := 0
  size_eq := rfl
  width_eq := rfl
  height_eq := rfl
  pitch_eq := rfl
  apart := by decide

/-- The kernel before the first exception. -/
def Console.first : Console :=
  ⟨true, [], fun _ => 0, fun _ => 0, .wide, .blank, panicStart, 0⟩

/-- A page fault after a stack segment fault. -/
theorem reports_on_screen_second : ∃ s₁ s₂,
    Console.first.handleAll false [.stackSegment ⟨8, 1, 2, 3, 4, 5⟩] = .ok (s₁, false) ∧
      s₁.handle false (.pageFault 64 ⟨2, 1, 2, 3, 4, 5⟩) = .ok (s₂, .halts) ∧
      (Fault.pageFault 64 ⟨2, 1, 2, 3, 4, 5⟩).Readable s₁.panel s₂.panel := by
  obtain ⟨s₁, s₂, hs₁, hs₂, hreadable, -⟩ := reports_on_screen false
    [.stackSegment ⟨8, 1, 2, 3, 4, 5⟩] (.pageFault 64 ⟨2, 1, 2, 3, 4, 5⟩) .first
    (fun earlier hmem h => by cases List.mem_singleton.1 hmem; cases h) rfl (by decide)
  exact ⟨s₁, s₂, hs₁, hs₂, hreadable⟩

end Eterna
