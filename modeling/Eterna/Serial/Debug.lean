import Eterna.Serial.Doubles

/-!
# Formatted printing

`dbgmsg_v` of `debug.cc`.  `dbgmsg(va_arg(args, const char*))` in the case `%s` calls
`dbgmsg(const char*, ...)`, which fits better than `dbgmsg(bool, ShouldNewline)` and
`dbgmsg(const String&, ShouldNewline)`, so the argument is printed as a format string without
arguments.

* `Printer.dbgmsgV_succ` : `dbgmsg_v` takes a turn and goes on after it;
* `Printer.turn_of_ne`, `Printer.turn_of_notMem` : outside the conversions a turn prints one
  character as it is;
* `Printer.turn_of_string`, `Printer.turn_of_stringObject` : the turns at `%s` and at `%sl`.
-/

namespace Eterna

open ByteMemory CStrings Outcome

/-- The arguments of a call that `va_arg` has not taken yet: those of a general purpose register
each, and the numbers in floating point. -/
structure VaList where
  gp : List (BitVec 64)
  fp : List (BitVec 64)
deriving DecidableEq

/-- No arguments. -/
def VaList.none : VaList := ⟨[], []⟩

/-- `va_arg` of an integer or a pointer. -/
def VaList.word : VaList → Except Halt (BitVec 64 × VaList)
  | ⟨[], _⟩ => .error .noArgument
  | ⟨w :: gp, fp⟩ => .ok (w, ⟨gp, fp⟩)

/-- `va_arg` of a `double`. -/
def VaList.double : VaList → Except Halt (BitVec 64 × VaList)
  | ⟨_, []⟩ => .error .noArgument
  | ⟨gp, x :: fp⟩ => .ok (x, ⟨gp, fp⟩)

/-- What a turn of the loop prints, the static buffers after it, and where the next turn starts,
with which arguments; there is none if the function returns. -/
structure Turn where
  text : Text
  buffers : Buffers
  next : Option (ℕ × VaList)

/-- How the kernel is built, and the memory it prints from. -/
structure Printer where
  /-- `UART_HIDE_COLOR_CODES` is defined. -/
  hide : Bool
  view : View

/-- The letters of the conversions. -/
def conversions : Text := ['s', 'h', 'u', 'd', 'i', 'f', 'p', 'x', 'c', 'b'].map chr

namespace Printer

section

variable (P : Printer) (fuel : ℕ) (b : Buffers) (current : ℕ) (args : VaList)

/-- `*p`. -/
def read (p : ℕ) : Except Halt UInt8 := readByte P.view p

/-- A member of eight bytes of the object at `p`. -/
def readWord (p : ℕ) : Except Halt (BitVec 64) :=
  (List.range 8).foldrM (fun i w => do
    let b ← P.read (p + i)
    .ok ((w <<< 8) ||| (BitVec.ofNat 64 b.toNat))) 0#64

/-- `dbgmsg_s`. -/
def dbgmsgS (V : View) (p : ℕ) : Except Halt Text := UART.out P.hide V fuel p

/-- `dbgmsg(bool)`. -/
def dbgmsgBool (value : Bool) : Except Halt Text :=
  P.dbgmsgS fuel (.ofText (if value then trueString P.hide else falseString P.hide)) 0

/-- `dbgmsg(uint64_t)` and `dbgmsg` of the narrower types. -/
def dbgmsgUnsigned {w : ℕ} (b : Buffers) (value : BitVec w) : Except Halt (Text × Buffers) := do
  let buf := toStringUnsigned b.uint value
  let text ← P.dbgmsgS fuel (.ofMemory buf) 0
  .ok (text, { b with uint := buf })

/-- `dbgmsg(int64_t)` and `dbgmsg` of the narrower types. -/
def dbgmsgSigned {w : ℕ} (b : Buffers) (value : BitVec w) : Except Halt (Text × Buffers) := do
  let buf := toStringSigned b.int value
  let text ← P.dbgmsgS fuel (.ofMemory buf) 0
  .ok (text, { b with int := buf })

/-- `dbgmsg(double)`, with two digits after the point. -/
def dbgmsgDouble (b : Buffers) (value : BitVec 64) : Except Halt (Text × Buffers) := do
  let b ← toStringDouble b value 2
  let text ← P.dbgmsgS fuel (.ofMemory b.dbl) 0
  .ok (text, b)

/-- `dbgmsg(const String&)` of the object at `str`. -/
def dbgmsgString (str : ℕ) : Except Halt Text := do
  let buffer ← P.readWord str
  let length ← P.readWord (str + 8)
  UART.outBuffer P.hide P.view fuel buffer.toNat length.toNat

/-- The case `'s'`; `print` is `dbgmsg` of a string. -/
def caseString (print : Buffers → ℕ → Except Halt (Text × Buffers)) : Except Halt Turn := do
  let c ← P.read (current + 2)
  if c ≠ chr 'l' then
    let (p, args) ← args.word
    let (text, b) ← print b p.toNat
    .ok ⟨text, b, some (current + 2, args)⟩
  else
    let (p, args) ← args.word
    let text ← P.dbgmsgString fuel p.toNat
    .ok ⟨text, b, some (current + 3, args)⟩

/-- The case `'h'`. -/
def caseShort : Except Halt Turn := do
  let c ← P.read (current + 2)
  if c = chr 'i' then
    let (n, args) ← args.word
    let (text, b) ← P.dbgmsgSigned fuel b (n.setWidth 16)
    .ok ⟨text, b, some (current + 3, args)⟩
  else if c = chr 'u' then
    let (n, args) ← args.word
    let (text, b) ← P.dbgmsgUnsigned fuel b (n.setWidth 16)
    .ok ⟨text, b, some (current + 3, args)⟩
  else if c = chr 'h' then
    let c ← P.read (current + 3)
    if c = chr 'i' then
      let (n, args) ← args.word
      let (text, b) ← P.dbgmsgSigned fuel b (n.setWidth 8)
      .ok ⟨text, b, some (current + 4, args)⟩
    else if c = chr 'u' then
      let (n, args) ← args.word
      let (text, b) ← P.dbgmsgUnsigned fuel b (n.setWidth 8)
      .ok ⟨text, b, some (current + 4, args)⟩
    else
      -- found `%hh`: nothing
      .ok ⟨[], b, some (current + 3, args)⟩
  else
    -- found `%h`: nothing
    .ok ⟨[], b, some (current + 2, args)⟩

/-- The cases `'u'`, and `'d'` and `'i'`, which differ in how a number is printed. -/
def caseNumber (print : {w : ℕ} → Buffers → BitVec w → Except Halt (Text × Buffers)) :
    Except Halt Turn := do
  let c ← P.read (current + 2)
  if c ≠ chr 'l' then
    let (n, args) ← args.word
    let (text, b) ← print b (n.setWidth 32)
    .ok ⟨text, b, some (current + 2, args)⟩
  else
    let c ← P.read (current + 3)
    if c ≠ chr 'l' then
      let (n, args) ← args.word
      let (text, b) ← print b (n.setWidth 32)
      .ok ⟨text, b, some (current + 3, args)⟩
    else
      let (n, args) ← args.word
      let (text, b) ← print b n
      .ok ⟨text, b, some (current + 4, args)⟩

/-- The case `'f'`. -/
def caseDouble : Except Halt Turn := do
  let (x, args) ← args.double
  let (text, b) ← P.dbgmsgDouble fuel b x
  .ok ⟨text, b, some (current + 2, args)⟩

/-- The cases `'p'` and `'x'`. -/
def caseHex : Except Halt Turn := do
  let zero ← P.dbgmsgS fuel (.ofText (['0', 'x'].map chr)) 0
  let (n, args) ← args.word
  let buf := toHexstring b.hex n
  let text ← P.dbgmsgS fuel (.ofMemory buf) 0
  .ok ⟨zero ++ text, { b with hex := buf }, some (current + 2, args)⟩

/-- The case `'c'`. -/
def caseChar : Except Halt Turn := do
  let (c, args) ← args.word
  .ok ⟨[UInt8.ofNat c.toNat], b, some (current + 2, args)⟩

/-- The case `'b'`. -/
def caseBool : Except Halt Turn := do
  let (n, args) ← args.word
  let text ← P.dbgmsgBool fuel (n.setWidth 32 ≠ 0#32)
  .ok ⟨text, b, some (current + 2, args)⟩

/-- The `switch` on the character after the `%` at `current`. -/
def specifier (print : Buffers → ℕ → Except Halt (Text × Buffers)) : Except Halt Turn := do
  let c ← P.read (current + 1)
  if c = 0 then .ok ⟨[chr '%'], b, none⟩
  else if c = chr 's' then P.caseString fuel b current args print
  else if c = chr 'h' then P.caseShort fuel b current args
  else if c = chr 'u' then P.caseNumber b current args (P.dbgmsgUnsigned fuel)
  else if c = chr 'd' ∨ c = chr 'i' then P.caseNumber b current args (P.dbgmsgSigned fuel)
  else if c = chr 'f' then P.caseDouble fuel b current args
  else if c = chr 'p' ∨ c = chr 'x' then P.caseHex fuel b current args
  else if c = chr 'c' then caseChar b current args
  else if c = chr 'b' then P.caseBool fuel b current args
  else
    -- pass through unchanged
    .ok ⟨[← P.read current], b, some (current + 1, args)⟩

/-- The body of the loop after the color code. -/
def turn (print : Buffers → ℕ → Except Halt (Text × Buffers)) : Except Halt Turn := do
  let c ← P.read current
  if c = chr '%' then P.specifier fuel b current args print
  else .ok ⟨[c], b, some (current + 1, args)⟩

/-- `dbgmsg_v`. -/
def dbgmsgV : ℕ → Buffers → ℕ → VaList → Except Halt (Text × Buffers)
  | 0, _, _, _ => .error .outOfFuel
  | fuel + 1, b, current, args => do
    let c ← P.read current
    if c = 0 then .ok ([], b)
    else
      match ← hideColorCode P.hide P.view fuel current with
      | none => .ok ([], b)
      | some current =>
        let t ← P.turn fuel b current args fun b p => dbgmsgV fuel b p .none
        match t.next with
        | none => .ok (t.text, t.buffers)
        | some (current, args) =>
          let (text, b) ← dbgmsgV fuel t.buffers current args
          .ok (t.text ++ text, b)

/-- `dbgmsg(const char*, ...)`. -/
def dbgmsg (fmt : ℕ) : Except Halt (Text × Buffers) := P.dbgmsgV fuel b fmt args

/-- What follows a turn. -/
def afterTurn (t : Turn) : Except Halt (Text × Buffers) :=
  match t.next with
  | none => .ok (t.text, t.buffers)
  | some (current, args) => do
    let (text, b) ← P.dbgmsgV fuel t.buffers current args
    .ok (t.text ++ text, b)

/-- What follows a color code, if there is one. -/
def afterColorCode : Option ℕ → Except Halt (Text × Buffers)
  | none => .ok ([], b)
  | some current =>
    (P.turn fuel b current args fun b p => P.dbgmsg fuel b .none p).bind (P.afterTurn fuel)

/-- At `current` stands `%s`, and no `l` after it. -/
structure AtString : Prop where
  percent : P.view current = some (chr '%')
  letter : P.view (current + 1) = some (chr 's')
  alone : ∃ c, P.view (current + 2) = some c ∧ c ≠ chr 'l'

/-- At `current` stands `%sl`. -/
structure AtStringObject : Prop where
  percent : P.view current = some (chr '%')
  letter : P.view (current + 1) = some (chr 's')
  long : P.view (current + 2) = some (chr 'l')

end

variable {P : Printer} {fuel current p : ℕ} {b b' : Buffers} {args : VaList} {c : UInt8}
  {s text : Text} {print : Buffers → ℕ → Except Halt (Text × Buffers)} {t : Turn}
  {w : BitVec 64} {gp fp : List (BitVec 64)}

theorem read_eq (h : P.view p = some c) : P.read p = .ok c := readByte_eq h

/-! ### The loop -/

theorem dbgmsgV_zero (h : P.view current = some 0) :
    P.dbgmsgV (fuel + 1) b current args = .ok ([], b) := by
  rw [dbgmsgV, read_eq h]
  rfl

theorem dbgmsgV_cons (h : P.view current = some c) (h0 : c ≠ 0) :
    P.dbgmsgV (fuel + 1) b current args = (hideColorCode P.hide P.view fuel current).bind
      (P.afterColorCode fuel b args) := by
  rw [dbgmsgV, read_eq h]
  refine (if_neg h0).trans ?_
  refine congrArg (Except.bind _) (funext fun r => ?_)
  cases r <;> rfl

theorem dbgmsgV_succ (h : P.view current = some c) (h0 : c ≠ 0) (hc : c ≠ escape) :
    P.dbgmsgV (fuel + 1) b current args =
      (P.turn fuel b current args fun b p => P.dbgmsg fuel b .none p).bind (P.afterTurn fuel) := by
  rw [dbgmsgV_cons h h0, hideColorCode_of_ne h hc]
  rfl

theorem afterTurn_eq_ok (h : t.next = some (current, args)) :
    P.afterTurn fuel t = .ok (text, b') ↔
      ∃ rest, P.dbgmsgV fuel t.buffers current args = .ok (rest, b') ∧ t.text ++ rest = text := by
  rw [afterTurn, h]
  constructor
  · intro heq
    obtain ⟨⟨rest, b₂⟩, hrest, heq⟩ := bind_eq_ok.1 heq
    cases heq
    exact ⟨rest, hrest, rfl⟩
  · rintro ⟨rest, hrest, rfl⟩
    exact bind_eq_ok.2 ⟨(rest, b'), hrest, rfl⟩

/-! ### The turns that take no argument -/

theorem turn_of_ne (h : P.view current = some c) (hc : c ≠ chr '%') :
    P.turn fuel b current args print = .ok ⟨[c], b, some (current + 1, args)⟩ := by
  rw [turn, read_eq h]
  exact if_neg hc

theorem turn_of_percent (h : P.view current = some (chr '%')) :
    P.turn fuel b current args print = P.specifier fuel b current args print := by
  rw [turn, read_eq h]
  rfl

theorem turn_of_zero (h : P.view current = some (chr '%')) (hc : P.view (current + 1) = some 0) :
    P.turn fuel b current args print = .ok ⟨[chr '%'], b, none⟩ := by
  rw [turn_of_percent h, specifier, read_eq hc]
  rfl

theorem turn_of_notMem (h : P.view current = some (chr '%')) (hc : P.view (current + 1) = some c)
    (h0 : c ≠ 0) (hmem : c ∉ conversions) :
    P.turn fuel b current args print = .ok ⟨[chr '%'], b, some (current + 1, args)⟩ := by
  simp only [conversions, List.map_cons, List.map_nil, List.mem_cons, List.not_mem_nil, or_false,
    not_or] at hmem
  obtain ⟨hs, hh, hu, hd, hi, hf, hp, hx, hchar, hb⟩ := hmem
  rw [turn_of_percent h, specifier, read_eq hc, read_eq h]
  simp only [h0, hs, hh, hu, hd, hi, hf, hp, hx, hchar, hb, or_self, if_false, bind, Except.bind]

/-! ### The turns at a string -/

theorem turn_of_string (h : P.AtString current) :
    P.turn fuel b current ⟨w :: gp, fp⟩ print = (print b w.toNat).bind fun r =>
      .ok ⟨r.1, r.2, some (current + 2, ⟨gp, fp⟩)⟩ := by
  obtain ⟨c, hc, hl⟩ := h.alone
  rw [turn_of_percent h.percent, specifier, read_eq h.letter]
  change P.caseString fuel b current _ print = _
  rw [caseString, read_eq hc]
  exact if_pos hl

/-- The turn at `%sl` prints the bytes of the `String`, and takes its pointer only. -/
theorem turn_of_stringObject {buffer : BitVec 64} (h : P.AtStringObject current)
    (hbuffer : P.readWord w.toNat = .ok buffer)
    (hlength : P.readWord (w.toNat + 8) = .ok (BitVec.ofNat 64 s.length))
    (hs : Block P.view buffer.toNat s) (hesc : escape ∉ s) (hlen : s.length < 2 ^ 64)
    (hfuel : s.length < fuel) : P.turn fuel b current ⟨w :: gp, fp⟩ print =
      .ok ⟨s, b, some (current + 3, ⟨gp, fp⟩)⟩ := by
  have hout : P.dbgmsgString fuel w.toNat = .ok s := by
    rw [dbgmsgString, hbuffer, hlength]
    change UART.outBuffer _ _ _ _ (BitVec.ofNat 64 s.length).toNat = _
    rw [BitVec.toNat_ofNat, Nat.mod_eq_of_lt hlen, UART.outBuffer_eq hs hesc hlen hfuel]
  rw [turn_of_percent h.percent, specifier, read_eq h.letter]
  change P.caseString fuel b current _ print = _
  rw [caseString, read_eq h.long]
  change (P.dbgmsgString fuel w.toNat).bind _ = _
  rw [hout]
  rfl

end Printer

end Eterna
