import Eterna.Renderer.Canvas
import Eterna.Serial.ColorCodes
import Eterna.Serial.Numerals

/-!
# Panicking

`panic` of `panic.cc`, and the handlers of the processor exceptions, which call it.  They print to
the serial port and draw on the screen.  After it the handlers halt, but for the one of the stack
segment fault, which returns.  As it takes no error code, its `iretq` takes the error code for the
address to return to.

* `Console` : what they print to;
* `Console.panic`, `Console.panicFrame`, `Console.panicFrameError` : the three overloads;
* `Fault`, `Console.handle` : an exception, and its handler;
* `Console.handleAll` : exceptions one after the other, until a handler halts.
-/

namespace Eterna

open ByteMemory CStrings Numerals

/-- A string literal. -/
def literal (s : String) : Text := s.toUTF8.data.toList

/-- A string and its terminator, as `char`s. -/
def chars (s : Text) : List Int8 := (s ++ [0]).map UInt8.toInt8

/-- `InterruptFrame`. -/
structure InterruptFrame where
  ip : BitVec 64
  cs : BitVec 64
  flags : BitVec 64
  sp : BitVec 64
  ss : BitVec 64

/-- `InterruptFrameError`. -/
structure InterruptFrameError where
  error : BitVec 64
  ip : BitVec 64
  cs : BitVec 64
  flags : BitVec 64
  sp : BitVec 64
  ss : BitVec 64

/-- `{PanicStartX, PanicStartY}`. -/
def panicStart : Vector2 := ⟨400, 500⟩

/-- What `panic` prints to. -/
structure Console where
  /-- `UART::Initialized`. -/
  initialized : Bool
  /-- What has been sent by `UART::out(uint8_t)` of the initialized port. -/
  sent : Text
  /-- `hex_to_string_buf`. -/
  hex : Memory
  /-- The memory of the framebuffers. -/
  memory : Memory
  /-- `gRend`. -/
  renderer : Renderer
  /-- `gRend.Font`. -/
  font : Font
  /-- `PanicLocation`. -/
  panicLocation : Vector2
  /-- The register `MXCSR`. -/
  mxcsr : BitVec 32

namespace Console

/-! ### Printing -/

/-- `UART::out(str)`. -/
def out (hide : Bool) (fuel : ℕ) (str : View) (s : Console) : Except Halt Console :=
  if s.initialized = false then .ok s
  else do
    let text ← UART.out hide str fuel 0
    .ok { s with sent := s.sent ++ text }

/-- `UART::out` of a string. -/
def outText (hide : Bool) (str : Text) (s : Console) : Except Halt Console :=
  s.out hide (str.length + 1) (.ofText str)

/-- `UART::out(to_hexstring(value))`. -/
def outHex (hide : Bool) (value : BitVec 64) (s : Console) : Except Halt Console :=
  let hex := toHexstring s.hex value
  { s with hex := hex }.out hide toStringBufSz (.ofMemory hex)

/-- `gRend.puts(position, str, color)`. -/
def puts (position : Vector2) (str : List Int8) (color : UInt32) (s : Console) :
    Console × Vector2 :=
  let p := Renderer.puts s.memory s.renderer s.font position color str
  ({ s with memory := p.1 }, p.2)

/-- `gRend.puts(position, to_hexstring(value), color)`. -/
def putsHex (position : Vector2) (value : BitVec 64) (color : UInt32) (s : Console) :
    Console × Vector2 :=
  let hex := toHexstring s.hex value
  { s with hex := hex }.puts position ((bytes hex 0 toStringBufSz).map UInt8.toInt8) color

/-- `gRend.puts(PanicLocation, str, color)`. -/
def putsPanic (str : Text) (color : UInt32) (s : Console) : Console :=
  let p := s.puts s.panicLocation (chars str) color
  { p.1 with panicLocation := p.2 }

/-- `gRend.puts(PanicLocation, to_hexstring(value), color)`. -/
def putsHexPanic (value : BitVec 64) (color : UInt32) (s : Console) : Console :=
  let p := s.putsHex s.panicLocation value color
  { p.1 with panicLocation := p.2 }

/-- `gRend.crlf(PanicLocation, PanicStartX)`. -/
def crlf (s : Console) : Console :=
  { s with panicLocation :=
      ⟨panicStart.x, add64 s.panicLocation.y s.font.characterSize.toNat⟩ }

/-- `gRend.swap({PanicStartX, PanicStartY}, size)`. -/
def swap (size : Vector2) (s : Console) : Console :=
  { s with memory := Renderer.swap s.memory s.renderer panicStart size }

/-- `gRend.BackgroundColor = color`. -/
def setBackground (color : UInt32) (s : Console) : Console :=
  { s with renderer := { s.renderer with backgroundColor := color } }

/-! ### The three overloads -/

section

variable (hide : Bool)

/-- `panic(panicMessage)`. -/
def panic (panicMessage : Text) (s : Console) : Except Halt Console := do
  let s ← s.outText hide (literal "\r\n\x1b[1;37;41mEterna PANIC\x1b[0m\r\n")
  let s ← s.outText hide (literal "   ")
  let s ← s.outText hide panicMessage
  let s ← s.outText hide (literal "\r\n")
  let s := s.setBackground 0xffff0000
  let s := s.putsPanic (literal "Eterna PANIC MODE") 0xffffffff
  let s := s.crlf
  let s := s.putsPanic panicMessage 0x00000000
  let s := s.crlf
  .ok (s.swap ⟨80000, 80000⟩)

/-- `panic(frame, panicMessage)`, without an error code. -/
def panicFrame (frame : InterruptFrame) (panicMessage : Text) (s : Console) :
    Except Halt Console := do
  let s ← s.panic hide panicMessage
  let s ← s.outText hide (literal "  Instruction Address: 0x")
  let s ← s.outHex hide frame.ip
  let s ← s.outText hide (literal "\r\n")
  let s ← s.outText hide (literal "  Stack Pointer: 0x")
  let s ← s.outHex hide frame.sp
  let s ← s.outText hide (literal "\r\n")
  let s := s.putsPanic (literal "Instruction Address: 0x") 0x00000000
  let s := s.putsHexPanic frame.ip 0x00000000
  let s := s.crlf
  let s := s.putsPanic (literal "Stack Pointer: 0x") 0x00000000
  let s := s.putsHexPanic frame.sp 0x00000000
  let s := s.crlf
  .ok (s.swap ⟨80000, 80000⟩)

/-- `panic(frame, panicMessage)`, with an error code. -/
def panicFrameError (frame : InterruptFrameError) (panicMessage : Text) (s : Console) :
    Except Halt Console := do
  let s ← s.panic hide panicMessage
  let s ← s.outText hide (literal "  Error Code: 0x")
  let s ← s.outHex hide frame.error
  let s ← s.outText hide (literal "\r\n  Instruction Address: 0x")
  let s ← s.outHex hide frame.ip
  let s ← s.outText hide (literal "\r\n")
  let s ← s.outText hide (literal "  Stack Pointer: 0x")
  let s ← s.outHex hide frame.sp
  let s ← s.outText hide (literal "\r\n")
  let s := s.putsPanic (literal "Error Code: 0x") 0x00000000
  let s := s.putsHexPanic frame.error 0x00000000
  let s := s.crlf
  let s := s.putsPanic (literal "Instruction Address: 0x") 0x00000000
  let s := s.putsHexPanic frame.ip 0x00000000
  let s := s.crlf
  let s := s.putsPanic (literal "Stack Pointer: 0x") 0x00000000
  let s := s.putsHexPanic frame.sp 0x00000000
  let s := s.crlf
  .ok (s.swap ⟨80000, 80000⟩)

end

end Console

/-! ### Messages -/

/-- `SIMD fault detected`, and why. -/
inductive SimdCause where
  | invalidOperation
  | denormal
  | divideByZero
  | overflow
  | underflow
  | precision
  | denormalsAreZero
  | unknown
deriving DecidableEq

/-- The message of a handler, with what decides it. -/
inductive Message where
  | divideByZero
  | pageFault (user write present : Bool)
  | doubleFault
  | stackSegment (selector : Bool)
  | generalProtection (selector : Bool)
  | simd (cause : SimdCause)
deriving DecidableEq

/-- The texts of the handlers. -/
def Message.text : Message → Text
  | divideByZero => literal "Divide by zero detected!"
  | pageFault true true false =>
    literal "#PF: User process attempted to write to a page that is not present"
  | pageFault true true true =>
    literal "#PF: User process attempted to write to a page and caused a protection fault"
  | pageFault true false false =>
    literal "#PF: User process attempted to read from a page that is not present"
  | pageFault true false true =>
    literal "#PF: User process attempted to read from a page and caused a protection fault"
  | pageFault false true false =>
    literal "#PF: Supervisor process attempted to write to a page that is not present"
  | pageFault false true true =>
    literal "#PF: Supervisor process attempted to write to a page and caused a protection fault"
  | pageFault false false false =>
    literal "#PF: Supervisor process attempted to read from a page that is not present"
  | pageFault false false true =>
    literal "#PF: Supervisor process attempted to read from a page and caused a protection fault"
  | doubleFault => literal "Double fault detected!"
  | stackSegment false => literal "Stack segment fault detected (0)"
  | stackSegment true => literal "Stack segment fault detected (selector)!"
  | generalProtection false => literal "General protection fault detected (0)!"
  | generalProtection true => literal "General protection fault detected (selector)!"
  | simd .invalidOperation => literal "SIMD fault detected (Invalid Operation)!"
  | simd .denormal => literal "SIMD fault detected (Denormal)!"
  | simd .divideByZero => literal "SIMD fault detected (Divide by Zero)!"
  | simd .overflow => literal "SIMD fault detected (Overflow)!"
  | simd .underflow => literal "SIMD fault detected (Underflow)!"
  | simd .precision => literal "SIMD fault detected (Precision)!"
  | simd .denormalsAreZero => literal "SIMD fault detected (Denormals are Zero)!"
  | simd .unknown => literal "Unknown SIMD fault"

/-! ### Handlers -/

/-- `PageFaultErrorCode`, by the number of the bit. -/
inductive PageFaultErrorCode where
  | present
  | readWrite
  | userSuper
  | reserved
  | instructionFetch
  | protectionKeyViolation
  | shadowStackAccess
  | hypervisorManagedLinearAddressTranslation
  | softwareGaurdExtensions

/-- The value of an enumerator. -/
def PageFaultErrorCode.value : PageFaultErrorCode → BitVec 64
  | present => 1 <<< 0
  | readWrite => 1 <<< 1
  | userSuper => 1 <<< 2
  | reserved => 1 <<< 3
  | instructionFetch => 1 <<< 4
  | protectionKeyViolation => 1 <<< 5
  | shadowStackAccess => 1 <<< 6
  | hypervisorManagedLinearAddressTranslation => 1 <<< 7
  | softwareGaurdExtensions => 1 <<< 15

namespace Console

section

variable (hide : Bool)

/-- `divide_by_zero_handler`, up to its end. -/
def divideByZeroHandler (frame : InterruptFrame) (s : Console) : Except Halt Console :=
  s.panicFrame hide frame Message.divideByZero.text

/-- `if (frame->error & code) UART::out(str)`. -/
def outFlag (error : BitVec 64) (code : PageFaultErrorCode) (str : Text) (s : Console) :
    Except Halt Console :=
  if 0 < error &&& code.value then s.outText hide str else .ok s

/-- The end of `page_fault_handler`. -/
def drawFaultyAddress (address : BitVec 64) (s : Console) : Console :=
  let drawPosition := panicStart
  let p := s.puts drawPosition (chars (literal "Faulty Address: 0x")) 0x00000000
  let p := p.1.putsHex p.2 address 0x00000000
  p.1.swap ⟨1024, 128⟩

/-- `page_fault_handler`, for the address in `CR2`, up to its end. -/
def pageFaultHandler (cr2 : BitVec 64) (frame : InterruptFrameError) (s : Console) :
    Except Halt Console := do
  let address := cr2
  let notPresent := decide (frame.error &&& PageFaultErrorCode.present.value = 0)
  let user := decide (0 < frame.error &&& PageFaultErrorCode.userSuper.value)
  let write := decide (0 < frame.error &&& PageFaultErrorCode.readWrite.value)
  let s ← s.panicFrameError hide frame (Message.pageFault user write !notPresent).text
  let s ← s.outFlag hide frame.error .instructionFetch (literal "  Instruction fetch\r\n")
  let s ← s.outFlag hide frame.error .shadowStackAccess (literal "  Shadow stack access\r\n")
  let s ← s.outFlag hide frame.error .hypervisorManagedLinearAddressTranslation
    (literal "  Hypvervisor-managed linear address translation\r\n")
  let s ← s.outFlag hide frame.error .softwareGaurdExtensions
    (literal "  Software gaurd extensions\r\n")
  let s ← s.outText hide (literal "  Faulty Address: 0x")
  let s ← s.outHex hide address
  let s ← s.outText hide (literal "\r\n")
  .ok (s.drawFaultyAddress address)

/-- `double_fault_handler`, up to its end. -/
def doubleFaultHandler (frame : InterruptFrameError) (s : Console) : Except Halt Console :=
  s.panicFrameError hide frame Message.doubleFault.text

/-- The first bit of the error code of a selector. -/
def outExternal (error : BitVec 64) (s : Console) : Except Halt Console :=
  if error &&& 0b1 ≠ 0 then s.outText hide (literal "  External\r\n") else .ok s

/-- The table that a selector is for. -/
def outTable (table : BitVec 8) (s : Console) : Except Halt Console :=
  if table = 0b00 then s.outText hide (literal "  GDT")
  else if table = 0b01 ∨ table = 0b11 then s.outText hide (literal "  IDT")
  else if table = 0b10 then s.outText hide (literal "  LDT")
  else .ok s

/-- What `stack_segment_fault_handler` and `general_protection_fault_handler` share: they differ in
the messages, for an error code that is zero and for another one. -/
def selectorHandler (zero selector : Message) (frame : InterruptFrameError) (s : Console) :
    Except Halt Console := do
  let message := if frame.error = 0 then zero else selector
  let s ← s.panicFrameError hide frame message.text
  let s ← s.outExternal hide frame.error
  let table := ((frame.error &&& 0b110) >>> 1).setWidth 8
  let s ← s.outTable hide table
  let s ← s.outText hide (literal " Selector Index: ")
  let s ← s.outHex hide ((frame.error &&& 0b1111111111111000) >>> 3)
  s.outText hide (literal "\r\n")

/-- `stack_segment_fault_handler`. -/
def stackSegmentFaultHandler (frame : InterruptFrameError) (s : Console) : Except Halt Console :=
  s.selectorHandler hide (.stackSegment false) (.stackSegment true) frame

/-- `general_protection_fault_handler`, up to its end. -/
def generalProtectionFaultHandler (frame : InterruptFrameError) (s : Console) :
    Except Halt Console :=
  s.selectorHandler hide (.generalProtection false) (.generalProtection true) frame

/-- The causes that `simd_exception_handler` tells apart, by the flags of `MXCSR`. -/
def simdCause (mxcsr : BitVec 32) : SimdCause :=
  if mxcsr &&& 0b00000001 ≠ 0 then .invalidOperation
  else if mxcsr &&& 0b00000010 ≠ 0 then .denormal
  else if mxcsr &&& 0b00000100 ≠ 0 then .divideByZero
  else if mxcsr &&& 0b00001000 ≠ 0 then .overflow
  else if mxcsr &&& 0b00010000 ≠ 0 then .underflow
  else if mxcsr &&& 0b00100000 ≠ 0 then .precision
  else if mxcsr &&& 0b01000000 ≠ 0 then .denormalsAreZero
  else .unknown

/-- `simd_exception_handler`, up to its end. -/
def simdExceptionHandler (frame : InterruptFrame) (s : Console) : Except Halt Console :=
  let mxcsr : BitVec 32 := 0
  -- `ldmxcsr` loads the register from the variable
  let s := { s with mxcsr := mxcsr }
  s.panicFrame hide frame (Message.simd (simdCause mxcsr)).text

end

end Console

/-- An exception, with what the processor passes to its handler, and the flags it has set in
`MXCSR`. -/
inductive Fault where
  | divideByZero (frame : InterruptFrame)
  | pageFault (cr2 : BitVec 64) (frame : InterruptFrameError)
  | doubleFault (frame : InterruptFrameError)
  | stackSegment (frame : InterruptFrameError)
  | generalProtection (frame : InterruptFrameError)
  | simd (mxcsr : BitVec 32) (frame : InterruptFrame)

/-- How a handler ends. -/
inductive Ending where
  /-- `while (true) asm("hlt")`. -/
  | halts
  /-- It returns to this frame. -/
  | returns (frame : InterruptFrame)

/-- The frame that `iretq` takes from the stack where the error code is still on it. -/
def InterruptFrameError.returned (frame : InterruptFrameError) : InterruptFrame :=
  ⟨frame.error, frame.ip, frame.cs, frame.flags, frame.sp⟩

/-- How the handler of an exception ends. -/
def Fault.ending : Fault → Ending
  | .stackSegment frame => .returns frame.returned
  | _ => .halts

namespace Console

/-- The handler of an exception, up to its end. -/
def report (hide : Bool) : Fault → Console → Except Halt Console
  | .divideByZero frame => divideByZeroHandler hide frame
  | .pageFault cr2 frame => pageFaultHandler hide cr2 frame
  | .doubleFault frame => doubleFaultHandler hide frame
  | .stackSegment frame => stackSegmentFaultHandler hide frame
  | .generalProtection frame => generalProtectionFaultHandler hide frame
  | .simd mxcsr frame => fun s => simdExceptionHandler hide frame { s with mxcsr := mxcsr }

/-- The handler of an exception. -/
def handle (hide : Bool) (fault : Fault) (s : Console) : Except Halt (Console × Ending) := do
  let s ← s.report hide fault
  .ok (s, fault.ending)

/-- The handlers of some exceptions, one after the other until one of them halts.  The flag says
that one has. -/
def handleAll (hide : Bool) : List Fault → Console → Except Halt (Console × Bool)
  | [], s => .ok (s, false)
  | fault :: faults, s => do
    match ← s.handle hide fault with
    | (s, .halts) => .ok (s, true)
    | (s, .returns _) => handleAll hide faults s

end Console

/-! ### What they print and draw -/

/-- What is reported of a frame, line by line. -/
def InterruptFrame.lines (frame : InterruptFrame) : List (Text × BitVec 64) :=
  [(literal "Instruction Address: 0x", frame.ip), (literal "Stack Pointer: 0x", frame.sp)]

/-- With an error code. -/
def InterruptFrameError.lines (frame : InterruptFrameError) : List (Text × BitVec 64) :=
  [(literal "Error Code: 0x", frame.error), (literal "Instruction Address: 0x", frame.ip),
    (literal "Stack Pointer: 0x", frame.sp)]

/-- What `panic` draws on. -/
structure Panel where
  memory : Memory
  renderer : Renderer
  font : Font
  panicLocation : Vector2

namespace Panel

/-- A string at the panic location. -/
def type (str : List Int8) (color : UInt32) (p : Panel) : Panel :=
  let q := Renderer.puts p.memory p.renderer p.font p.panicLocation color str
  { p with memory := q.1, panicLocation := q.2 }

/-- The next line. -/
def crlf (p : Panel) : Panel :=
  { p with panicLocation := ⟨panicStart.x, add64 p.panicLocation.y p.font.characterSize.toNat⟩ }

/-- A part of the target goes to the screen. -/
def swap (size : Vector2) (p : Panel) : Panel :=
  { p with memory := Renderer.swap p.memory p.renderer panicStart size }

/-- The background of what is drawn from now on. -/
def setBackground (color : UInt32) (p : Panel) : Panel :=
  { p with renderer := { p.renderer with backgroundColor := color } }

/-- Lines of a text and a numeral each. -/
def typeLines (lines : List (Text × BitVec 64)) (p : Panel) : Panel :=
  lines.foldl (fun p line => crlf (type (chars (hexadecimal 16 line.2.toNat)) 0
    (type (chars line.1) 0 p))) p

/-- What `panic` draws. -/
def panic (panicMessage : Text) (p : Panel) : Panel :=
  swap ⟨80000, 80000⟩ <| crlf <| type (chars panicMessage) 0x00000000 <| crlf <|
    type (chars (literal "Eterna PANIC MODE")) 0xffffffff <| setBackground 0xffff0000 p

/-- What `panic` draws with a frame. -/
def report (panicMessage : Text) (lines : List (Text × BitVec 64)) (p : Panel) : Panel :=
  swap ⟨80000, 80000⟩ (typeLines lines (panic panicMessage p))

/-- A string at some other position. -/
def puts (position : Vector2) (str : List Int8) (color : UInt32) (p : Panel) : Panel × Vector2 :=
  let q := Renderer.puts p.memory p.renderer p.font position color str
  ({ p with memory := q.1 }, q.2)

/-- What `page_fault_handler` draws after it. -/
def faultyAddress (address : BitVec 64) (p : Panel) : Panel :=
  let q := p.puts panicStart (chars (literal "Faulty Address: 0x")) 0x00000000
  let q := q.1.puts q.2 (chars (hexadecimal 16 address.toNat)) 0x00000000
  q.1.swap ⟨1024, 128⟩

end Panel

namespace Console

/-- What `panic` draws on. -/
def panel (s : Console) : Panel := ⟨s.memory, s.renderer, s.font, s.panicLocation⟩

/-- The step ends, prints `t` if there is a port, and does `d` to the panel. -/
def Performs (t : Text) (d : Panel → Panel) (f : Console → Except Halt Console) : Prop :=
  ∀ s, ∃ s', f s = .ok s' ∧ s'.initialized = s.initialized ∧
    s'.sent = s.sent ++ (if s.initialized then t else []) ∧ s'.panel = d s.panel

variable {hide : Bool} {t u : Text} {d e : Panel → Panel} {f g : Console → Except Halt Console}
  {p : Console → Console} {str : Text} {s : Console}

theorem Performs.bind (hf : Performs t d f) (hg : Performs u e g) :
    Performs (t ++ u) (fun p => e (d p)) fun s => f s >>= g := by
  intro s
  obtain ⟨s₁, hs₁, hport₁, hsent₁, hpanel₁⟩ := hf s
  obtain ⟨s₂, hs₂, hport₂, hsent₂, hpanel₂⟩ := hg s₁
  refine ⟨s₂, ?_, hport₂.trans hport₁, ?_, ?_⟩
  · dsimp only
    rw [hs₁]
    exact hs₂
  · rw [hsent₂, hsent₁, hport₁, List.append_assoc]
    split <;> rfl
  · rw [hpanel₂, hpanel₁]

theorem performs_ok (h : ∀ s, (p s).initialized = s.initialized ∧ (p s).sent = s.sent ∧
    (p s).panel = d s.panel) : Performs [] d fun s => .ok (p s) := by
  intro s
  obtain ⟨hport, hsent, hpanel⟩ := h s
  refine ⟨p s, rfl, hport, ?_, hpanel⟩
  rw [hsent, ite_self, List.append_nil]

theorem Performs.of_eq {t' : Text} {d' : Panel → Panel} (h : Performs t d f) (ht : t = t')
    (hd : d = d') : Performs t' d' f := by
  rwa [← ht, ← hd]

theorem performs_skip : Performs [] id fun s => .ok s := performs_ok fun _ => ⟨rfl, rfl, rfl⟩

theorem Performs.ite {c : Prop} [Decidable c] (hf : Performs t d f) (hg : Performs u d g) :
    Performs (if c then t else u) d fun s => if c then f s else g s := by
  intro s
  by_cases hc : c
  · simp only [if_pos hc]
    exact hf s
  · simp only [if_neg hc]
    exact hg s

theorem performs_out {str : View} {fuel : ℕ} (h : UART.out hide str fuel 0 = .ok t) :
    Performs t id (out hide fuel str) := by
  intro s
  rw [out]
  split
  next hport => exact ⟨s, rfl, rfl, by rw [hport]; simp, rfl⟩
  next hport =>
    rw [Bool.not_eq_false] at hport
    rw [h, if_pos hport]
    exact ⟨_, rfl, rfl, rfl, rfl⟩

theorem performs_outText (h0 : 0 ∉ str) : Performs (shown hide str) id (outText hide str) :=
  performs_out (UART.out_eq_shown (.ofText h0) (Nat.lt_succ_self _))

/-- The string has no terminator and no color code in it. -/
def Plain (s : Text) : Prop := 0 ∉ s ∧ escape ∉ s

instance : Decidable (Plain str) := inferInstanceAs (Decidable (_ ∧ _))

theorem performs_plain (h : Plain str) : Performs str id (outText hide str) := by
  have hsent := @performs_outText hide str h.1
  rwa [shown_eq fun _ => h.2] at hsent

theorem performs_outHex (value : BitVec 64) :
    Performs (hexadecimal 16 value.toNat) id (outHex hide value) := by
  intro s
  have hbuf := @toHexstring_text s.hex value
  have hesc : escape ∉ hexadecimal 16 value.toNat := notMem_hexadecimal (by decide)
  have hlen : (hexadecimal 16 value.toNat).length < toStringBufSz := by
    rw [length_hexadecimal]
    decide
  have hout : UART.out hide (.ofMemory (toHexstring s.hex value)) toStringBufSz 0 = .ok _ :=
    UART.out_eq hbuf hesc hlen
  exact performs_out hout { s with hex := toHexstring s.hex value }

/-- The bytes of `hex_to_string_buf` behind the terminator are not drawn. -/
theorem puts_hexbuf {m : Memory} {r : Renderer} {font : Font} {position : Vector2} {color : UInt32}
    {value : BitVec 64} {buf : Memory} :
    Renderer.puts m r font position color
        ((bytes (toHexstring buf value) 0 toStringBufSz).map UInt8.toInt8) =
      Renderer.puts m r font position color (chars (hexadecimal 16 value.toNat)) := by
  have hlen : (hexadecimal 16 value.toNat).length < toStringBufSz := by
    rw [length_hexadecimal]
    decide
  obtain ⟨rest, hrest⟩ := (@toHexstring_text buf value).bytes_eq hlen
  rw [hrest, chars, List.map_append, List.map_append]
  exact Renderer.puts_append_zero

/-! One step that draws is one step on the panel, and leaves the port alone. -/

variable {value : BitVec 64} {color : UInt32} {size : Vector2}

@[simp] theorem panel_putsPanic :
    (s.putsPanic str color).panel = s.panel.type (chars str) color := rfl

@[simp] theorem panel_putsHexPanic :
    (s.putsHexPanic value color).panel =
      s.panel.type (chars (hexadecimal 16 value.toNat)) color := by
  rw [putsHexPanic, putsHex, puts, panel, panel, Panel.type]
  dsimp only
  rw [puts_hexbuf]

@[simp] theorem panel_crlf : s.crlf.panel = s.panel.crlf := rfl

@[simp] theorem panel_swap : (s.swap size).panel = s.panel.swap size := rfl

@[simp] theorem panel_puts {position : Vector2} {str : List Int8} :
    (s.puts position str color).1.panel = (s.panel.puts position str color).1 := rfl

@[simp] theorem snd_puts {position : Vector2} {str : List Int8} :
    (s.puts position str color).2 = (s.panel.puts position str color).2 := rfl

@[simp] theorem panel_putsHex {position : Vector2} : (s.putsHex position value color).1.panel =
    (s.panel.puts position (chars (hexadecimal 16 value.toNat)) color).1 := by
  rw [putsHex, puts, panel, panel, Panel.puts]
  dsimp only
  rw [puts_hexbuf]

theorem panel_drawFaultyAddress :
    (s.drawFaultyAddress value).panel = s.panel.faultyAddress value := by
  rw [drawFaultyAddress, Panel.faultyAddress]
  simp only [panel_swap, panel_putsHex, panel_puts, snd_puts]

@[simp] theorem panel_setBackground :
    (s.setBackground color).panel = s.panel.setBackground color := rfl

/-- Neither the port nor what it has sent changes. -/
def Silent (p : Console → Console) : Prop :=
  ∀ s, (p s).initialized = s.initialized ∧ (p s).sent = s.sent

theorem silent_id : Silent id := fun _ => ⟨rfl, rfl⟩

theorem Silent.putsPanic (h : Silent p) : Silent fun s => (p s).putsPanic str color := h

theorem Silent.putsHexPanic (h : Silent p) : Silent fun s => (p s).putsHexPanic value color := h

theorem Silent.crlf (h : Silent p) : Silent fun s => (p s).crlf := h

theorem Silent.swap (h : Silent p) : Silent fun s => (p s).swap size := h

theorem Silent.setBackground (h : Silent p) : Silent fun s => (p s).setBackground color := h

theorem Silent.puts {position : Console → Vector2} {str : List Int8} (h : Silent p) :
    Silent fun s => ((p s).puts (position s) str color).1 := h

theorem Silent.putsHex {position : Console → Vector2} (h : Silent p) :
    Silent fun s => ((p s).putsHex (position s) value color).1 := h

theorem Silent.drawFaultyAddress (h : Silent p) : Silent fun s => (p s).drawFaultyAddress value :=
  h.puts.putsHex.swap

theorem Silent.performs (h : Silent p) (hpanel : ∀ s, (p s).panel = d s.panel) :
    Performs [] d fun s => .ok (p s) :=
  performs_ok fun s => ⟨(h s).1, (h s).2, hpanel s⟩

/-! ### The three overloads -/

/-- What `panic` prints. -/
def panicText (hide : Bool) (panicMessage : Text) : Text :=
  shown hide (literal "\r\n\x1b[1;37;41mEterna PANIC\x1b[0m\r\n") ++ literal "   " ++
    panicMessage ++ literal "\r\n"

/-- Lines of a text and a numeral each, as the serial port shows them. -/
def linesText (lines : List (Text × BitVec 64)) : Text :=
  lines.flatMap fun line => literal "  " ++ line.1 ++ hexadecimal 16 line.2.toNat ++ literal "\r\n"

theorem performs_panic (h : Plain str) :
    Performs (panicText hide str) (Panel.panic str) (panic hide str) := by
  have hlast : Performs [] (Panel.panic str) fun s =>
      .ok ((((((s.setBackground 0xffff0000).putsPanic
      (literal "Eterna PANIC MODE") 0xffffffff).crlf).putsPanic str 0x00000000).crlf).swap
      ⟨80000, 80000⟩) :=
    silent_id.setBackground.putsPanic.crlf.putsPanic.crlf.swap.performs fun s => by
      simp only [panel_swap, panel_crlf, panel_putsPanic, panel_setBackground, id]
      rfl
  refine Performs.of_eq ((performs_outText ?_).bind <| (performs_plain ?_).bind <|
    (performs_plain h).bind <| (performs_plain ?_).bind hlast) ?_ rfl
  · decide
  · decide
  · decide
  · simp only [panicText, List.append_assoc, List.append_nil]

/-! The port indents the texts of the lines. -/

theorem literal_error : literal "  " ++ literal "Error Code: 0x" = literal "  Error Code: 0x" := by
  decide

theorem literal_instruction : literal "  " ++ literal "Instruction Address: 0x" =
    literal "  Instruction Address: 0x" := by
  decide

theorem literal_instruction_line : literal "\r\n" ++ literal "  Instruction Address: 0x" =
    literal "\r\n  Instruction Address: 0x" := by
  decide

theorem literal_stack : literal "  " ++ literal "Stack Pointer: 0x" =
    literal "  Stack Pointer: 0x" := by
  decide

theorem performs_panicFrame (h : Plain str) (frame : InterruptFrame) :
    Performs (panicText hide str ++ linesText frame.lines) (Panel.report str frame.lines)
      (panicFrame hide frame str) := by
  have hlast : Performs [] (fun p => (p.typeLines frame.lines).swap ⟨80000, 80000⟩) fun s =>
      .ok (((((((s.putsPanic (literal "Instruction Address: 0x") 0x00000000).putsHexPanic frame.ip
        0x00000000).crlf).putsPanic (literal "Stack Pointer: 0x") 0x00000000).putsHexPanic frame.sp
        0x00000000).crlf).swap ⟨80000, 80000⟩) :=
    silent_id.putsPanic.putsHexPanic.crlf.putsPanic.putsHexPanic.crlf.swap.performs fun s => by
      simp only [panel_swap, panel_crlf, panel_putsPanic, panel_putsHexPanic, id]
      rfl
  refine Performs.of_eq ((performs_panic h).bind <| (performs_plain ?_).bind <|
    (performs_outHex _).bind <| (performs_plain ?_).bind <| (performs_plain ?_).bind <|
    (performs_outHex _).bind <| (performs_plain ?_).bind hlast) ?_ rfl
  · decide
  · decide
  · decide
  · decide
  · rw [← literal_instruction, ← literal_stack]
    simp only [linesText, InterruptFrame.lines, List.flatMap_cons, List.flatMap_nil,
      List.append_assoc, List.append_nil]

theorem performs_panicFrameError (h : Plain str) (frame : InterruptFrameError) :
    Performs (panicText hide str ++ linesText frame.lines) (Panel.report str frame.lines)
      (panicFrameError hide frame str) := by
  have hlast : Performs [] (fun p => (p.typeLines frame.lines).swap ⟨80000, 80000⟩) fun s =>
      .ok ((((((((((s.putsPanic (literal "Error Code: 0x") 0x00000000).putsHexPanic frame.error
        0x00000000).crlf).putsPanic (literal "Instruction Address: 0x") 0x00000000).putsHexPanic
        frame.ip 0x00000000).crlf).putsPanic (literal "Stack Pointer: 0x") 0x00000000).putsHexPanic
        frame.sp 0x00000000).crlf).swap ⟨80000, 80000⟩) :=
    silent_id.putsPanic.putsHexPanic.crlf.putsPanic.putsHexPanic.crlf.putsPanic.putsHexPanic.crlf
      |>.swap.performs fun s => by
      simp only [panel_swap, panel_crlf, panel_putsPanic, panel_putsHexPanic, id]
      rfl
  refine Performs.of_eq ((performs_panic h).bind <| (performs_plain ?_).bind <|
    (performs_outHex _).bind <| (performs_plain ?_).bind <|
    (performs_outHex _).bind <| (performs_plain ?_).bind <| (performs_plain ?_).bind <|
    (performs_outHex _).bind <| (performs_plain ?_).bind hlast) ?_ rfl
  · decide
  · decide
  · decide
  · decide
  · decide
  · rw [← literal_instruction_line, ← literal_instruction, ← literal_stack, ← literal_error]
    simp only [linesText, InterruptFrameError.lines, List.flatMap_cons, List.flatMap_nil,
      List.append_assoc, List.append_nil]

/-! ### The handlers -/

theorem plain_text (message : Message) : Plain message.text := by
  cases message with
  | divideByZero => decide
  | pageFault user write present => revert user write present; decide
  | doubleFault => decide
  | stackSegment selector => revert selector; decide
  | generalProtection selector => revert selector; decide
  | simd cause => cases cause <;> decide

theorem performs_outFlag {error : BitVec 64} {code : PageFaultErrorCode} (h : Plain str) :
    Performs (if 0 < error &&& code.value then str else []) id (outFlag hide error code str) :=
  (performs_plain h).ite performs_skip

theorem performs_divideByZeroHandler (frame : InterruptFrame) :
    Performs (panicText hide Message.divideByZero.text ++ linesText frame.lines)
      (Panel.report Message.divideByZero.text frame.lines) (divideByZeroHandler hide frame) :=
  performs_panicFrame (plain_text _) frame

theorem performs_doubleFaultHandler (frame : InterruptFrameError) :
    Performs (panicText hide Message.doubleFault.text ++ linesText frame.lines)
      (Panel.report Message.doubleFault.text frame.lines) (doubleFaultHandler hide frame) :=
  performs_panicFrameError (plain_text _) frame

theorem performs_simdExceptionHandler (frame : InterruptFrame) :
    Performs (panicText hide (Message.simd .unknown).text ++ linesText frame.lines)
      (Panel.report (Message.simd .unknown).text frame.lines) (simdExceptionHandler hide frame) :=
  fun s => performs_panicFrame (plain_text _) frame { s with mxcsr := 0 }

/-- The message of a page fault. -/
def pageFaultMessage (error : BitVec 64) : Message :=
  .pageFault (decide (0 < error &&& PageFaultErrorCode.userSuper.value))
    (decide (0 < error &&& PageFaultErrorCode.readWrite.value))
    !decide (error &&& PageFaultErrorCode.present.value = 0)

/-- What is printed of the error code and the address of a page fault. -/
def pageFaultText (error address : BitVec 64) : Text :=
  (if 0 < error &&& PageFaultErrorCode.instructionFetch.value then
    literal "  Instruction fetch\r\n" else []) ++
  ((if 0 < error &&& PageFaultErrorCode.shadowStackAccess.value then
    literal "  Shadow stack access\r\n" else []) ++
  ((if 0 < error &&& PageFaultErrorCode.hypervisorManagedLinearAddressTranslation.value then
    literal "  Hypvervisor-managed linear address translation\r\n" else []) ++
  ((if 0 < error &&& PageFaultErrorCode.softwareGaurdExtensions.value then
    literal "  Software gaurd extensions\r\n" else []) ++
  (literal "  Faulty Address: 0x" ++ (hexadecimal 16 address.toNat ++ literal "\r\n")))))

theorem performs_pageFaultHandler (cr2 : BitVec 64) (frame : InterruptFrameError) :
    Performs (panicText hide (pageFaultMessage frame.error).text ++ linesText frame.lines ++
        pageFaultText frame.error cr2)
      (fun p => ((p.report (pageFaultMessage frame.error).text frame.lines).faultyAddress cr2))
      (pageFaultHandler hide cr2 frame) := by
  have hlast : Performs [] (Panel.faultyAddress cr2) fun s => .ok (s.drawFaultyAddress cr2) :=
    silent_id.drawFaultyAddress.performs fun _ => panel_drawFaultyAddress
  refine Performs.of_eq ((performs_panicFrameError (plain_text _) frame).bind <|
    (performs_outFlag ?_).bind <| (performs_outFlag ?_).bind <| (performs_outFlag ?_).bind <|
    (performs_outFlag ?_).bind <| (performs_plain ?_).bind <| (performs_outHex _).bind <|
    (performs_plain ?_).bind hlast) ?_ rfl
  · decide
  · decide
  · decide
  · decide
  · decide
  · decide
  · simp only [pageFaultText, pageFaultMessage, List.append_assoc, List.append_nil]

/-- What is printed for the table of a selector. -/
def tableText (table : BitVec 8) : Text :=
  if table = 0b00 then literal "  GDT"
  else if table = 0b01 ∨ table = 0b11 then literal "  IDT"
  else if table = 0b10 then literal "  LDT"
  else []

theorem performs_outTable {table : BitVec 8} :
    Performs (tableText table) id (outTable hide table) :=
  (performs_plain (by decide)).ite <| (performs_plain (by decide)).ite <|
    (performs_plain (by decide)).ite performs_skip

/-- What is printed of the error code of a selector. -/
def selectorText (error : BitVec 64) : Text :=
  (if error &&& 0b1 ≠ 0 then literal "  External\r\n" else []) ++
  (tableText (((error &&& 0b110) >>> 1).setWidth 8) ++
  (literal " Selector Index: " ++
    (hexadecimal 16 ((error &&& 0b1111111111111000) >>> 3).toNat ++ literal "\r\n")))

theorem performs_selectorHandler (zero selector : Message) (frame : InterruptFrameError) :
    Performs (panicText hide (if frame.error = 0 then zero else selector).text ++
        linesText frame.lines ++ selectorText frame.error)
      (Panel.report (if frame.error = 0 then zero else selector).text frame.lines)
      (selectorHandler hide zero selector frame) := by
  have hexternal : Performs (if frame.error &&& 0b1 ≠ 0 then literal "  External\r\n" else []) id
      (outExternal hide frame.error) := (performs_plain (by decide)).ite performs_skip
  refine Performs.of_eq ((performs_panicFrameError (plain_text _) frame).bind <| hexternal.bind <|
    performs_outTable.bind <| (performs_plain ?_).bind <| (performs_outHex _).bind <|
    performs_plain ?_) ?_ rfl
  · decide
  · decide
  · simp only [selectorText, List.append_assoc]

end Console

end Eterna
