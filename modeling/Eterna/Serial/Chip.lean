import Eterna.Serial.Port

/-!
# The driver and its chip

`initialize`, `read` and `out(uint8_t)` of `uart.cc`, on a model of the chip at COM1 with the
registers that `uart.hpp` describes.  The world outside is given by what it does before each access
to a port: a byte may arrive from the line, and the transmitter may run empty.

* `Registers`, `Queues`, `Line` : the chip, and the world outside;
* `SerialPort.out8`, `SerialPort.in8` : an access of the driver to the chip;
* `Flushes` : what the chip may have sent when the driver has given it nothing to send;
* `SerialPort.initializePort_spec` : when `initialize` succeeds, and what it makes of the chip.
-/

namespace Eterna

open CStrings

/-! ### The chip -/

/-- `Chip`. -/
inductive Chip where
  | none
  | chip8250
  | chip16450
  | chip16550
  | chip16550A
  | chip16750
  deriving DecidableEq

/-- `value & mask`, as a condition. -/
def hasBits (value mask : UInt8) : Bool := decide (value &&& mask ≠ 0)

/-- The registers of the chip at COM1. -/
structure Registers where
  /-- What the chip is. -/
  kind : Chip
  /-- `INTERRUPT_PORT`. -/
  interruptEnable : UInt8
  /-- `DIVL_PORT`. -/
  divisorLow : UInt8
  /-- `DIVH_PORT`. -/
  divisorHigh : UInt8
  /-- `LINE_CONTROL_PORT`, whose highest bit selects the divisor. -/
  lineControl : UInt8
  /-- `MODEM_CONTROL_PORT`, whose bit 4 is the loop-back mode. -/
  modemControl : UInt8
  /-- `SCRATCH_PORT`. -/
  scratch : UInt8
  /-- The FIFOs are enabled. -/
  fifo : Bool
  /-- The FIFOs of a 16750 have 64 bytes. -/
  fifo64 : Bool

/-- The bytes in the chip. -/
structure Queues where
  /-- The bytes that have been received and not read. -/
  receiver : Text
  /-- The bytes that wait for the transmitter. -/
  holding : Text
  /-- The bytes that have been put on the line. -/
  line : Text
  /-- How many bytes from the line have been lost. -/
  overruns : ℕ

/-- The world outside.  The argument is how often a port has been accessed. -/
structure Line where
  /-- The byte that arrives from the line. -/
  arrives : ℕ → Option UInt8
  /-- The transmitter has sent what it had. -/
  empties : ℕ → Bool
  /-- What comes back of a byte in loop-back mode. -/
  loops : UInt8 → UInt8

/-- The bytes that arrive from the line between two accesses. -/
def Line.arrivals (l : Line) (t t' : ℕ) : Text := (List.range' t (t' - t)).filterMap l.arrives

namespace Registers

variable (r : Registers)

/-- The divisor is selected. -/
def latched : Bool := hasBits r.lineControl 0b10000000

/-- The chip is in loop-back mode, and neither listens to the line nor sends to it. -/
def looped : Bool := hasBits r.modemControl 0b00010000

/-- The chip has FIFOs. -/
def hasFifo : Bool := decide (r.kind = .chip16550 ∨ r.kind = .chip16550A ∨ r.kind = .chip16750)

/-- The FIFOs are in use. -/
def buffered : Bool := r.hasFifo && r.fifo

/-- How many bytes the FIFO of the receiver holds. -/
def capacity : ℕ := if r.fifo64 then 64 else 16

/-- `out8(COM1 + offset, value)`. -/
def write (offset : ℕ) (value : UInt8) : Registers :=
  match offset with
  | 0 => if r.latched then { r with divisorLow := value } else r
  | 1 => if r.latched then { r with divisorHigh := value } else { r with interruptEnable := value }
  | 2 =>
    if r.hasFifo then
      { r with
        fifo := hasBits value 0b00000001
        fifo64 := if r.kind = .chip16750 ∧ r.latched then hasBits value 0b00100000 else r.fifo64 }
    else r
  | 3 => { r with lineControl := value }
  | 4 => { r with modemControl := value }
  | 7 => if r.kind = .chip8250 then r else { r with scratch := value }
  | _ => r

/-- The value of `INT_ID_PORT`.  Of the chips with FIFOs a 16550 sets only bit 7, the later ones bit
6 too, and a 16750 with 64 bytes bit 5. -/
def identification : UInt8 :=
  if r.buffered then
    match r.kind with
    | .chip16550 => 0b10000001
    | .chip16750 => if r.fifo64 then 0b11100001 else 0b11000001
    | _ => 0b11000001
  else 0b00000001

end Registers

namespace Queues

variable (q : Queues) (r : Registers) (l : Line)

/-- A byte comes in.  Without a FIFO it takes the place of the last. -/
def push (b : UInt8) : Text :=
  if r.buffered then if q.receiver.length < r.capacity then q.receiver ++ [b] else q.receiver
  else [b]

/-- There is no room for it. -/
def full : Bool :=
  if r.buffered then decide (r.capacity ≤ q.receiver.length) else !q.receiver.isEmpty

/-- What happens before an access. -/
def tick (time : ℕ) : Queues :=
  if r.looped then q
  else
    { receiver := (l.arrives time).elim q.receiver (q.push r)
      holding := if l.empties time then [] else q.holding
      line := if l.empties time then q.line ++ q.holding else q.line
      overruns := (l.arrives time).elim q.overruns fun _ => q.overruns + (q.full r).toNat }

/-- `out8(COM1 + offset, value)`. -/
def write (offset : ℕ) (value : UInt8) : Queues :=
  match offset with
  | 0 =>
    if r.latched then q
    else if r.looped then { q with receiver := q.push r (l.loops value), holding := [] }
    else { q with holding := if r.buffered then q.holding ++ [value] else [value] }
  | 2 =>
    if r.hasFifo then
      { q with
        receiver := if hasBits value 0b00000010 then [] else q.receiver
        holding := if hasBits value 0b00000100 then [] else q.holding }
    else q
  | _ => q

/-- The value of `LINE_STATUS_PORT`: data is ready, and the transmitter can take a byte. -/
def lineStatus : UInt8 :=
  (if q.receiver.isEmpty then 0 else 0b00000001) ||| (if q.holding.isEmpty then 0b00100000 else 0)

/-- `in8(COM1 + offset)`.  A byte that is read from the data port is no longer in the receiver. -/
def read (offset : ℕ) : UInt8 × Queues :=
  match offset with
  | 0 =>
    if r.latched then (r.divisorLow, q)
    else (q.receiver.headD 0, { q with receiver := q.receiver.tail })
  | 1 => (if r.latched then r.divisorHigh else r.interruptEnable, q)
  | 2 => (r.identification, q)
  | 3 => (r.lineControl, q)
  | 4 => (r.modemControl, q)
  | 5 => (q.lineStatus, q)
  | 7 => (if r.kind = .chip8250 then 0xff else r.scratch, q)
  | _ => (0, q)

end Queues

/-! ### The driver -/

/-- The driver and the chip. -/
structure SerialPort where
  /-- `Initialized`. -/
  initialized : Bool
  /-- `chip`. -/
  detected : Chip
  /-- The registers of the chip. -/
  registers : Registers
  /-- The bytes in it. -/
  queues : Queues
  /-- How often a port has been accessed. -/
  time : ℕ
  /-- The bytes that `out` has put into the data port. -/
  sent : Text
  /-- The bytes that `read` has taken from it. -/
  taken : Text

namespace SerialPort

variable (l : Line) (s : SerialPort)

/-- `out8(COM1 + offset, value)`. -/
def out8 (offset : ℕ) (value : UInt8) : SerialPort :=
  { s with
    registers := s.registers.write offset value
    queues := (s.queues.tick s.registers l s.time).write s.registers l offset value
    time := s.time + 1 }

/-- `in8(COM1 + offset)`. -/
def in8 (offset : ℕ) : UInt8 × SerialPort :=
  let r := (s.queues.tick s.registers l s.time).read s.registers offset
  (r.1, { s with queues := r.2, time := s.time + 1 })

/-- `while ((in8(LINE_STATUS_PORT(COM1)) & bit) == 0 && maxSpins > 0) maxSpins--`: what is left of
`maxSpins`. -/
def spin (bit : UInt8) : ℕ → SerialPort → ℕ × SerialPort
  | 0, s => (0, (s.in8 l 5).2)
  | maxSpins + 1, s =>
    let r := s.in8 l 5
    if hasBits r.1 bit then (maxSpins + 1, r.2) else spin bit maxSpins r.2

/-- `out(uint8_t)`. -/
def outByte (byte : UInt8) : SerialPort :=
  if s.initialized then
    let r := spin l 0b00100000 maxSpins s
    if r.1 = 0 then r.2
    else { r.2.out8 l 0 byte with sent := r.2.sent ++ [byte] }
  else s

/-- `read()`. -/
def readByte : UInt8 × SerialPort :=
  if s.initialized then
    let r := spin l 0b00000001 maxSpins s
    if r.1 = 0 then (0, r.2)
    else
      let data := r.2.in8 l 0
      (data.1, { data.2 with taken := r.2.taken ++ [data.1] })
  else (0, s)

/-- `BAUD_DIVISOR`. -/
def baudDivisor : ℕ := 115200 / 9600

/-- The first accesses of `initialize`, which set the divisor, the format and the FIFOs. -/
def setLine : SerialPort :=
  let s := s.out8 l 1 0x00
  let s := s.out8 l 3 0b10000000
  let s := s.out8 l 0 (UInt8.ofNat baudDivisor)
  let s := s.out8 l 1 (UInt8.ofNat (baudDivisor >>> 8))
  let s := s.out8 l 3 0b00000011
  s.out8 l 2 0b11000111

/-- The accesses that tell what the chip is. -/
def detect : SerialPort :=
  let r := s.in8 l 2
  let fifoTest := r.1
  if hasBits fifoTest ((1 : UInt8) <<< 6) then
    if hasBits fifoTest ((1 : UInt8) <<< 7) then
      { r.2 with
        detected := if hasBits fifoTest ((1 : UInt8) <<< 5) then .chip16750 else .chip16550A }
    else { r.2 with detected := .chip16550 }
  else
    let s := r.2.out8 l 7 0x2a
    let r := s.in8 l 7
    { r.2 with detected := if r.1 = 0x2a then .chip16450 else .chip8250 }

/-- The byte of the loop-back test. -/
def testByte : UInt8 := 0xae

/-- The loop-back test, and what follows it if it succeeds. -/
def loopBack : SerialPort :=
  let s := s.out8 l 4 0b00011111
  let s := s.out8 l 0 testByte
  let r := s.in8 l 0
  if r.1 ≠ testByte then { r.2 with initialized := false }
  else
    let s := r.2.out8 l 4 0b00001111
    let s := s.out8 l 1 0b00000001
    { s with initialized := true }

/-- `initialize()`, up to the messages that it sends at the end. -/
def initializePort : SerialPort := ((s.setLine l).detect l).loopBack l

end SerialPort

/-! ### What `initialize` makes of the chip -/

namespace Registers

variable {r : Registers} {value : UInt8}

theorem write_kind {offset : ℕ} : (r.write offset value).kind = r.kind := by
  unfold write
  split
  all_goals first | rfl | (split_ifs <;> rfl)

theorem hasFifo_congr {r' : Registers} (h : r.kind = r'.kind) : r.hasFifo = r'.hasFifo := by
  rw [hasFifo, hasFifo, h]

theorem looped_eq_true (h : r.modemControl = 0b00011111) : r.looped = true := by
  rw [looped, h]
  decide

theorem looped_eq_false (h : r.modemControl = 0b00001111) : r.looped = false := by
  rw [looped, h]
  decide

theorem latched_eq_true (h : r.lineControl = 0b10000000) : r.latched = true := by
  rw [latched, h]
  decide

theorem latched_eq_false (h : r.lineControl = 0b00000011) : r.latched = false := by
  rw [latched, h]
  decide

theorem write_divisorLow (h : r.latched = true) :
    r.write 0 value = { r with divisorLow := value } := if_pos h

theorem write_divisorHigh (h : r.latched = true) :
    r.write 1 value = { r with divisorHigh := value } := if_pos h

theorem write_interruptEnable (h : r.latched = false) :
    r.write 1 value = { r with interruptEnable := value } :=
  if_neg (Bool.eq_false_iff.1 h)

theorem write_data (h : r.latched = false) : r.write 0 value = r :=
  if_neg (Bool.eq_false_iff.1 h)

theorem write_fifoControl (h : r.latched = false) :
    r.write 2 0b11000111 = { r with fifo := r.hasFifo || r.fifo } := by
  cases hfifo : r.hasFifo with
  | false => exact if_neg (Bool.eq_false_iff.1 hfifo)
  | true =>
    refine (if_pos hfifo).trans ?_
    rw [h, if_neg fun hboth => Bool.false_ne_true hboth.2]
    rfl

/-- What `detect` finds: the chip, but for a 16550, which does not set bit 6, and a 16750 whose
FIFOs have 16 bytes. -/
def found (r : Registers) : Chip :=
  match r.kind with
  | .chip16550 => .chip16450
  | .chip16750 => if r.fifo64 then .chip16750 else .chip16550A
  | kind => kind

/-- How often the chip is accessed between the clearing of the FIFOs and the loop-back mode. -/
def accesses (r : Registers) : ℕ := if r.kind = .chip16550 then 4 else 2

theorem buffered_modemControl : { r with modemControl := value }.buffered = r.buffered := rfl

theorem hasFifo_eq {kind : Chip} (h : r.kind = kind) : r.hasFifo =
    decide (kind = .chip16550 ∨ kind = .chip16550A ∨ kind = .chip16750) := by
  rw [hasFifo, h]

end Registers

namespace SerialPort

variable {l : Line} {s : SerialPort}

/-- The registers after `setLine`.  If the divisor was selected before, the interrupts have not been
disabled. -/
theorem setLine_registers : (s.setLine l).registers =
    { s.registers with
      interruptEnable := if s.registers.latched then s.registers.interruptEnable else 0
      divisorLow := 12
      divisorHigh := 0
      lineControl := 3
      fifo := s.registers.hasFifo || s.registers.fifo } := by
  have hfirst : s.registers.write 1 0x00 = { s.registers with
      interruptEnable := if s.registers.latched then s.registers.interruptEnable else 0
      divisorHigh := if s.registers.latched then 0 else s.registers.divisorHigh } := by
    cases h : s.registers.latched with
    | false => exact Registers.write_interruptEnable h
    | true => exact Registers.write_divisorHigh h
  have hdivisor : ∀ (r : Registers) (low high : UInt8),
      ((r.write 3 0b10000000).write 0 low).write 1 high =
        { r with lineControl := 0b10000000, divisorLow := low, divisorHigh := high } := by
    intro r low high
    have hlatched : (r.write 3 0b10000000).latched = true := Registers.latched_eq_true rfl
    rw [Registers.write_divisorLow hlatched,
      Registers.write_divisorHigh (Registers.latched_eq_true rfl)]
    rfl
  have hformat : ∀ r : Registers, (r.write 3 0b00000011).write 2 0b11000111 =
      { r with lineControl := 3, fifo := r.hasFifo || r.fifo } := fun r =>
    Registers.write_fifoControl (Registers.latched_eq_false rfl)
  calc (s.setLine l).registers
      = (((((s.registers.write 1 0x00).write 3 0b10000000).write 0 (UInt8.ofNat baudDivisor)).write
          1 (UInt8.ofNat (baudDivisor >>> 8))).write 3 0b00000011).write 2 0b11000111 := rfl
    _ = _ := by
      rw [hformat, hdivisor, hfirst]
      rfl

/-- What is found of a chip whose FIFOs are enabled, if it has any. -/
theorem detect_detected (hkind : s.registers.kind ≠ .none)
    (hfifo : s.registers.buffered = s.registers.hasFifo) :
    (s.detect l).detected = s.registers.found := by
  have hread : (s.in8 l 2).1 = s.registers.identification := rfl
  have hscratch : ∀ v, (((s.in8 l 2).2.out8 l 7 v).in8 l 7).1 =
      if s.registers.kind = .chip8250 then 0xff else v := by
    intro v
    show (if (s.registers.write 7 v).kind = .chip8250 then 0xff
      else (s.registers.write 7 v).scratch) = _
    by_cases hk : s.registers.kind = .chip8250
    · rw [Registers.write, if_pos hk, if_pos hk, if_pos hk]
    · rw [Registers.write, if_neg hk]
  have hbit : hasBits 0b00000001 ((1 : UInt8) <<< 6) = false := by decide
  unfold detect
  dsimp only
  rw [hread, Registers.identification, hfifo, Registers.found]
  cases hk : s.registers.kind with
  | none => exact absurd hk hkind
  | chip8250 =>
    rw [Registers.hasFifo_eq hk]
    simp [hbit, hscratch, hk]
  | chip16450 =>
    rw [Registers.hasFifo_eq hk]
    simp [hbit, hscratch, hk]
  | chip16550 =>
    have hlow : hasBits 0b10000001 ((1 : UInt8) <<< 6) = false := by decide
    rw [Registers.hasFifo_eq hk]
    simp [hlow, hscratch, hk]
  | chip16550A =>
    rw [Registers.hasFifo_eq hk]
    simp +decide [hasBits]
  | chip16750 =>
    rw [Registers.hasFifo_eq hk]
    cases s.registers.fifo64 <;> simp +decide

/-- `detect` is one access or three. -/
theorem detect_cases : ∃ kind,
    hasBits s.registers.identification ((1 : UInt8) <<< 6) = true ∧
      s.detect l = { (s.in8 l 2).2 with detected := kind } ∨
    hasBits s.registers.identification ((1 : UInt8) <<< 6) = false ∧
      s.detect l = { (((s.in8 l 2).2.out8 l 7 0x2a).in8 l 7).2 with detected := kind } := by
  have hread : (s.in8 l 2).1 = s.registers.identification := rfl
  unfold detect
  dsimp only
  rw [hread]
  cases hbit : hasBits s.registers.identification ((1 : UInt8) <<< 6) with
  | false => exact ⟨_, .inr ⟨rfl, rfl⟩⟩
  | true =>
    rw [if_pos rfl]
    split_ifs
    · exact ⟨_, .inl ⟨rfl, rfl⟩⟩
    · exact ⟨_, .inl ⟨rfl, rfl⟩⟩
    · exact ⟨_, .inl ⟨rfl, rfl⟩⟩

theorem detect_registers :
    ∃ scratch, (s.detect l).registers = { s.registers with scratch := scratch } := by
  obtain ⟨kind, ⟨-, heq⟩ | ⟨-, heq⟩⟩ := detect_cases (l := l) (s := s)
  · exact ⟨s.registers.scratch, by rw [heq]; rfl⟩
  · have hwrite : (s.detect l).registers = s.registers.write 7 0x2a := by
      rw [heq]
      rfl
    rw [hwrite, Registers.write]
    split_ifs
    · exact ⟨s.registers.scratch, rfl⟩
    · exact ⟨0x2a, rfl⟩

theorem identification_bit : hasBits s.registers.identification ((1 : UInt8) <<< 6) =
    (s.registers.buffered && decide (s.registers.kind ≠ .chip16550)) := by
  unfold Registers.identification
  cases s.registers.buffered with
  | false =>
    rw [if_neg Bool.false_ne_true, Bool.false_and]
    decide
  | true =>
    rw [if_pos rfl]
    cases s.registers.kind <;> cases s.registers.fifo64 <;> decide

/-! ### The bytes during `initialize` -/

end SerialPort

/-- From `q` to `q'` nothing has been sent but, at most, what the chip had to send already. -/
def Flushes (q q' : Queues) : Prop :=
  q'.line = q.line ∧ (q'.holding = q.holding ∨ q'.holding = []) ∨
    q'.line = q.line ++ q.holding ∧ q'.holding = []

theorem Flushes.refl (q : Queues) : Flushes q q := .inl ⟨rfl, .inl rfl⟩

theorem Flushes.trans {q q' q'' : Queues} (h : Flushes q q') (h' : Flushes q' q'') :
    Flushes q q'' := by
  obtain ⟨hline, hholding⟩ | ⟨hline, hholding⟩ := h
  · obtain ⟨hline', hholding'⟩ | ⟨hline', hholding'⟩ := h'
    · refine .inl ⟨hline'.trans hline, ?_⟩
      obtain hsame | hnil := hholding'
      · exact hholding.imp hsame.trans hsame.trans
      · exact .inr hnil
    · obtain hsame | hnil := hholding
      · exact .inr ⟨by rw [hline', hline, hsame], hholding'⟩
      · exact .inl ⟨by rw [hline', hline, hnil, List.append_nil], .inr hholding'⟩
  · refine .inr ?_
    obtain ⟨hline', hholding'⟩ | ⟨hline', hholding'⟩ := h'
    · exact ⟨hline'.trans hline, hholding'.elim (·.trans hholding) id⟩
    · exact ⟨by rw [hline', hline, hholding, List.append_nil], hholding'⟩

namespace Queues

variable {q : Queues} {r : Registers} {l : Line} {time offset : ℕ} {value : UInt8}

theorem push_of_lt (hr : r.buffered = true) (hlen : q.receiver.length < 16) (b : UInt8) :
    q.push r b = q.receiver ++ [b] := by
  have hroom : q.receiver.length < r.capacity := by
    unfold Registers.capacity
    split_ifs <;> omega
  rw [push, if_pos hr, if_pos hroom]

theorem push_of_not_buffered (hr : r.buffered = false) (b : UInt8) : q.push r b = [b] :=
  if_neg (Bool.eq_false_iff.1 hr)

/-- What has arrived is at the end of the FIFO. -/
theorem tick_receiver (hr : r.buffered = true) (hlen : q.receiver.length < 16) :
    (q.tick r l time).receiver =
      q.receiver ++ (if r.looped then none else l.arrives time).toList := by
  unfold tick
  by_cases hlooped : r.looped = true
  · rw [if_pos hlooped, if_pos hlooped]
    exact (List.append_nil _).symm
  · rw [if_neg hlooped, if_neg hlooped]
    cases l.arrives time with
    | none => exact (List.append_nil _).symm
    | some b => exact push_of_lt hr hlen b

/-- What happens before some accesses. -/
def ticks (r : Registers) (l : Line) : ℕ → ℕ → Queues → Queues
  | 0, _, q => q
  | n + 1, time, q => ticks r l n (time + 1) (q.tick r l time)

theorem ticks_receiver {n : ℕ} (hr : r.buffered = true) (hlen : q.receiver.length + n ≤ 16) :
    (q.ticks r l n time).receiver =
      q.receiver ++ if r.looped then [] else l.arrivals time (time + n) := by
  induction n generalizing q time with
  | zero =>
    rw [ticks, Line.arrivals, Nat.add_sub_cancel_left, List.range'_zero, List.filterMap_nil,
      ite_self, List.append_nil]
  | succ n ih =>
    have htick : (q.tick r l time).receiver =
        q.receiver ++ (if r.looped then none else l.arrives time).toList :=
      tick_receiver hr (by omega)
    have hone : (if r.looped then none else l.arrives time).toList.length ≤ 1 := by
      split_ifs
      · exact Nat.zero_le 1
      · cases l.arrives time <;> simp
    have hroom : (q.tick r l time).receiver.length + n ≤ 16 := by
      rw [htick, List.length_append]
      omega
    rw [ticks, ih hroom, htick, List.append_assoc]
    refine congrArg _ ?_
    split_ifs
    · rfl
    · rw [Line.arrivals, Line.arrivals, Nat.add_sub_cancel_left, Nat.add_sub_cancel_left,
        List.range'_succ, List.filterMap_cons]
      cases l.arrives time <;> rfl

theorem tick_looped (h : r.looped = true) : q.tick r l time = q := if_pos h

theorem tick_flushes : Flushes q (q.tick r l time) := by
  unfold tick
  by_cases hlooped : r.looped = true
  · rw [if_pos hlooped]
    exact .refl q
  · rw [if_neg hlooped]
    cases l.empties time with
    | false => exact .inl ⟨rfl, .inl rfl⟩
    | true => exact .inr ⟨rfl, rfl⟩

theorem write_flushes (h : offset ≠ 0 ∨ r.latched = true ∨ r.looped = true) :
    Flushes q (q.write r l offset value) := by
  unfold write
  split
  · by_cases hlatched : r.latched = true
    · rw [if_pos hlatched]
      exact .refl q
    · have hlooped : r.looped = true := (h.resolve_left (· rfl)).resolve_left hlatched
      rw [if_neg hlatched, if_pos hlooped]
      exact .inl ⟨rfl, .inr rfl⟩
  · by_cases hfifo : r.hasFifo = true
    · rw [if_pos hfifo]
      refine .inl ⟨rfl, ?_⟩
      cases hasBits value 0b00000100 with
      | false => exact .inl rfl
      | true => exact .inr rfl
    · rw [if_neg hfifo]
      exact .refl q
  · exact .refl q

theorem read_flushes : Flushes q (q.read r offset).2 := by
  unfold read
  split <;> try exact .refl q
  split_ifs
  · exact .refl q
  · exact .inl ⟨rfl, .inl rfl⟩

end Queues

namespace SerialPort

variable {l : Line} {s : SerialPort} {offset : ℕ} {value : UInt8}

@[simp] theorem out8_sent : (s.out8 l offset value).sent = s.sent := rfl

@[simp] theorem out8_taken : (s.out8 l offset value).taken = s.taken := rfl

@[simp] theorem out8_time : (s.out8 l offset value).time = s.time + 1 := rfl

@[simp] theorem out8_detected : (s.out8 l offset value).detected = s.detected := rfl

@[simp] theorem in8_sent : (s.in8 l offset).2.sent = s.sent := rfl

@[simp] theorem in8_taken : (s.in8 l offset).2.taken = s.taken := rfl

@[simp] theorem in8_detected : (s.in8 l offset).2.detected = s.detected := rfl

theorem out8_flushes
    (h : offset ≠ 0 ∨ s.registers.latched = true ∨ s.registers.looped = true) :
    Flushes s.queues (s.out8 l offset value).queues :=
  Queues.tick_flushes.trans (Queues.write_flushes h)

theorem in8_flushes : Flushes s.queues (s.in8 l offset).2.queues :=
  Queues.tick_flushes.trans Queues.read_flushes

/-- A write to the data port in loop-back mode. -/
theorem out8_looped (hlatched : s.registers.latched = false) (hlooped : s.registers.looped = true)
    (b : UInt8) : s.out8 l 0 b =
      { s with
        queues := { s.queues with
          receiver := s.queues.push s.registers (l.loops b)
          holding := [] }
        time := s.time + 1 } := by
  rw [out8, Registers.write_data hlatched, Queues.tick_looped hlooped, Queues.write,
    if_neg (Bool.eq_false_iff.1 hlatched), if_pos hlooped]

theorem in8_looped (hlatched : s.registers.latched = false) (hlooped : s.registers.looped = true) :
    s.in8 l 0 = (s.queues.receiver.headD 0,
      { s with
        queues := { s.queues with receiver := s.queues.receiver.tail }
        time := s.time + 1 }) := by
  rw [in8, Queues.tick_looped hlooped, Queues.read, if_neg (Bool.eq_false_iff.1 hlatched)]

/-- What the receiver holds after the byte of the loop-back test has been sent. -/
def looping (l : Line) (s : SerialPort) : Text :=
  (s.queues.tick s.registers l s.time).push { s.registers with modemControl := 0b00011111 }
    (l.loops testByte)

/-- The port after the byte has been read back. -/
def tested (l : Line) (s : SerialPort) : SerialPort :=
  { s with
    registers := { s.registers with modemControl := 0b00011111 }
    queues := { s.queues.tick s.registers l s.time with
      receiver := (s.looping l).tail
      holding := [] }
    time := s.time + 3 }

/-- **The loop-back test.** -/
theorem loopBack_eq (h : s.registers.latched = false) : s.loopBack l =
    if (s.looping l).headD 0 ≠ testByte then { s.tested l with initialized := false }
    else { ((s.tested l).out8 l 4 0b00001111).out8 l 1 0b00000001 with initialized := true } := by
  have hlatched : (s.out8 l 4 0b00011111).registers.latched = false := h
  have hlooped : (s.out8 l 4 0b00011111).registers.looped = true := Registers.looped_eq_true rfl
  have hread : ((s.out8 l 4 0b00011111).out8 l 0 testByte).in8 l 0 =
      ((s.looping l).headD 0, s.tested l) := by
    rw [out8_looped hlatched hlooped]
    exact in8_looped hlatched hlooped
  unfold loopBack
  dsimp only
  rw [hread]

theorem tested_flushes : Flushes s.queues (s.tested l).queues := by
  refine Queues.tick_flushes.trans (.inl ⟨rfl, .inr rfl⟩)

/-- **What follows a test that has succeeded.** -/
theorem loopBack_of_eq (h : s.registers.latched = false)
    (htest : (s.looping l).headD 0 = testByte) :
    (s.loopBack l).initialized = true ∧ (s.loopBack l).registers =
      { s.registers with modemControl := 0b00001111, interruptEnable := 0b00000001 } ∧
    Flushes s.queues (s.loopBack l).queues ∧ (s.loopBack l).queues.holding = [] := by
  rw [loopBack_eq h, if_neg (not_not.2 htest)]
  have hlatched : ((s.tested l).out8 l 4 0b00001111).registers.latched = false := h
  have hflushes : Flushes (s.tested l).queues
      (((s.tested l).out8 l 4 0b00001111).out8 l 1 0b00000001).queues :=
    (out8_flushes (.inl (by decide))).trans (out8_flushes (.inl (by decide)))
  refine ⟨rfl, Registers.write_interruptEnable hlatched, tested_flushes.trans hflushes, ?_⟩
  have hnil : (s.tested l).queues.holding = [] := rfl
  obtain ⟨-, hsame | hgone⟩ | ⟨-, hgone⟩ := hflushes
  · exact hsame.trans hnil
  · exact hgone
  · exact hgone

/-- **And one that has failed**: the chip stays in loop-back mode. -/
theorem loopBack_of_ne (h : s.registers.latched = false)
    (htest : (s.looping l).headD 0 ≠ testByte) :
    (s.loopBack l).initialized = false ∧ (s.loopBack l).registers =
      { s.registers with modemControl := 0b00011111 } ∧
    Flushes s.queues (s.loopBack l).queues ∧ (s.loopBack l).queues.holding = [] := by
  rw [loopBack_eq h, if_pos htest]
  exact ⟨rfl, rfl, tested_flushes, rfl⟩

theorem loopBack_keeps : (s.loopBack l).detected = s.detected ∧ (s.loopBack l).sent = s.sent ∧
    (s.loopBack l).taken = s.taken := by
  unfold loopBack
  dsimp only
  split_ifs <;> simp

theorem setLine_keeps : (s.setLine l).sent = s.sent ∧ (s.setLine l).taken = s.taken ∧
    (s.setLine l).time = s.time + 6 := by simp [setLine]

theorem setLine_flushes : Flushes s.queues (s.setLine l).queues := by
  have hlatched : ((s.out8 l 1 0x00).out8 l 3 0b10000000).registers.latched = true :=
    Registers.latched_eq_true rfl
  exact (out8_flushes (.inl (by decide))).trans <| (out8_flushes (.inl (by decide))).trans <|
    (out8_flushes (.inr (.inl hlatched))).trans <| (out8_flushes (.inl (by decide))).trans <|
    (out8_flushes (.inl (by decide))).trans (out8_flushes (.inl (by decide)))

theorem detect_keeps : (s.detect l).sent = s.sent ∧ (s.detect l).taken = s.taken ∧
    Flushes s.queues (s.detect l).queues := by
  obtain ⟨kind, ⟨-, heq⟩ | ⟨-, heq⟩⟩ := detect_cases (l := l) (s := s)
  · rw [heq]
    exact ⟨rfl, rfl, in8_flushes⟩
  · rw [heq]
    exact ⟨rfl, rfl, in8_flushes.trans ((out8_flushes (.inl (by decide))).trans in8_flushes)⟩

theorem setLine_receiver (h : s.registers.hasFifo = true) : (s.setLine l).queues.receiver = [] := by
  have hcleared : ∀ t : SerialPort, t.registers.hasFifo = true →
      (t.out8 l 2 0b11000111).queues.receiver = [] := by
    intro t ht
    rw [out8, Queues.write, if_pos ht]
    rfl
  refine hcleared _ ((Registers.hasFifo_congr ?_).trans h)
  exact Registers.write_kind.trans <| Registers.write_kind.trans <| Registers.write_kind.trans <|
    Registers.write_kind.trans Registers.write_kind

theorem setLine_buffered : (s.setLine l).registers.buffered = s.registers.hasFifo := by
  rw [setLine_registers]
  show (s.registers.hasFifo && (s.registers.hasFifo || s.registers.fifo)) = s.registers.hasFifo
  cases s.registers.hasFifo <;> simp

theorem setLine_looped : (s.setLine l).registers.looped = s.registers.looped := by
  rw [setLine_registers]
  rfl

theorem setLine_latched : (s.setLine l).registers.latched = false := by
  rw [setLine_registers]
  exact Registers.latched_eq_false rfl

/-- The bytes that arrive after the FIFOs have been cleared and before the loop-back mode. -/
def early (l : Line) (s : SerialPort) : Text :=
  if s.registers.hasFifo then
    if s.registers.looped then [] else l.arrivals (s.time + 6) (s.time + 6 + s.registers.accesses)
  else []

theorem looping_of_not_hasFifo {kind : Chip} (h : s.registers.hasFifo = false) :
    ({ (((s.in8 l 2).2.out8 l 7 0x2a).in8 l 7).2 with detected := kind } : SerialPort).looping l =
      [l.loops testByte] := by
  have hwrite : (s.registers.write 7 0x2a).hasFifo = false :=
    (Registers.hasFifo_congr Registers.write_kind).trans h
  exact Queues.push_of_not_buffered (Bool.and_eq_false_iff.2 (.inl hwrite)) _

/-- The accesses of `detect` to a chip with FIFOs, and the one that turns the loop-back mode on. -/
theorem looping_detect (h : s.registers.buffered = true) : (s.detect l).looping l =
    (s.queues.ticks s.registers l s.registers.accesses s.time).push
      { s.registers with modemControl := 0b00011111 } (l.loops testByte) := by
  obtain ⟨kind, ⟨hbit, heq⟩ | ⟨hbit, heq⟩⟩ := detect_cases (l := l) (s := s)
  all_goals rw [identification_bit, h, Bool.true_and] at hbit
  · rw [heq, Registers.accesses, if_neg (of_decide_eq_true hbit)]
    rfl
  · have hkind : s.registers.kind = .chip16550 := not_not.1 (of_decide_eq_false hbit)
    have hwrite : s.registers.write 7 0x2a = { s.registers with scratch := 0x2a } :=
      if_neg (by rw [hkind]; decide)
    have hregisters : ((s.in8 l 2).2.out8 l 7 0x2a).registers =
        { s.registers with scratch := 0x2a } := hwrite
    rw [heq, looping, in8, hregisters, Registers.accesses, if_pos hkind]
    rfl

theorem initializePort_looping :
    ((s.setLine l).detect l).looping l = s.early l ++ [l.loops testByte] := by
  have hbuffered := setLine_buffered (l := l) (s := s)
  have hkind : (s.setLine l).registers.kind = s.registers.kind := by rw [setLine_registers]
  cases hfifo : s.registers.hasFifo with
  | false =>
    obtain ⟨kind, ⟨hbit, -⟩ | ⟨-, heq⟩⟩ := detect_cases (l := l) (s := s.setLine l)
    · rw [identification_bit, hbuffered, hfifo, Bool.false_and] at hbit
      exact absurd hbit Bool.false_ne_true
    · rw [early, hfifo, heq]
      exact looping_of_not_hasFifo ((Registers.hasFifo_congr hkind).trans hfifo)
  | true =>
    have hreceiver := setLine_receiver (l := l) hfifo
    have htime := (setLine_keeps (l := l) (s := s)).2.2
    have haccesses : (s.setLine l).registers.accesses = s.registers.accesses := by
      rw [Registers.accesses, hkind]
      rfl
    have hfour : s.registers.accesses ≤ 4 := by
      rw [Registers.accesses]
      split_ifs <;> decide
    rw [hfifo] at hbuffered
    have hticks : ((s.setLine l).queues.ticks (s.setLine l).registers l
        (s.setLine l).registers.accesses (s.setLine l).time).receiver = s.early l := by
      rw [Queues.ticks_receiver hbuffered (by rw [hreceiver, haccesses, List.length_nil]; omega),
        hreceiver, List.nil_append, setLine_looped, htime, haccesses, early, if_pos hfifo]
    have hroom : (s.early l).length < 16 := by
      rw [early, if_pos hfifo]
      split_ifs
      · exact Nat.zero_lt_succ 15
      · refine (List.length_filterMap_le _ _).trans_lt ?_
        rw [List.length_range', Nat.add_sub_cancel_left]
        omega
    rw [looping_detect hbuffered, ← hticks]
    exact Queues.push_of_lt (Registers.buffered_modemControl.trans hbuffered) (hticks ▸ hroom) _

/-- **What `initialize` makes of the chip**, in whatever state it finds it.  It succeeds if the byte
of the loop-back test comes back first: on a chip with FIFOs, a byte that arrives from the line
between the clearing of the FIFOs and the loop-back mode is taken for it.  The chip is told apart
from the others, but for a 16550, which is taken for a 16450, and a 16750 whose FIFOs have 16 bytes.
After a success the port runs at 9600 baud with 8 data bits, and interrupts when data is ready;
after a failure it stays in loop-back mode.  The byte of the test is not sent on the line. -/
theorem initializePort_spec (l : Line) (s : SerialPort) (hkind : s.registers.kind ≠ .none) :
    ((s.initializePort l).initialized = true ↔
      (s.early l ++ [l.loops testByte]).headD 0 = testByte) ∧
    (s.initializePort l).detected = s.registers.found ∧
    ((s.initializePort l).initialized = true → (s.initializePort l).registers =
      { s.registers with
        interruptEnable := 0b00000001
        divisorLow := 12
        divisorHigh := 0
        lineControl := 0b00000011
        modemControl := 0b00001111
        scratch := (s.initializePort l).registers.scratch
        fifo := s.registers.hasFifo || s.registers.fifo }) ∧
    ((s.initializePort l).initialized = false → (s.initializePort l).registers.looped = true) ∧
    Flushes s.queues (s.initializePort l).queues ∧ (s.initializePort l).queues.holding = [] ∧
    (s.initializePort l).sent = s.sent ∧ (s.initializePort l).taken = s.taken := by
  obtain ⟨scratch, hregisters⟩ := detect_registers (l := l) (s := s.setLine l)
  have hlatched : ((s.setLine l).detect l).registers.latched = false := by
    rw [hregisters]
    exact setLine_latched
  obtain ⟨hsent₁, htaken₁, -⟩ := setLine_keeps (l := l) (s := s)
  obtain ⟨hsent₂, htaken₂, hflushes⟩ := detect_keeps (l := l) (s := s.setLine l)
  obtain ⟨hdetected, hsent₃, htaken₃⟩ := loopBack_keeps (l := l) (s := (s.setLine l).detect l)
  have hsent := hsent₃.trans (hsent₂.trans hsent₁)
  have htaken := htaken₃.trans (htaken₂.trans htaken₁)
  have hfound : ((s.setLine l).detect l).detected = s.registers.found := by
    refine (detect_detected ?_ ?_).trans ?_
    · rw [setLine_registers]
      exact hkind
    · rw [setLine_buffered]
      exact Registers.hasFifo_congr (by rw [setLine_registers])
    · rw [setLine_registers]
      rfl
  have hlooping := initializePort_looping (l := l) (s := s)
  rw [initializePort]
  by_cases htest : (s.early l ++ [l.loops testByte]).headD 0 = testByte
  · obtain ⟨hok, hregisters', hflushes', hnil⟩ := loopBack_of_eq hlatched (hlooping ▸ htest)
    refine ⟨iff_of_true hok htest, hdetected.trans hfound, fun _ => ?_, fun hfail => ?_,
      setLine_flushes.trans (hflushes.trans hflushes'), hnil, hsent, htaken⟩
    · rw [hregisters', hregisters, setLine_registers]
    · exact absurd (hfail.symm.trans hok) Bool.false_ne_true
  · obtain ⟨hfail, hregisters', hflushes', hnil⟩ := loopBack_of_ne hlatched (hlooping ▸ htest)
    have hnot : (((s.setLine l).detect l).loopBack l).initialized ≠ true := by
      rw [hfail]
      exact Bool.false_ne_true
    refine ⟨iff_of_false hnot htest, hdetected.trans hfound, fun hok => absurd hok hnot,
      fun _ => ?_, setLine_flushes.trans (hflushes.trans hflushes'), hnil, hsent, htaken⟩
    exact Registers.looped_eq_true (by rw [hregisters'])

/-- A chip with FIFOs whose divisor is selected, and which has two bytes from before. -/
def found16550A : SerialPort where
  initialized := false
  detected := .none
  registers := ⟨.chip16550A, 0, 1, 0, 0b10000011, 0, 0, false, false⟩
  queues := ⟨[1, 2], [], [], 0⟩
  time := 0
  sent := []
  taken := []

/-- A line on which nothing arrives, and a chip that works. -/
def quietLine : Line := ⟨fun _ => none, fun _ => true, id⟩

theorem initializePort_spec_quiet : (found16550A.initializePort quietLine).initialized = true ∧
    (found16550A.initializePort quietLine).detected = .chip16550A := by
  obtain ⟨hok, hdetected, -⟩ := initializePort_spec quietLine found16550A (by decide)
  exact ⟨hok.2 (by decide), hdetected⟩

end SerialPort

end Eterna
