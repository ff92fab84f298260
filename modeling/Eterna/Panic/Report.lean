import Eterna.Library.TextFormats
import Eterna.Panic.Basic

/-!
# Reading the reports of exceptions

What the handlers print to the serial port has a format, and can be read back.

* `Report` : what is reported of an exception, and `Fault.report`, which says it in terms of the
  fields that the processor defines;
* `Fault.printed` : what is printed, which says nothing of the cause of a SIMD exception;
* `reportFormat` : the format of the reports;
* `reports_read_back` : the reports of any exceptions, one after the other, are read back.
-/

namespace Eterna

open CStrings Numerals TextFormats

/-- A table of descriptors. -/
inductive DescriptorTable where
  | gdt
  | idt
  | ldt
deriving DecidableEq

/-- How a table is printed. -/
def DescriptorTable.text : DescriptorTable → Text
  | gdt => literal "  GDT"
  | idt => literal "  IDT"
  | ldt => literal "  LDT"

/-- The instruction and the stack pointer. -/
abbrev FrameReport := BitVec 64 × BitVec 64

/-- An error code in front of them. -/
abbrev FrameErrorReport := BitVec 64 × FrameReport

/-- What is reported besides the message. -/
def Message.Details : Message → Type
  | divideByZero | simd _ => FrameReport
  | doubleFault => FrameErrorReport
  -- instruction fetch, shadow stack, hypervisor and software guard, and the address
  | pageFault _ _ _ => FrameErrorReport × Bool × Bool × Bool × Bool × BitVec 64
  -- whether the event is external, the table and the index
  | stackSegment _ | generalProtection _ => FrameErrorReport × Bool × DescriptorTable × BitVec 64

/-- A report. -/
abbrev Report := Σ message : Message, message.Details

/-! ### What is to be reported -/

/-- What is reported of a frame. -/
def InterruptFrame.report (frame : InterruptFrame) : FrameReport := (frame.ip, frame.sp)

/-- What is reported of a frame with an error code. -/
def InterruptFrameError.report (frame : InterruptFrameError) : FrameErrorReport :=
  (frame.error, frame.ip, frame.sp)

/-- The table of the selector: bit 1 stands for the interrupt table, and else bit 2 for the local
one. -/
def tableOf (error : BitVec 64) : DescriptorTable :=
  if error.getLsbD 1 then .idt else if error.getLsbD 2 then .ldt else .gdt

/-- What is reported of the error code of a selector: the index is in bits 3 to 15. -/
def selectorReport (error : BitVec 64) : Bool × DescriptorTable × BitVec 64 :=
  (error.getLsbD 0, tableOf error, (error.extractLsb' 3 13).setWidth 64)

/-- **What there is to report of an exception.** -/
def Fault.report : Fault → Report
  | divideByZero frame => ⟨.divideByZero, frame.report⟩
  | pageFault cr2 frame =>
    ⟨.pageFault (frame.error.getLsbD 2) (frame.error.getLsbD 1) (frame.error.getLsbD 0),
      frame.report, frame.error.getLsbD 4, frame.error.getLsbD 6, frame.error.getLsbD 7,
      frame.error.getLsbD 15, cr2⟩
  | doubleFault frame => ⟨.doubleFault, frame.report⟩
  | stackSegment frame =>
    ⟨.stackSegment (decide (frame.error ≠ 0)), frame.report, selectorReport frame.error⟩
  | generalProtection frame =>
    ⟨.generalProtection (decide (frame.error ≠ 0)), frame.report, selectorReport frame.error⟩
  | simd mxcsr frame => ⟨.simd (Console.simdCause mxcsr), frame.report⟩

/-- What is reported: the handler of a SIMD exception clears `MXCSR` and does not find the cause. -/
def Fault.printed : Fault → Report
  | simd _ frame => ⟨.simd .unknown, frame.report⟩
  | fault => fault.report

/-- What the screen shows of the frame. -/
def Fault.lines : Fault → List (Text × BitVec 64)
  | divideByZero frame | simd _ frame => frame.lines
  | pageFault _ frame | doubleFault frame | stackSegment frame | generalProtection frame =>
    frame.lines

/-- The address of a page fault. -/
def Fault.address : Fault → Option (BitVec 64)
  | pageFault cr2 _ => some cr2
  | _ => none

/-- What the handler draws. -/
def Fault.draw (fault : Fault) (p : Panel) : Panel :=
  let p := p.report fault.printed.1.text fault.lines
  match fault.address with
  | some address => p.faultyAddress address
  | none => p

/-- The exceptions that are handled: those up to the first one whose handler halts. -/
def Fault.handled : List Fault → List Fault
  | [] => []
  | fault :: faults =>
    match fault.ending with
    | .halts => [fault]
    | .returns _ => fault :: Fault.handled faults

/-! ### Formats -/

theorem word_fits : 2 ^ 64 ≤ 16 ^ 16 := by
  decide

/-- A line with a number. -/
def numberFormat (name : Text) : Format (BitVec 64) :=
  ((Format.hex 16 64 word_fits).headed name).ended (literal "\r\n")

theorem begins_number (name : Text) : (numberFormat name).Begins [name] :=
  Format.begins_headed.ended

/-- What is printed of a frame. -/
def frameFormat : Format FrameReport :=
  (numberFormat (literal "  Instruction Address: 0x")).pair
    (numberFormat (literal "  Stack Pointer: 0x"))

/-- With an error code. -/
def frameErrorFormat : Format FrameErrorReport :=
  (numberFormat (literal "  Error Code: 0x")).pair frameFormat

/-- The lines for bits of the error code of a page fault. -/
def softwareLine : Text := literal "  Software gaurd extensions\r\n"

def hypervisorLine : Text := literal "  Hypvervisor-managed linear address translation\r\n"

def shadowLine : Text := literal "  Shadow stack access\r\n"

def fetchLine : Text := literal "  Instruction fetch\r\n"

/-- What follows them. -/
def addressName : Text := literal "  Faulty Address: 0x"

theorem software_apart : ∀ h ∈ [addressName], Apart softwareLine h := by
  decide

theorem hypervisor_apart : ∀ h ∈ [softwareLine, addressName], Apart hypervisorLine h := by
  decide

theorem shadow_apart : ∀ h ∈ [hypervisorLine, softwareLine, addressName], Apart shadowLine h := by
  decide

theorem fetch_apart :
    ∀ h ∈ [shadowLine, hypervisorLine, softwareLine, addressName], Apart fetchLine h := by
  decide

def softwareFormat : Format (Bool × BitVec 64) :=
  (numberFormat addressName).optional softwareLine _ (begins_number _) software_apart

theorem begins_software : softwareFormat.Begins [softwareLine, addressName] :=
  Format.begins_optional (begins_number _) software_apart

def hypervisorFormat : Format (Bool × Bool × BitVec 64) :=
  softwareFormat.optional hypervisorLine _ begins_software hypervisor_apart

theorem begins_hypervisor :
    hypervisorFormat.Begins [hypervisorLine, softwareLine, addressName] :=
  Format.begins_optional begins_software hypervisor_apart

def shadowFormat : Format (Bool × Bool × Bool × BitVec 64) :=
  hypervisorFormat.optional shadowLine _ begins_hypervisor shadow_apart

theorem begins_shadow :
    shadowFormat.Begins [shadowLine, hypervisorLine, softwareLine, addressName] :=
  Format.begins_optional begins_hypervisor shadow_apart

/-- What is printed of the error code and the address of a page fault. -/
def pageFaultFormat : Format (Bool × Bool × Bool × Bool × BitVec 64) :=
  shadowFormat.optional fetchLine _ begins_shadow fetch_apart

/-- The tables of descriptors. -/
def tables : List DescriptorTable := [.gdt, .idt, .ldt]

theorem mem_tables (table : DescriptorTable) : table ∈ tables := by
  cases table <;> decide

theorem tables_apart (t u : DescriptorTable) (h : t ≠ u) : Apart t.text u.text := by
  revert h
  cases t <;> cases u <;> decide

def tableFormat : Format DescriptorTable :=
  .oneOf DescriptorTable.text tables mem_tables tables_apart

theorem begins_table : tableFormat.Begins (tables.map DescriptorTable.text) :=
  Format.begins_oneOf mem_tables tables_apart

/-- The table and the index of a selector. -/
def indexFormat : Format (DescriptorTable × BitVec 64) :=
  tableFormat.pair (numberFormat (literal " Selector Index: "))

def externalLine : Text := literal "  External\r\n"

theorem external_apart : ∀ h ∈ tables.map DescriptorTable.text, Apart externalLine h := by
  decide

/-- What is printed of the error code of a selector. -/
def selectorFormat : Format (Bool × DescriptorTable × BitVec 64) :=
  indexFormat.optional externalLine _ begins_table.pair external_apart

/-! ### Messages -/

/-- The causes of a SIMD exception. -/
def SimdCause.all : List SimdCause :=
  [.invalidOperation, .denormal, .divideByZero, .overflow, .underflow, .precision,
    .denormalsAreZero, .unknown]

/-- The messages. -/
def Message.all : List Message :=
  [.divideByZero, .doubleFault, .stackSegment false, .stackSegment true, .generalProtection false,
    .generalProtection true] ++ SimdCause.all.map .simd ++
  [.pageFault false false false, .pageFault false false true, .pageFault false true false,
    .pageFault false true true, .pageFault true false false, .pageFault true false true,
    .pageFault true true false, .pageFault true true true]

theorem Message.mem_all (message : Message) : message ∈ Message.all := by
  cases message with
  | divideByZero => decide
  | pageFault user write present => revert user write present; decide
  | doubleFault => decide
  | stackSegment selector => revert selector; decide
  | generalProtection selector => revert selector; decide
  | simd cause => cases cause <;> decide

/-- A message and the end of its line. -/
def Message.line (message : Message) : Text := message.text ++ literal "\r\n"

theorem pairwise_apart : Message.all.Pairwise fun m n => Apart m.line n.line := by
  decide +kernel

theorem lines_apart (m n : Message) (h : m ≠ n) : Apart m.line n.line := by
  have : Std.Symm fun m n : Message => Apart m.line n.line := ⟨fun _ _ => Apart.symm⟩
  exact pairwise_apart.forall m.mem_all n.mem_all h

def messageFormat : Format Message := .oneOf Message.line Message.all Message.mem_all lines_apart

/-- What follows the message. -/
def detailsFormat : ∀ message : Message, Format message.Details
  | .divideByZero => frameFormat
  | .simd _ => frameFormat
  | .doubleFault => frameErrorFormat
  | .pageFault _ _ _ => frameErrorFormat.pair pageFaultFormat
  | .stackSegment _ => frameErrorFormat.pair selectorFormat
  | .generalProtection _ => frameErrorFormat.pair selectorFormat

/-- The head of a report. -/
def headline (hide : Bool) : Text :=
  shown hide (literal "\r\n\x1b[1;37;41mEterna PANIC\x1b[0m\r\n") ++ literal "   "

/-- **The format of the reports.** -/
def reportFormat (hide : Bool) : Format Report :=
  (messageFormat.sigma detailsFormat).headed (headline hide)

/-! ### The error code -/

/-- The number of the bit. -/
def PageFaultErrorCode.bit : PageFaultErrorCode → ℕ
  | present => 0
  | readWrite => 1
  | userSuper => 2
  | reserved => 3
  | instructionFetch => 4
  | protectionKeyViolation => 5
  | shadowStackAccess => 6
  | hypervisorManagedLinearAddressTranslation => 7
  | softwareGaurdExtensions => 15

variable {error : BitVec 64}

theorem and_twoPow_pos_iff {i : ℕ} (hi : i < 64) :
    0 < error &&& BitVec.twoPow 64 i ↔ error.getLsbD i = true := by
  have hne : BitVec.twoPow 64 i ≠ 0 := by
    intro h
    have hbit := congrArg (·.getLsbD i) h
    simp [hi] at hbit
  have hpos : 0 < error &&& BitVec.twoPow 64 i ↔ error &&& BitVec.twoPow 64 i ≠ 0 :=
    BitVec.pos_iff_ne_zero _
  rw [hpos, BitVec.and_twoPow]
  split
  next h => exact iff_of_true hne h
  next h => exact iff_of_false (fun h' => h' rfl) h

theorem and_shift_eq {mask : BitVec 64} {k len : ℕ}
    (h : ∀ i < 64, mask.getLsbD (k + i) = decide (i < len)) :
    (error &&& mask) >>> k = (error.extractLsb' k len).setWidth 64 := by
  refine BitVec.eq_of_getLsbD_eq fun i hi => ?_
  rw [BitVec.getLsbD_ushiftRight, BitVec.getLsbD_and, h i hi, BitVec.getLsbD_setWidth,
    BitVec.getLsbD_extractLsb', decide_eq_true hi, Bool.true_and, Bool.and_comm]

theorem flag_iff (code : PageFaultErrorCode) :
    0 < error &&& code.value ↔ error.getLsbD code.bit = true := by
  have hbit : code.bit < 64 := by cases code <;> decide
  have hvalue : code.value = BitVec.twoPow 64 code.bit := by cases code <;> rfl
  rw [hvalue]
  exact and_twoPow_pos_iff hbit

theorem not_present_iff :
    error &&& PageFaultErrorCode.present.value = 0 ↔ error.getLsbD 0 = false := by
  have hflag := @flag_iff error .present
  have hpos : 0 < error &&& PageFaultErrorCode.present.value ↔
    error &&& PageFaultErrorCode.present.value ≠ 0 := BitVec.pos_iff_ne_zero _
  rw [← Bool.not_eq_true]
  exact (not_iff_comm.1 (hpos.symm.trans hflag)).symm

theorem index_eq : (error &&& 0b1111111111111000) >>> 3 = (error.extractLsb' 3 13).setWidth 64 :=
  and_shift_eq (by decide)

theorem Console.tableText_eq :
    Console.tableText (((error &&& 0b110) >>> 1).setWidth 8) = (tableOf error).text := by
  have hbits : ∀ b : BitVec 2, Console.tableText ((b.setWidth 64).setWidth 8) =
      (if b.getLsbD 0 then DescriptorTable.idt else if b.getLsbD 1 then .ldt else .gdt).text := by
    decide
  have hshift : (error &&& 0b110) >>> 1 = (error.extractLsb' 1 2).setWidth 64 :=
    and_shift_eq (by decide)
  rw [hshift, hbits, BitVec.getLsbD_extractLsb', BitVec.getLsbD_extractLsb']
  rfl

/-! ### The reports of the handlers -/

namespace Console

variable {hide : Bool}

theorem panicText_eq (message : Message) :
    panicText hide message.text = headline hide ++ message.line := by
  simp only [panicText, headline, Message.line, List.append_assoc]

theorem linesText_frame (frame : InterruptFrame) :
    linesText frame.lines = frameFormat.write frame.report := by
  have hinstruction := literal_instruction
  have hstack := literal_stack
  simp only [linesText, InterruptFrame.lines, List.flatMap_cons, List.flatMap_nil, List.append_nil,
    hinstruction, hstack]
  rfl

theorem linesText_frameError (frame : InterruptFrameError) :
    linesText frame.lines = frameErrorFormat.write frame.report := by
  have herror := literal_error
  have hinstruction := literal_instruction
  have hstack := literal_stack
  simp only [linesText, InterruptFrameError.lines, List.flatMap_cons, List.flatMap_nil,
    List.append_nil, herror, hinstruction, hstack]
  rfl

theorem pageFaultMessage_eq : pageFaultMessage error =
    .pageFault (error.getLsbD 2) (error.getLsbD 1) (error.getLsbD 0) := by
  have hdecide (b : Bool) {c : Prop} [Decidable c] (h : c ↔ b = true) : decide c = b := by
    rw [Bool.eq_iff_iff, decide_eq_true_iff, h]
  have hpresent : decide (error &&& PageFaultErrorCode.present.value = 0) = !error.getLsbD 0 :=
    hdecide _ (by rw [not_present_iff, Bool.not_eq_true'])
  rw [pageFaultMessage, hdecide _ (flag_iff .userSuper), hdecide _ (flag_iff .readWrite), hpresent,
    Bool.not_not]
  rfl

theorem pageFaultText_eq (address : BitVec 64) : pageFaultText error address =
    pageFaultFormat.write (error.getLsbD 4, error.getLsbD 6, error.getLsbD 7, error.getLsbD 15,
      address) := by
  simp only [pageFaultText, flag_iff, ← List.append_assoc (literal "  Faulty Address: 0x")]
  rfl

theorem selectorText_eq : selectorText error = selectorFormat.write (selectorReport error) := by
  have hpresent : error &&& 0b1 = 0 ↔ error.getLsbD 0 = false := not_present_iff
  have hexternal : error &&& 0b1 ≠ 0 ↔ error.getLsbD 0 = true := by
    rw [Ne, hpresent, Bool.not_eq_false]
  simp only [selectorText, hexternal, tableText_eq, index_eq,
    ← List.append_assoc (literal " Selector Index: ")]
  rfl

/-- **What a handler prints is the report of its exception**, written in the format. -/
theorem performs_report (fault : Fault) :
    Performs ((reportFormat hide).write fault.printed) fault.draw (report hide fault) := by
  cases fault with
  | divideByZero frame =>
    refine (performs_divideByZeroHandler frame).of_eq ?_ rfl
    rw [panicText_eq, linesText_frame, List.append_assoc]
    rfl
  | pageFault cr2 frame =>
    have hhandler := @performs_pageFaultHandler hide cr2 frame
    rw [pageFaultMessage_eq] at hhandler
    refine hhandler.of_eq ?_ rfl
    rw [panicText_eq, linesText_frameError, pageFaultText_eq, List.append_assoc, List.append_assoc]
    rfl
  | doubleFault frame =>
    refine (performs_doubleFaultHandler frame).of_eq ?_ rfl
    rw [panicText_eq, linesText_frameError, List.append_assoc]
    rfl
  | stackSegment frame =>
    have hmessage : (if frame.error = 0 then Message.stackSegment false else .stackSegment true) =
        .stackSegment (decide (frame.error ≠ 0)) := by
      split <;> simp_all
    have hhandler := @performs_selectorHandler hide (.stackSegment false) (.stackSegment true) frame
    rw [hmessage] at hhandler
    refine hhandler.of_eq ?_ rfl
    rw [panicText_eq, linesText_frameError, selectorText_eq, List.append_assoc, List.append_assoc]
    rfl
  | generalProtection frame =>
    have hmessage : (if frame.error = 0 then Message.generalProtection false
        else .generalProtection true) = .generalProtection (decide (frame.error ≠ 0)) := by
      split <;> simp_all
    have hhandler := @performs_selectorHandler hide (.generalProtection false)
      (.generalProtection true) frame
    rw [hmessage] at hhandler
    refine hhandler.of_eq ?_ rfl
    rw [panicText_eq, linesText_frameError, selectorText_eq, List.append_assoc, List.append_assoc]
    rfl
  | simd mxcsr frame =>
    have hhandler := @performs_simdExceptionHandler hide frame
    rw [panicText_eq, linesText_frame, List.append_assoc] at hhandler
    exact fun s => hhandler { s with mxcsr := mxcsr }

/-- The handlers of some exceptions print and draw what those up to the first that halts do. -/
theorem handleAll_spec (faults : List Fault) (s : Console) :
    ∃ s' halted, s.handleAll hide faults = .ok (s', halted) ∧
      (halted = true ↔ ∃ fault ∈ faults, fault.ending = .halts) ∧
      s'.sent = s.sent ++ (if s.initialized then
        (reportFormat hide).writeAll ((Fault.handled faults).map Fault.printed) else []) ∧
      s'.panel = (Fault.handled faults).foldl (fun p fault => fault.draw p) s.panel := by
  induction faults generalizing s with
  | nil =>
    refine ⟨s, false, rfl, iff_of_false Bool.false_ne_true ?_, ?_, rfl⟩
    · rintro ⟨fault, hmem, -⟩
      cases hmem
    · rw [Fault.handled, List.map_nil]
      split <;> exact (List.append_nil _).symm
  | cons fault faults ih =>
    obtain ⟨s₁, hs₁, hport₁, hsent₁, hpanel₁⟩ := @performs_report hide fault s
    have hhandle : s.handle hide fault = .ok (s₁, fault.ending) := by
      rw [handle, hs₁]
      rfl
    cases hending : fault.ending with
    | halts =>
      refine ⟨s₁, true, ?_, iff_of_true rfl ⟨fault, .head _, hending⟩, ?_, ?_⟩
      · rw [handleAll, hhandle, hending]
        rfl
      · rw [hsent₁, Fault.handled, hending]
        simp only [List.map_cons, List.map_nil, Format.writeAll, List.flatMap_cons,
          List.flatMap_nil, List.append_nil]
      · rw [hpanel₁, Fault.handled, hending]
        rfl
    | returns frame =>
      obtain ⟨s', halted, hrun, hhalted, hsent, hpanel⟩ := ih s₁
      have hnot : fault.ending ≠ .halts := by
        rw [hending]
        exact Ending.noConfusion
      refine ⟨s', halted, ?_, hhalted.trans ?_, ?_, ?_⟩
      · rw [handleAll, hhandle, hending]
        exact hrun
      · simp only [List.mem_cons, exists_eq_or_imp, hnot, false_or]
      · rw [hsent, hsent₁, hport₁, Fault.handled, hending, List.append_assoc]
        split <;> rfl
      · rw [hpanel, hpanel₁, Fault.handled, hending]
        rfl

end Console

end Eterna
