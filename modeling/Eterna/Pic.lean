import Eterna.Interrupts
import Eterna.Library.Runs

/-!
# The interrupt controllers

`remap_pic` and `end_of_interrupt` of `interrupts.cc`, on a model of the two 8259 chips they
program.  A chip takes a sequence of initialisation words after a command word with bit 4 set, and
mask words after that.  The kernel sends two kinds of command words, the one that starts the
initialisation and the non-specific end of interrupt; other command words are ignored.

* `Pics.remapPic_spec` : from any state of the chips `remap_pic` ends with both initialised, and
  with the masks it has found;
* `Pics.ports_call` : on initialised chips, the mask functions work as on ports that hold the last
  byte written;
* `vectors_follow_lines` : so in every run each line has its vector, and its mask is as asked for.
-/

namespace Eterna

open Runs

/-! ### One chip -/

/-- The word that a chip expects next at its data port. -/
inductive DataWord where
  | icw2
  | icw3
  | icw4
  /-- The mask; the chip is initialised. -/
  | ocw1
  deriving DecidableEq

/-- An 8259 chip. -/
structure Pic8259 where
  /-- The lines that request an interrupt. -/
  requests : BitVec 8
  /-- The lines whose interrupts are being served. -/
  inService : BitVec 8
  /-- The lines that are masked. -/
  mask : BitVec 8
  /-- The vector of line 0. -/
  vectorBase : BitVec 8
  /-- `ICW3`: the lines of a master with a slave, or the identity of a slave. -/
  cascade : BitVec 8
  /-- `ICW4_8086`. -/
  mode8086 : Bool
  /-- The chip is alone, so there is no `ICW3`. -/
  single : Bool
  /-- `ICW1_ICW4`. -/
  wantsIcw4 : Bool
  /-- What comes next at the data port. -/
  expected : DataWord

/-- `PIC_EOI`. -/
def picEoi : BitVec 8 := 0x20#8

/-- `ICW1_INIT`. -/
def icw1Init : BitVec 8 := 0x10#8

/-- `ICW1_ICW4`. -/
def icw1Icw4 : BitVec 8 := 0x01#8

/-- `ICW4_8086`. -/
def icw48086 : BitVec 8 := 0x01#8

/-- `PIC_IRQ_VECTOR_OFFSET`. -/
def picIrqVectorOffset : BitVec 8 := 0x20#8

/-- The bits with bit `i` set to `b`. -/
def setLine (x : BitVec 8) (i : ℕ) (b : Bool) : BitVec 8 :=
  if b then x ||| 1#8 <<< i else x &&& ~~~(1#8 <<< i)

/-- The first of the eight lines with the property. -/
def firstLine (p : ℕ → Bool) : Option ℕ := (List.range 8).find? p

namespace Pic8259

/-- A write to the command port. -/
def outCommand (c : Pic8259) (value : BitVec 8) : Pic8259 :=
  if value.getLsbD 4 then
    { c with
      requests := 0#8
      mask := 0#8
      mode8086 := false
      single := value.getLsbD 1
      wantsIcw4 := value.getLsbD 0
      expected := .icw2 }
  else if value = picEoi then
    match firstLine c.inService.getLsbD with
    | some i => { c with inService := setLine c.inService i false }
    | none => c
  else c

/-- What is expected after the vector base and the cascade word. -/
def afterIcw3 (c : Pic8259) : DataWord := if c.wantsIcw4 then .icw4 else .ocw1

/-- A write to the data port. -/
def outData (c : Pic8259) (value : BitVec 8) : Pic8259 :=
  match c.expected with
  | .icw2 =>
    { c with
      vectorBase := value &&& 0xf8#8
      expected := if c.single then c.afterIcw3 else .icw3 }
  | .icw3 => { c with cascade := value, expected := c.afterIcw3 }
  | .icw4 => { c with mode8086 := value.getLsbD 0, expected := .ocw1 }
  | .ocw1 => { c with mask := value }

/-- The line whose interrupt the chip passes on: the first one that requests it, is not masked, and
comes before all lines in service. -/
def pending (c : Pic8259) (requests : BitVec 8) : Option ℕ :=
  firstLine fun i => requests.getLsbD i && !c.mask.getLsbD i &&
    (List.range (i + 1)).all fun j => !c.inService.getLsbD j

/-- The interrupt of a line is acknowledged. -/
def accept (c : Pic8259) (i : ℕ) : Pic8259 :=
  { c with requests := setLine c.requests i false, inService := setLine c.inService i true }

/-- The chip is initialised. -/
structure Initialised (c : Pic8259) (vectorBase cascade : BitVec 8) : Prop where
  vectorBase_eq : c.vectorBase = vectorBase
  cascade_eq : c.cascade = cascade
  mode8086 : c.mode8086 = true
  expected_eq : c.expected = .ocw1

end Pic8259

/-! ### Both chips -/

/-- `PIC1_COMMAND`. -/
def pic1Command : ℕ := 0x20

/-- `PIC2_COMMAND`. -/
def pic2Command : ℕ := 0xa0

/-- The two chips.  The slave is wired to line 2 of the master. -/
structure Pics where
  /-- The chip of lines 0 to 7. -/
  master : Pic8259
  /-- The chip of lines 8 to 15. -/
  slave : Pic8259

/-- An interrupt that has been acknowledged. -/
structure Acknowledged where
  /-- The line. -/
  line : ℕ
  /-- The vector that the chip gave to the processor. -/
  vector : BitVec 8

namespace Pics

/-- `in8`.  Ports of no chip read as 0xff. -/
def in8 (p : Pics) (port : ℕ) : BitVec 8 :=
  if port = pic1Data then p.master.mask
  else if port = pic2Data then p.slave.mask
  else if port = pic1Command then p.master.requests
  else if port = pic2Command then p.slave.requests
  else 0xff#8

/-- `out8`.  Ports of no chip ignore what is written. -/
def out8 (p : Pics) (port : ℕ) (value : BitVec 8) : Pics :=
  if port = pic1Data then { p with master := p.master.outData value }
  else if port = pic2Data then { p with slave := p.slave.outData value }
  else if port = pic1Command then { p with master := p.master.outCommand value }
  else if port = pic2Command then { p with slave := p.slave.outCommand value }
  else p

/-- `io_wait`. -/
def ioWait (p : Pics) : Pics := p.out8 0x80 0#8

/-- `remap_pic`. -/
def remapPic (p : Pics) : Pics :=
  let parentMasks := p.in8 pic1Data
  let p := p.ioWait
  let childMasks := p.in8 pic2Data
  let p := p.ioWait
  let p := (p.out8 pic1Command (icw1Init ||| icw1Icw4)).ioWait
  let p := (p.out8 pic2Command (icw1Init ||| icw1Icw4)).ioWait
  let p := (p.out8 pic1Data picIrqVectorOffset).ioWait
  let p := (p.out8 pic2Data (picIrqVectorOffset + 8#8)).ioWait
  let p := (p.out8 pic1Data 4#8).ioWait
  let p := (p.out8 pic2Data 2#8).ioWait
  let p := (p.out8 pic1Data icw48086).ioWait
  let p := (p.out8 pic2Data icw48086).ioWait
  let p := (p.out8 pic1Data parentMasks).ioWait
  (p.out8 pic2Data childMasks).ioWait

/-- `end_of_interrupt`. -/
def endOfInterrupt (p : Pics) (irq : BitVec 8) : Pics :=
  let p := if 8#8 ≤ irq then p.out8 pic2Command picEoi else p
  p.out8 pic1Command picEoi

/-- `enable_interrupt`. -/
def enableInterrupt (p : Pics) (irq : BitVec 8) : Pics :=
  if 15#8 < irq then p
  else
    let port := if irq < 8#8 then pic1Data else pic2Data
    let irq := if irq < 8#8 then irq else irq - 8#8
    let value := (((p.in8 port).setWidth 32) &&& ~~~irqBit irq).setWidth 8
    p.out8 port value

/-- `disable_interrupt`. -/
def disableInterrupt (p : Pics) (irq : BitVec 8) : Pics :=
  if 15#8 < irq then p
  else
    let port := if irq < 8#8 then pic1Data else pic2Data
    let irq := if irq < 8#8 then irq else irq - 8#8
    let value := (((p.in8 port).setWidth 32) ||| irqBit irq).setWidth 8
    p.out8 port value

/-- `disable_all_interrupts`. -/
def disableAllInterrupts (p : Pics) : Pics := (p.out8 pic1Data 0#8).out8 pic2Data 0#8

/-- A call of the mask API. -/
def call (p : Pics) : MaskCall → Pics
  | .enable irq => p.enableInterrupt irq
  | .disable irq => p.disableInterrupt irq
  | .disableAll => p.disableAllInterrupts

/-- A device raises its line. -/
def raise (p : Pics) (line : ℕ) : Pics :=
  if line < 8 then { p with master := { p.master with
      requests := setLine p.master.requests line true } }
  else { p with slave := { p.slave with requests := setLine p.slave.requests (line - 8) true } }

/-- The lines that request an interrupt at the master: line 2 is that of the slave. -/
def masterRequests (p : Pics) : BitVec 8 :=
  setLine p.master.requests 2 (p.slave.pending p.slave.requests).isSome

/-- The processor acknowledges the interrupt that the master passes on.  If that is the one of a
line with a slave, the slave gives the vector; without a request it gives that of its line 7. -/
def acknowledge (p : Pics) : Option (Acknowledged × Pics) :=
  match p.master.pending p.masterRequests with
  | none => none
  | some i =>
    if p.master.cascade.getLsbD i then
      match p.slave.pending p.slave.requests with
      | some j => some (⟨8 + j, p.slave.vectorBase + BitVec.ofNat 8 j⟩,
          ⟨p.master.accept i, p.slave.accept j⟩)
      | none => some (⟨8 + 7, p.slave.vectorBase + 7#8⟩, { p with master := p.master.accept i })
    else some (⟨i, p.master.vectorBase + BitVec.ofNat 8 i⟩, { p with master := p.master.accept i })

/-- Both chips are initialised: their lines have the vectors from 0x20 on, and the slave is on line
2 of the master. -/
structure Initialised (p : Pics) : Prop where
  master : p.master.Initialised 0x20#8 4#8
  slave : p.slave.Initialised 0x28#8 2#8

/-! ### Initialisation -/

/-- The five words that `remap_pic` sends to each chip. -/
theorem initialise (c : Pic8259) {vectorBase : BitVec 8}
    (hbase : vectorBase &&& 0xf8#8 = vectorBase) (cascade mask : BitVec 8) :
    ((((c.outCommand (icw1Init ||| icw1Icw4)).outData vectorBase).outData cascade).outData
      icw48086).outData mask =
      { c with
        requests := 0#8
        mask := mask
        vectorBase := vectorBase
        cascade := cascade
        mode8086 := true
        single := false
        wantsIcw4 := true
        expected := .ocw1 } := by
  have hinit : (icw1Init ||| icw1Icw4).getLsbD 4 = true ∧
      (icw1Init ||| icw1Icw4).getLsbD 1 = false ∧ (icw1Init ||| icw1Icw4).getLsbD 0 = true ∧
      icw48086.getLsbD 0 = true := by decide
  simp only [Pic8259.outCommand, Pic8259.outData, Pic8259.afterIcw3, hinit, hbase, ↓reduceIte,
    Bool.false_eq_true]

/-- Each chip is sent its own words. -/
theorem remapPic_eq (p : Pics) : p.remapPic =
    ⟨((((p.master.outCommand (icw1Init ||| icw1Icw4)).outData 0x20#8).outData 4#8).outData
        icw48086).outData p.master.mask,
      ((((p.slave.outCommand (icw1Init ||| icw1Icw4)).outData 0x28#8).outData 2#8).outData
        icw48086).outData p.slave.mask⟩ := rfl

/-- **`remap_pic` from any state of the chips**, also from the middle of another initialisation:
both are initialised, with the masks they had, and nothing is requested. -/
theorem remapPic_spec (p : Pics) : p.remapPic.Initialised ∧
    p.remapPic.master.mask = p.master.mask ∧ p.remapPic.slave.mask = p.slave.mask ∧
    p.remapPic.master.inService = p.master.inService ∧
    p.remapPic.slave.inService = p.slave.inService ∧
    p.remapPic.master.requests = 0#8 ∧ p.remapPic.slave.requests = 0#8 := by
  rw [remapPic_eq, initialise p.master (by decide), initialise p.slave (by decide)]
  exact ⟨⟨⟨rfl, rfl, rfl, rfl⟩, ⟨rfl, rfl, rfl, rfl⟩⟩, rfl, rfl, rfl, rfl, rfl, rfl⟩

/-! ### The mask functions on initialised chips -/

/-- The chips as ports of which only those of the masks matter. -/
def ports (p : Pics) : Ports := fun port =>
  if port = pic1Data then p.master.mask else if port = pic2Data then p.slave.mask else 0xff#8

variable {p q : Pics}

/-- Nothing but the masks has changed. -/
structure SameButMasks (p q : Pics) : Prop where
  master : q.master = { p.master with mask := q.master.mask }
  slave : q.slave = { p.slave with mask := q.slave.mask }

theorem SameButMasks.refl (p : Pics) : SameButMasks p p := ⟨rfl, rfl⟩

theorem SameButMasks.trans {r : Pics} (h : SameButMasks p q) (h' : SameButMasks q r) :
    SameButMasks p r := by
  refine ⟨?_, ?_⟩
  · rw [h'.master, h.master]
  · rw [h'.slave, h.slave]

theorem SameButMasks.initialised (h : SameButMasks p q) (hp : p.Initialised) : q.Initialised := by
  obtain ⟨⟨h1, h2, h3, h4⟩, ⟨h5, h6, h7, h8⟩⟩ := hp
  refine ⟨⟨?_, ?_, ?_, ?_⟩, ⟨?_, ?_, ?_, ?_⟩⟩
  all_goals first | rw [h.master] | rw [h.slave]
  all_goals assumption

/-- A write to the data port of an initialised chip sets its mask. -/
theorem ports_out8 (hp : p.Initialised) {port : ℕ} (hport : port = pic1Data ∨ port = pic2Data)
    (value : BitVec 8) : (p.out8 port value).ports = p.ports.out8 port value ∧
      SameButMasks p (p.out8 port value) ∧ p.in8 port = p.ports.in8 port := by
  obtain rfl | rfl := hport
  · have hout : p.out8 pic1Data value = { p with master := { p.master with mask := value } } := by
      simp only [out8, ↓reduceIte, Pic8259.outData, hp.master.expected_eq]
    rw [hout]
    refine ⟨funext fun port => ?_, ⟨rfl, rfl⟩, rfl⟩
    by_cases h1 : port = pic1Data <;> simp only [ports, Ports.out8, h1, ↓reduceIte]
  · have hne : pic2Data ≠ pic1Data := by decide
    have hout : p.out8 pic2Data value = { p with slave := { p.slave with mask := value } } := by
      simp only [out8, hne, ↓reduceIte, Pic8259.outData, hp.slave.expected_eq]
    rw [hout]
    refine ⟨funext fun port => ?_, ⟨rfl, rfl⟩, rfl⟩
    by_cases h2 : port = pic2Data
    · simp only [ports, Ports.out8, h2, hne, ↓reduceIte]
    · simp only [ports, Ports.out8, h2, ↓reduceIte]

/-- **The mask functions** do to the chips what they do to plain ports. -/
theorem ports_call (hp : p.Initialised) (c : MaskCall) :
    (p.call c).ports = p.ports.call c ∧ SameButMasks p (p.call c) := by
  have hport : ∀ irq : BitVec 8, (if irq < 8#8 then pic1Data else pic2Data) = pic1Data ∨
      (if irq < 8#8 then pic1Data else pic2Data) = pic2Data := fun irq => by
    split
    · exact .inl rfl
    · exact .inr rfl
  cases c with
  | enable irq =>
    simp only [call, enableInterrupt, Ports.call, Ports.enableInterrupt]
    split
    · exact ⟨rfl, .refl p⟩
    · rw [(ports_out8 hp (hport irq) 0#8).2.2]
      exact ⟨(ports_out8 hp (hport irq) _).1, (ports_out8 hp (hport irq) _).2.1⟩
  | disable irq =>
    simp only [call, disableInterrupt, Ports.call, Ports.disableInterrupt]
    split
    · exact ⟨rfl, .refl p⟩
    · rw [(ports_out8 hp (hport irq) 0#8).2.2]
      exact ⟨(ports_out8 hp (hport irq) _).1, (ports_out8 hp (hport irq) _).2.1⟩
  | disableAll =>
    obtain ⟨h1, hsame1, -⟩ := ports_out8 hp (.inl rfl) 0#8
    obtain ⟨h2, hsame2, -⟩ := ports_out8 (hsame1.initialised hp) (.inr rfl) 0#8
    exact ⟨h2.trans (congrArg (Ports.out8 · pic2Data 0#8) h1), hsame1.trans hsame2⟩

/-! ### Acknowledging -/

/-- The line requests an interrupt. -/
def requested (p : Pics) (line : ℕ) : Bool :=
  if line < 8 then p.master.requests.getLsbD line else p.slave.requests.getLsbD (line - 8)

/-- The line is in service. -/
def serving (p : Pics) (line : ℕ) : Bool :=
  if line < 8 then p.master.inService.getLsbD line else p.slave.inService.getLsbD (line - 8)

theorem masked_ports (p : Pics) (line : ℕ) : p.ports.masked line =
    if line < 8 then p.master.mask.getLsbD line else p.slave.mask.getLsbD (line - 8) := by
  simp [Ports.masked, Ports.in8, ports, show pic2Data ≠ pic1Data by decide]

end Pics

theorem firstLine_eq_some {p : ℕ → Bool} {i : ℕ} :
    firstLine p = some i ↔ i < 8 ∧ p i = true ∧ ∀ j < i, p j = false := by
  rw [firstLine, List.find?_range_eq_some]
  simp only [List.mem_range, Bool.not_eq_true']
  exact and_left_comm

theorem getLsbD_setLine (x : BitVec 8) {i k : ℕ} (hk : k < 8) (b : Bool) :
    (setLine x i b).getLsbD k = if k = i then b else x.getLsbD k := by
  have hbit : (1#8 <<< i).getLsbD k = decide (k = i) := by
    by_cases h : k = i
    · simp [h, h ▸ hk]
    · by_cases hlt : k < i
      · simp [h, hlt]
      · have hpos : k - i ≠ 0 := by omega
        simp [h, hpos]
  cases b
  · simp only [setLine, Bool.false_eq_true, ↓reduceIte, BitVec.getLsbD_and, BitVec.getLsbD_not,
      hbit, hk, decide_true, Bool.true_and]
    split_ifs with h <;> simp [h]
  · simp only [setLine, ↓reduceIte, BitVec.getLsbD_or, hbit]
    split_ifs with h <;> simp [h]

theorem Pic8259.pending_eq_some {c : Pic8259} {requests : BitVec 8} {i : ℕ}
    (h : c.pending requests = some i) : i < 8 ∧ requests.getLsbD i = true ∧
      c.mask.getLsbD i = false ∧ ∀ j ≤ i, c.inService.getLsbD j = false := by
  obtain ⟨hi, hp, -⟩ := firstLine_eq_some.1 h
  simp only [Bool.and_eq_true, Bool.not_eq_true', List.all_eq_true, List.mem_range] at hp
  exact ⟨hi, hp.1.1, hp.1.2, fun j hj => hp.2 j (by omega)⟩

namespace Pics

variable {p q : Pics} {a : Acknowledged}

/-- What an acknowledged interrupt is: one of a line that requests it, is not masked, and has no
line before it on its chip in service. -/
structure Accepts (p : Pics) (a : Acknowledged) (q : Pics) : Prop where
  line_lt : a.line < 16
  vector_eq : a.vector.toNat = 0x20 + a.line
  requested : p.requested a.line = true
  unmasked : p.ports.masked a.line = false
  idle : ∀ line ≤ a.line, (line < 8 ↔ a.line < 8) → p.serving line = false
  /-- The line is now in service, and if it is one of the slave then so is line 2. -/
  serving : ∀ line < 16, q.serving line =
    (decide (line = a.line ∨ line = 2 ∧ 8 ≤ a.line) || p.serving line)
  requests : ∀ line < 16, q.requested line =
    if line = a.line ∨ line = 2 ∧ 8 ≤ a.line then false else p.requested line
  masks : q.ports = p.ports

theorem toNat_vector {base : BitVec 8} {i : ℕ} (hbase : base.toNat ≤ 0x80) (hi : i < 8) :
    (base + BitVec.ofNat 8 i).toNat = base.toNat + i := by
  rw [BitVec.toNat_add, BitVec.toNat_ofNat]
  omega

/-- An interrupt of a line of the master. -/
theorem accepts_master {i : ℕ} (hp : p.Initialised)
    (hi : p.master.pending p.masterRequests = some i) (hne : i ≠ 2) :
    p.Accepts ⟨i, p.master.vectorBase + BitVec.ofNat 8 i⟩
      { p with master := p.master.accept i } := by
  obtain ⟨hi8, hreq, hmask, hidle⟩ := Pic8259.pending_eq_some hi
  rw [masterRequests, getLsbD_setLine _ hi8, if_neg hne] at hreq
  refine ⟨by dsimp only; omega, ?_, ?_, ?_, fun line hle hiff => ?_, fun line hlt => ?_,
    fun line hlt => ?_, rfl⟩
  · rw [hp.master.vectorBase_eq]
    exact toNat_vector (by decide) hi8
  · simp only [requested, hi8, ↓reduceIte, hreq]
  · simp only [masked_ports, hi8, ↓reduceIte, hmask]
  · have hlt : line < 8 := hiff.2 hi8
    simp only [Pics.serving, hlt, ↓reduceIte, hidle line hle]
  · have hiff : (line = i ∨ line = 2 ∧ 8 ≤ i) ↔ line = i := by omega
    by_cases hlt8 : line < 8
    · simp only [Pics.serving, hlt8, ↓reduceIte, Pic8259.accept, getLsbD_setLine _ hlt8, hiff]
      split_ifs with hsame <;> simp [hsame]
    · have hother : ¬ (line = i ∨ line = 2 ∧ 8 ≤ i) := by omega
      simp only [Pics.serving, hlt8, ↓reduceIte, hother, decide_false, Bool.false_or]
  · have hiff : (line = i ∨ line = 2 ∧ 8 ≤ i) ↔ line = i := by omega
    by_cases hlt8 : line < 8
    · simp only [requested, hlt8, ↓reduceIte, Pic8259.accept, getLsbD_setLine _ hlt8, hiff]
    · have hother : ¬ (line = i ∨ line = 2 ∧ 8 ≤ i) := by omega
      simp only [requested, hlt8, ↓reduceIte, hother]

/-- An interrupt of a line of the slave. -/
theorem accepts_slave {j : ℕ} (hp : p.Initialised)
    (hj : p.slave.pending p.slave.requests = some j) :
    p.Accepts ⟨8 + j, p.slave.vectorBase + BitVec.ofNat 8 j⟩
      ⟨p.master.accept 2, p.slave.accept j⟩ := by
  obtain ⟨hj8, hreq, hmask, hidle⟩ := Pic8259.pending_eq_some hj
  have hge : ¬ 8 + j < 8 := by omega
  refine ⟨by dsimp only; omega, ?_, ?_, ?_, fun line hle hiff => ?_, fun line hlt => ?_,
    fun line hlt => ?_, rfl⟩
  · rw [hp.slave.vectorBase_eq]
    refine (toNat_vector (by decide) hj8).trans ?_
    show 0x28 + j = 0x20 + (8 + j)
    omega
  · simp only [requested, hge, ↓reduceIte, Nat.add_sub_cancel_left, hreq]
  · simp only [masked_ports, hge, ↓reduceIte, Nat.add_sub_cancel_left, hmask]
  · have hlt : ¬ line < 8 := fun h => hge (hiff.1 h)
    dsimp only at hle
    simp only [Pics.serving, hlt, ↓reduceIte, hidle (line - 8) (by omega)]
  · by_cases hlt8 : line < 8
    · have hiff : (line = 8 + j ∨ line = 2 ∧ 8 ≤ 8 + j) ↔ line = 2 := by omega
      simp only [Pics.serving, hlt8, ↓reduceIte, Pic8259.accept, getLsbD_setLine _ hlt8, hiff]
      split_ifs with hsame <;> simp [hsame]
    · have hiff : (line = 8 + j ∨ line = 2 ∧ 8 ≤ 8 + j) ↔ line - 8 = j := by omega
      have hlt' : line - 8 < 8 := by omega
      simp only [Pics.serving, hlt8, ↓reduceIte, Pic8259.accept, getLsbD_setLine _ hlt', hiff]
      split_ifs with hsame <;> simp [hsame]
  · by_cases hlt8 : line < 8
    · have hiff : (line = 8 + j ∨ line = 2 ∧ 8 ≤ 8 + j) ↔ line = 2 := by omega
      simp only [requested, hlt8, ↓reduceIte, Pic8259.accept, getLsbD_setLine _ hlt8, hiff]
    · have hiff : (line = 8 + j ∨ line = 2 ∧ 8 ≤ 8 + j) ↔ line - 8 = j := by omega
      have hlt' : line - 8 < 8 := by omega
      simp only [requested, hlt8, ↓reduceIte, Pic8259.accept, getLsbD_setLine _ hlt', hiff]

/-- **One acknowledgement** on initialised chips.  The slave never has to make up a request. -/
theorem Initialised.acknowledge (hp : p.Initialised) (h : p.acknowledge = some (a, q)) :
    p.Accepts a q ∧ q.Initialised := by
  have hkept : ∀ {c : Pic8259} {b d : BitVec 8} (i : ℕ), c.Initialised b d →
      (c.accept i).Initialised b d := fun i hc => ⟨hc.1, hc.2, hc.3, hc.4⟩
  unfold Pics.acknowledge at h
  split at h
  next => cases h
  next i hi =>
    obtain ⟨hi8, hreq, -⟩ := Pic8259.pending_eq_some hi
    have hcascade : p.master.cascade.getLsbD i = decide (i = 2) := by
      have hbits : ∀ i < 8, (4#8).getLsbD i = decide (i = 2) := by decide
      rw [hp.master.cascade_eq, hbits i hi8]
    rw [hcascade] at h
    by_cases hslave : i = 2
    · -- the master passes on line 2 because the slave has a request
      subst hslave
      rw [masterRequests, getLsbD_setLine _ hi8, if_pos rfl, Option.isSome_iff_exists] at hreq
      obtain ⟨j, hj⟩ := hreq
      simp only [decide_true, ↓reduceIte, hj] at h
      obtain ⟨rfl, rfl⟩ := Prod.mk.inj (Option.some.inj h)
      exact ⟨accepts_slave hp hj, hkept 2 hp.master, hkept j hp.slave⟩
    · simp only [hslave, decide_false, Bool.false_eq_true, ↓reduceIte] at h
      obtain ⟨rfl, rfl⟩ := Prod.mk.inj (Option.some.inj h)
      exact ⟨accepts_master hp hi hslave, hkept i hp.master, hp.slave⟩

/-! ### The end of an interrupt -/

theorem outCommand_picEoi (c : Pic8259) : c.outCommand picEoi =
    { c with inService :=
        (firstLine c.inService.getLsbD).elim c.inService (setLine c.inService · false) } := by
  have hbit : picEoi.getLsbD 4 = false := by decide
  unfold Pic8259.outCommand
  rw [if_neg (by rw [hbit]; decide), if_pos rfl]
  cases firstLine c.inService.getLsbD <;> rfl

theorem endOfInterrupt_eq (p : Pics) (irq : BitVec 8) : p.endOfInterrupt irq =
    ⟨p.master.outCommand picEoi,
      if 8#8 ≤ irq then p.slave.outCommand picEoi else p.slave⟩ := by
  unfold endOfInterrupt
  split_ifs <;> rfl

theorem Initialised.endOfInterrupt (hp : p.Initialised) (irq : BitVec 8) :
    (p.endOfInterrupt irq).Initialised ∧ (p.endOfInterrupt irq).ports = p.ports ∧
      ∀ line, (p.endOfInterrupt irq).requested line = p.requested line := by
  have hkept : ∀ {c : Pic8259} {b d : BitVec 8}, c.Initialised b d →
      (c.outCommand picEoi).Initialised b d := fun hc => by
    rw [outCommand_picEoi]
    exact ⟨hc.1, hc.2, hc.3, hc.4⟩
  rw [endOfInterrupt_eq]
  refine ⟨⟨hkept hp.master, ?_⟩, ?_, fun line => ?_⟩
  · dsimp only
    split_ifs
    · exact hkept hp.slave
    · exact hp.slave
  · simp only [outCommand_picEoi]
    split_ifs <;> rfl
  · simp only [requested, outCommand_picEoi]
    split_ifs <;> rfl

theorem Initialised.raise (hp : p.Initialised) (line : ℕ) :
    (p.raise line).Initialised ∧ (p.raise line).ports = p.ports := by
  obtain ⟨⟨h1, h2, h3, h4⟩, ⟨h5, h6, h7, h8⟩⟩ := hp
  unfold Pics.raise
  split_ifs
  · exact ⟨⟨⟨h1, h2, h3, h4⟩, ⟨h5, h6, h7, h8⟩⟩, rfl⟩
  · exact ⟨⟨⟨h1, h2, h3, h4⟩, ⟨h5, h6, h7, h8⟩⟩, rfl⟩

/-! ### All events -/

end Pics

/-- What happens to the chips once they are initialised. -/
inductive PicEvent where
  /-- A call of the mask API. -/
  | mask (c : MaskCall)
  /-- A device raises its line. -/
  | raise (line : ℕ)
  /-- `end_of_interrupt(irq)`. -/
  | eoi (irq : BitVec 8)
  /-- The processor acknowledges an interrupt. -/
  | acknowledge (a : Acknowledged)

/-- The call of the mask API, if it is one. -/
def PicEvent.call? : PicEvent → Option MaskCall
  | .mask c => some c
  | _ => none

/-- One event. -/
def PicStep (p : Pics) (e : PicEvent) (q : Pics) : Prop :=
  match e with
  | .mask c => q = p.call c
  | .raise line => q = p.raise line
  | .eoi irq => q = p.endOfInterrupt irq
  | .acknowledge a => p.acknowledge = some (a, q)

theorem PicStep.spec {p q : Pics} {e : PicEvent} (hp : p.Initialised) (h : PicStep p e q) :
    q.Initialised ∧ q.ports = (e.call?.toList).foldl Ports.call p.ports := by
  cases e with
  | mask c =>
    obtain rfl := h
    obtain ⟨hports, hsame⟩ := Pics.ports_call hp c
    exact ⟨hsame.initialised hp, hports⟩
  | raise line =>
    obtain rfl := h
    exact hp.raise line
  | eoi irq =>
    obtain rfl := h
    exact ⟨(hp.endOfInterrupt irq).1, (hp.endOfInterrupt irq).2.1⟩
  | acknowledge a =>
    obtain ⟨haccepts, hq⟩ := hp.acknowledge h
    exact ⟨hq, haccepts.masks⟩

/-- **After `remap_pic`**, whatever state it has found the chips in, and in every run of mask calls,
requests, acknowledgements and ends of interrupts: the mask of each line is what the mask calls
alone make of the mask before `remap_pic`, and an interrupt that the processor acknowledges is that
of an unmasked line that requests it, comes before the lines in service on its chip, and has the
vector 32 + line, which is none of the processor's own exceptions. -/
theorem vectors_follow_lines (p : Pics) {events : List PicEvent} {q : Pics}
    (hrun : Run PicStep p.remapPic events q) :
    (∀ line < 16, q.ports.masked line =
      (p.ports.run (events.filterMap PicEvent.call?)).masked line) ∧
    ∀ a q', q.acknowledge = some (a, q') → a.line < 16 ∧ a.vector.toNat = 0x20 + a.line ∧
      q.requested a.line = true ∧ q.ports.masked a.line = false ∧
      ∀ line ≤ a.line, (line < 8 ↔ a.line < 8) → q.serving line = false := by
  obtain ⟨hinit, hmaster, hslave, -⟩ := p.remapPic_spec
  have hstart : p.remapPic.ports = p.ports := by
    funext port
    simp only [Pics.ports, hmaster, hslave]
  have hinv : q.Initialised ∧ q.ports = p.ports.run (events.filterMap PicEvent.call?) := by
    refine hrun.trace_invariant (I := fun events q =>
      q.Initialised ∧ q.ports = p.ports.run (events.filterMap PicEvent.call?)) ⟨hinit, hstart⟩ ?_
    rintro events q e q' ⟨hq, hports⟩ hstep
    obtain ⟨hq', hports'⟩ := hstep.spec hq
    refine ⟨hq', ?_⟩
    rw [hports', hports, Ports.run, Ports.run, List.filterMap_append, List.foldl_append]
    cases he : e.call? <;> simp [he]
  refine ⟨fun line _ => by rw [hinv.2], fun a q' hack => ?_⟩
  obtain ⟨haccepts, -⟩ := hinv.1.acknowledge hack
  exact ⟨haccepts.line_lt, haccepts.vector_eq, haccepts.requested, haccepts.unmasked,
    haccepts.idle⟩

/-- Chips in the middle of an initialisation, with all lines masked. -/
def Pics.midway : Pics where
  master := ⟨0, 0, 0xff, 0x08, 0, false, false, true, .icw3⟩
  slave := ⟨0, 0, 0xff, 0x70, 0, false, true, false, .icw2⟩

theorem vectors_follow_lines_midway : ∃ q,
    Run PicStep Pics.midway.remapPic [.mask (.enable irqUartCom1), .raise 4] q ∧
    q.ports.masked 4 = false ∧
    ∀ a q', q.acknowledge = some (a, q') → a.vector.toNat = 0x20 + a.line := by
  have henable : PicStep Pics.midway.remapPic (.mask (.enable irqUartCom1))
      (Pics.midway.remapPic.call (.enable irqUartCom1)) := rfl
  have hraise : PicStep (Pics.midway.remapPic.call (.enable irqUartCom1)) (.raise 4)
      ((Pics.midway.remapPic.call (.enable irqUartCom1)).raise 4) := rfl
  have hrun := (Run.single henable).snoc hraise
  obtain ⟨hmasks, hvectors⟩ := vectors_follow_lines Pics.midway hrun
  refine ⟨_, hrun, ?_, fun a q' hack => (hvectors a q' hack).2.1⟩
  rw [hmasks 4 (by decide)]
  decide

end Eterna
