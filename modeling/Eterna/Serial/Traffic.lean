import Eterna.Serial.Chip
import Eterna.Library.Runs

/-!
# What passes through the serial port

`out(uint8_t)` waits until the transmitter is empty "before potentially over-writing data that was
not yet sent".  While it waits, the interrupt of COM1 may call `read`.  Here the two run beside each
other, `out` one access at a time.

* `Moves` : what the driver has given to the chip and taken from it between two states;
* `Serial`, `SerialStep` : `out` between two accesses, and what may happen next;
* `Serial.outByte_run` : without interrupts the accesses are those of `SerialPort.outByte`;
* `Serial.exists_port_run` : and what is sent is what a `Port` sends;
* `Serial.serial_order` : bytes leave and arrive in order, and every lost one is accounted for.
-/

namespace Eterna

open CStrings Runs

/-! ### The bytes on the line -/

namespace Line

variable {l : Line} {t t' t'' : ℕ}

/-- The transmitter never makes `out` wait for too long. -/
def Sends (l : Line) : Prop := ∀ t, ∃ j < maxSpins, l.empties (t + j) = true

@[simp] theorem arrivals_self : l.arrivals t t = [] := by simp [arrivals]

@[simp] theorem arrivals_succ : l.arrivals t (t + 1) = (l.arrives t).toList := by
  rw [arrivals, Nat.add_sub_cancel_left, List.range'_one]
  cases h : l.arrives t <;> simp [h]

theorem arrivals_append (h : t ≤ t') (h' : t' ≤ t'') :
    l.arrivals t t' ++ l.arrivals t' t'' = l.arrivals t t'' := by
  have hsplit : List.range' t (t' - t) ++ List.range' t' (t'' - t') = List.range' t (t'' - t) := by
    have hstart : t + (t' - t) = t' := by omega
    have hlen : t' - t + (t'' - t') = t'' - t := by omega
    rw [← hlen, ← List.range'_append_1, hstart]
  rw [arrivals, arrivals, arrivals, ← List.filterMap_append, hsplit]

end Line

namespace Queues

variable {q : Queues} {r : Registers} {l : Line} {time : ℕ}

theorem push_sublist (b : UInt8) : (q.push r b).Sublist (q.receiver ++ [b]) := by
  unfold push
  split_ifs
  · exact .refl _
  · exact List.sublist_append_left _ _
  · exact List.sublist_append_right _ _

theorem length_push (h : r.buffered = false → q.receiver.length ≤ 1) (b : UInt8) :
    (q.push r b).length + (q.full r).toNat = q.receiver.length + 1 := by
  cases hbuffered : r.buffered with
  | true =>
    rw [push, full, if_pos hbuffered, if_pos hbuffered]
    by_cases hlt : q.receiver.length < r.capacity
    · rw [if_pos hlt, decide_eq_false (Nat.not_le.2 hlt), List.length_append]
      rfl
    · rw [if_neg hlt, decide_eq_true (Nat.not_lt.1 hlt)]
      rfl
  | false =>
    have hone := h hbuffered
    rw [push, full, if_neg (Bool.eq_false_iff.1 hbuffered), if_neg (Bool.eq_false_iff.1 hbuffered)]
    cases hr : q.receiver with
    | nil => rfl
    | cons c rest =>
      rw [hr, List.length_cons] at hone
      have hrest : rest = [] := List.length_eq_zero_iff.1 (by omega)
      rw [hrest]
      rfl

theorem push_ne_nil (h : q.receiver ≠ []) (b : UInt8) : q.push r b ≠ [] := by
  unfold push
  split_ifs
  · exact List.append_ne_nil_of_left_ne_nil h _
  · exact h
  · exact List.cons_ne_nil _ _

section Listening

variable (hr : r.looped = false)
include hr

theorem tick_eq : q.tick r l time =
    { receiver := (l.arrives time).elim q.receiver (q.push r)
      holding := if l.empties time then [] else q.holding
      line := if l.empties time then q.line ++ q.holding else q.line
      overruns := (l.arrives time).elim q.overruns fun _ => q.overruns + (q.full r).toNat } :=
  if_neg (Bool.eq_false_iff.1 hr)

theorem tick_onLine :
    (q.tick r l time).line ++ (q.tick r l time).holding = q.line ++ q.holding := by
  rw [tick_eq hr]
  cases l.empties time with
  | false => rfl
  | true => exact List.append_nil _

theorem tick_received : (q.tick r l time).receiver.Sublist
    (q.receiver ++ (l.arrives time).toList) := by
  rw [tick_eq hr]
  cases l.arrives time with
  | none => exact List.sublist_append_left _ _
  | some b => exact push_sublist b

theorem tick_counted (h : r.buffered = false → q.receiver.length ≤ 1) :
    (q.tick r l time).receiver.length + (q.tick r l time).overruns =
      q.receiver.length + (l.arrives time).toList.length + q.overruns := by
  rw [tick_eq hr]
  cases l.arrives time with
  | none => rfl
  | some b =>
    have hpush := length_push h b
    simp only [Option.elim_some, Option.toList_some, List.length_singleton]
    omega

theorem tick_ne_nil (h : q.receiver ≠ []) : (q.tick r l time).receiver ≠ [] := by
  rw [tick_eq hr]
  cases l.arrives time with
  | none => exact h
  | some b => exact push_ne_nil h b

theorem tick_single (hbuffered : r.buffered = false) (h : q.receiver.length ≤ 1) :
    (q.tick r l time).receiver.length ≤ 1 := by
  rw [tick_eq hr]
  cases l.arrives time with
  | none => exact h
  | some b =>
    rw [Option.elim_some, push_of_not_buffered hbuffered]
    exact le_rfl

theorem tick_holding : (q.tick r l time).holding = if l.empties time then [] else q.holding := by
  rw [tick_eq hr]

theorem tick_holding_nil (h : q.holding = []) : (q.tick r l time).holding = [] := by
  rw [tick_holding hr, h, ite_self]

end Listening

theorem lineStatus_ready : hasBits q.lineStatus 0b00000001 = !q.receiver.isEmpty := by
  unfold lineStatus
  cases q.receiver.isEmpty <;> cases q.holding.isEmpty <;> decide

theorem lineStatus_empty : hasBits q.lineStatus 0b00100000 = q.holding.isEmpty := by
  unfold lineStatus
  cases q.receiver.isEmpty <;> cases q.holding.isEmpty <;> decide

end Queues

/-! ### The driver and the chip between two states -/

namespace SerialPort

/-- The port is in operation. -/
structure Operating (s : SerialPort) : Prop where
  initialized : s.initialized = true
  latched : s.registers.latched = false
  looped : s.registers.looped = false
  /-- Without FIFOs there is one byte at most. -/
  single : s.registers.buffered = false → s.queues.receiver.length ≤ 1

/-- From `s` to `s'` the driver has put `out` into the data port and taken `got` from it. -/
structure Moves (l : Line) (s : SerialPort) (out got : Text) (s' : SerialPort) : Prop where
  operating : s'.Operating
  time : s.time ≤ s'.time
  sent : s'.sent = s.sent ++ out
  taken : s'.taken = s.taken ++ got
  /-- What the driver has put into the data port is on the line or will be. -/
  onLine : s'.queues.line ++ s'.queues.holding = s.queues.line ++ s.queues.holding ++ out
  /-- As long as there is something to send, the transmitter has not been empty. -/
  busy : out = [] → s'.queues.holding ≠ [] → s.queues.holding ≠ [] ∧
    ∀ t, s.time ≤ t → t < s'.time → l.empties t = false
  /-- What it has taken has arrived, and in this order. -/
  received : (got ++ s'.queues.receiver).Sublist (s.queues.receiver ++ l.arrivals s.time s'.time)
  /-- What has arrived has been taken, is there or has been lost. -/
  counted : (got ++ s'.queues.receiver).length + s'.queues.overruns =
    (s.queues.receiver ++ l.arrivals s.time s'.time).length + s.queues.overruns

variable {l : Line} {s s' s'' : SerialPort} {out out' got got' : Text}

theorem Moves.refl (h : s.Operating) : Moves l s [] [] s where
  operating := h
  time := le_rfl
  sent := (List.append_nil _).symm
  taken := (List.append_nil _).symm
  onLine := (List.append_nil _).symm
  busy _ hbusy := ⟨hbusy, fun _ hle hlt => absurd hle (Nat.not_le.2 hlt)⟩
  received := by simp
  counted := by simp

theorem Moves.trans (h : Moves l s out got s') (h' : Moves l s' out' got' s'') :
    Moves l s (out ++ out') (got ++ got') s'' where
  operating := h'.operating
  time := h.time.trans h'.time
  sent := by rw [h'.sent, h.sent, List.append_assoc]
  taken := by rw [h'.taken, h.taken, List.append_assoc]
  onLine := by rw [h'.onLine, h.onLine, List.append_assoc]
  busy hnil hbusy := by
    obtain ⟨hout, hout'⟩ := List.append_eq_nil_iff.1 hnil
    obtain ⟨hbusy', hlater⟩ := h'.busy hout' hbusy
    obtain ⟨hbusy'', hearlier⟩ := h.busy hout hbusy'
    refine ⟨hbusy'', fun t hle hlt => ?_⟩
    by_cases ht : t < s'.time
    · exact hearlier t hle ht
    · exact hlater t (Nat.not_lt.1 ht) hlt
  received := by
    have hlater := h'.received.append_left got
    have hearlier := h.received.append_right (l.arrivals s'.time s''.time)
    rw [List.append_assoc] at hearlier
    rw [List.append_assoc, ← Line.arrivals_append h.time h'.time,
      ← List.append_assoc _ _ (l.arrivals _ _)]
    exact hlater.trans hearlier
  counted := by
    have hlater := h'.counted
    have hearlier := h.counted
    rw [← Line.arrivals_append h.time h'.time]
    simp only [List.length_append] at hlater hearlier ⊢
    omega

theorem Operating.poll (h : s.Operating) : Moves l s [] [] (s.in8 l 5).2 where
  operating := ⟨h.initialized, h.latched, h.looped, fun hr =>
    Queues.tick_single h.looped hr (h.single hr)⟩
  time := Nat.le_succ _
  sent := (List.append_nil _).symm
  taken := (List.append_nil _).symm
  onLine := (Queues.tick_onLine h.looped).trans (List.append_nil _).symm
  busy _ hbusy := by
    have hholding : (s.in8 l 5).2.queues.holding =
        if l.empties s.time then [] else s.queues.holding := Queues.tick_holding h.looped
    rw [hholding] at hbusy
    cases hempty : l.empties s.time with
    | true =>
      rw [hempty] at hbusy
      exact absurd rfl hbusy
    | false =>
      rw [hempty] at hbusy
      refine ⟨hbusy, fun t hle hlt => ?_⟩
      rwa [← Nat.le_antisymm hle (Nat.le_of_lt_succ hlt)]
  received := by
    rw [List.nil_append]
    refine (Queues.tick_received h.looped).trans ?_
    rw [← Line.arrivals_succ]
    exact .refl _
  counted := by
    refine (Queues.tick_counted h.looped h.single).trans ?_
    rw [← Line.arrivals_succ, ← List.length_append]
    rfl

theorem Operating.take (h : s.Operating) (hne : s.queues.receiver ≠ []) :
    Moves l s [] [(s.in8 l 0).1] { (s.in8 l 0).2 with taken := s.taken ++ [(s.in8 l 0).1] } := by
  have hmoves := h.poll (l := l)
  let q := s.queues.tick s.registers l s.time
  have hread : s.in8 l 0 = (q.receiver.headD 0,
      { s with queues := { q with receiver := q.receiver.tail }, time := s.time + 1 }) := by
    rw [in8, Queues.read, if_neg (Bool.eq_false_iff.1 h.latched)]
  have hcons : [q.receiver.headD 0] ++ q.receiver.tail = q.receiver := by
    have hsome : q.receiver ≠ [] := Queues.tick_ne_nil h.looped hne
    cases hq : q.receiver with
    | nil => exact absurd hq hsome
    | cons b rest => rfl
  rw [hread]
  exact {
    operating := ⟨h.initialized, h.latched, h.looped, fun hr =>
      q.receiver.length_tail.trans_le ((Nat.sub_le _ 1).trans (hmoves.operating.single hr))⟩
    time := Nat.le_succ _
    sent := (List.append_nil _).symm
    taken := rfl
    onLine := hmoves.onLine
    busy := hmoves.busy
    received := by
      rw [hcons]
      exact hmoves.received
    counted := by
      rw [hcons]
      exact hmoves.counted }

theorem Operating.put (h : s.Operating) (hnil : s.queues.holding = []) (b : UInt8) :
    Moves l s [b] [] { s.out8 l 0 b with sent := s.sent ++ [b] } := by
  have hmoves := h.poll (l := l)
  let q := s.queues.tick s.registers l s.time
  have hq : q.holding = [] := Queues.tick_holding_nil h.looped hnil
  have hwrite : s.out8 l 0 b =
      { s with queues := { q with holding := [b] }, time := s.time + 1 } := by
    rw [out8, Registers.write_data h.latched, Queues.write,
      if_neg (Bool.eq_false_iff.1 h.latched), if_neg (Bool.eq_false_iff.1 h.looped)]
    have hone : (if s.registers.buffered then q.holding ++ [b] else [b]) = [b] := by
      rw [hq, List.nil_append, ite_self]
    exact congrArg (fun t => { s with queues := { q with holding := t }, time := s.time + 1 }) hone
  rw [hwrite]
  exact {
    operating := ⟨h.initialized, h.latched, h.looped, hmoves.operating.single⟩
    time := Nat.le_succ _
    sent := rfl
    taken := (List.append_nil _).symm
    onLine := by
      have hline := hmoves.onLine
      rw [List.append_nil] at hline
      rw [← hline]
      show q.line ++ [b] = q.line ++ q.holding ++ [b]
      rw [hq, List.append_nil]
    busy hnil := absurd hnil (List.cons_ne_nil _ _)
    received := hmoves.received
    counted := hmoves.counted }

/-! ### `read`, as the handler of COM1 calls it -/

/-- The driver waits for a byte, and if it stops before `maxSpins` is used up there is one. -/
theorem Operating.spin (h : s.Operating) (n : ℕ) :
    Moves l s [] [] (spin l 0b00000001 n s).2 ∧
      ((spin l 0b00000001 n s).1 ≠ 0 → (spin l 0b00000001 n s).2.queues.receiver ≠ []) := by
  induction n generalizing s with
  | zero => exact ⟨h.poll, fun hne => absurd rfl hne⟩
  | succ n ih =>
    have hpoll := h.poll (l := l)
    rw [SerialPort.spin]
    by_cases hbit : hasBits (s.in8 l 5).1 0b00000001 = true
    · rw [if_pos hbit]
      refine ⟨hpoll, fun _ hnil => ?_⟩
      have hready : hasBits (s.in8 l 5).1 0b00000001 = !(s.in8 l 5).2.queues.receiver.isEmpty :=
        Queues.lineStatus_ready
      rw [hready, hnil] at hbit
      exact Bool.false_ne_true hbit
    · rw [if_neg hbit]
      exact ⟨hpoll.trans (ih hpoll.operating).1, (ih hpoll.operating).2⟩

/-- **`read` takes one byte or none.** -/
theorem Operating.readByte (h : s.Operating) : ∃ got, Moves l s [] got (s.readByte l).2 := by
  obtain ⟨hmoves, hready⟩ := h.spin (l := l) maxSpins
  rw [SerialPort.readByte, if_pos h.initialized]
  dsimp only
  by_cases hzero : (SerialPort.spin l 0b00000001 maxSpins s).1 = 0
  · rw [if_pos hzero]
    exact ⟨[], hmoves⟩
  · rw [if_neg hzero]
    exact ⟨_, hmoves.trans (hmoves.operating.take (hready hzero))⟩

/-! ### The port after `initialize` -/

/-- Without FIFOs there is at most one byte after the loop-back test. -/
theorem loopBack_single (hlatched : s.registers.latched = false)
    (hbuffered : s.registers.buffered = false)
    (htest : (s.looping l).headD 0 = testByte) : (s.loopBack l).queues.receiver.length ≤ 1 := by
  have hnil : ((s.tested l).out8 l 4 0b00001111).queues.receiver = [] := by
    have hlooped : (s.tested l).registers.looped = true := Registers.looped_eq_true rfl
    have hkept : ((s.tested l).out8 l 4 0b00001111).queues = (s.tested l).queues :=
      Queues.tick_looped hlooped
    have hone : s.looping l = [l.loops testByte] := Queues.push_of_not_buffered hbuffered _
    rw [hkept, tested, hone]
    rfl
  have hquiet : ((s.tested l).out8 l 4 0b00001111).registers.looped = false :=
    Registers.looped_eq_false rfl
  rw [loopBack_eq hlatched, if_neg (not_not.2 htest)]
  refine Queues.tick_single hquiet hbuffered ?_
  rw [hnil]
  exact Nat.zero_le _

/-- **After a success the port is in operation**, with nothing to send. -/
theorem operating_of_initialized (hok : (s.initializePort l).initialized = true) :
    (s.initializePort l).Operating ∧ (s.initializePort l).queues.holding = [] ∧
      (s.initializePort l).sent = s.sent ∧ (s.initializePort l).taken = s.taken := by
  obtain ⟨hsent₁, htaken₁, -⟩ := setLine_keeps (l := l) (s := s)
  obtain ⟨hsent₂, htaken₂, -⟩ := detect_keeps (l := l) (s := s.setLine l)
  obtain ⟨-, hsent₃, htaken₃⟩ := loopBack_keeps (l := l) (s := (s.setLine l).detect l)
  obtain ⟨scratch, hregisters⟩ := detect_registers (l := l) (s := s.setLine l)
  have hlatched : ((s.setLine l).detect l).registers.latched = false := by
    rw [hregisters]
    exact setLine_latched
  rw [initializePort] at hok ⊢
  have htest : (((s.setLine l).detect l).looping l).headD 0 = testByte := by
    by_contra htest
    exact Bool.false_ne_true ((loopBack_of_ne hlatched htest).1.symm.trans hok)
  obtain ⟨-, hregisters', -, hnil⟩ := loopBack_of_eq hlatched htest
  refine ⟨⟨hok, ?_, ?_, fun hbuffered => ?_⟩, hnil, hsent₃.trans (hsent₂.trans hsent₁),
    htaken₃.trans (htaken₂.trans htaken₁)⟩
  · rw [hregisters']
    exact hlatched
  · rw [hregisters']
    exact Registers.looped_eq_false rfl
  · rw [hregisters'] at hbuffered
    exact loopBack_single hlatched hbuffered htest

end SerialPort

/-! ### `out`, by the values of the line status register -/

namespace SerialPort

variable {l : Line} {s : SerialPort}

/-- What the line status register answers, one access after the other. -/
def answers (l : Line) (s : SerialPort) (i : ℕ) : UInt8 :=
  (((fun s => (SerialPort.in8 l s 5).2)^[i] s).in8 l 5).1

theorem spin_keeps (bit : UInt8) (s : SerialPort) (n : ℕ) :
    (spin l bit n s).2.sent = s.sent ∧ (spin l bit n s).2.initialized = s.initialized ∧
      s.time < (spin l bit n s).2.time := by
  induction n generalizing s with
  | zero => exact ⟨rfl, rfl, Nat.lt_succ_self _⟩
  | succ n ih =>
    rw [spin]
    split_ifs
    · exact ⟨rfl, rfl, Nat.lt_succ_self _⟩
    · obtain ⟨hsent, hinitialized, htime⟩ := ih (s.in8 l 5).2
      exact ⟨hsent, hinitialized, Nat.lt_of_succ_lt htime⟩

theorem outByte_initialized (b : UInt8) : (s.outByte l b).initialized = s.initialized := by
  rw [outByte]
  dsimp only
  split_ifs
  · exact (spin_keeps _ _ maxSpins).2.1
  · exact (spin_keeps _ _ maxSpins).2.1
  · rfl

/-- How often `out` reads the line status register. -/
def polls (l : Line) (s : SerialPort) : ℕ :=
  if s.initialized then (spin l 0b00100000 maxSpins s).2.time - s.time else 0

/-- `Port.spin` is `spin` on the values that the chip answers. -/
theorem spin_eq {status : ℕ → UInt8} {reads n : ℕ}
    (h : ∀ i < (spin l 0b00100000 n s).2.time - s.time, status (reads + i) = s.answers l i) :
    Port.spin status n reads = ((spin l 0b00100000 n s).1,
      reads + ((spin l 0b00100000 n s).2.time - s.time)) := by
  induction n generalizing s reads with
  | zero =>
    rw [Port.spin, spin]
    exact congrArg (fun k => (0, reads + k)) (Nat.add_sub_cancel_left (n := s.time) (m := 1)).symm
  | succ n ih =>
    have htime := (spin_keeps (l := l) 0b00100000 s (n + 1)).2.2
    have hfirst : status reads = (s.in8 l 5).1 := h 0 (Nat.sub_pos_of_lt htime)
    have hbit : Port.transmitEmpty (s.in8 l 5).1 ↔ hasBits (s.in8 l 5).1 0b00100000 = true :=
      decide_eq_true_iff.symm
    rw [spin] at h ⊢
    rw [Port.spin, hfirst]
    by_cases hready : hasBits (s.in8 l 5).1 0b00100000 = true
    · rw [if_pos (hbit.2 hready), if_pos hready]
      exact congrArg (fun k => (n + 1, reads + k))
        (Nat.add_sub_cancel_left (n := s.time) (m := 1)).symm
    · rw [if_neg hready] at h ⊢
      rw [if_neg fun hready' => hready (hbit.1 hready')]
      have hlater := (spin_keeps (l := l) 0b00100000 (s.in8 l 5).2 n).2.2
      have hone : (s.in8 l 5).2.time = s.time + 1 := rfl
      rw [ih fun i hi => ?_]
      · exact congrArg (Prod.mk _) (by omega)
      · rw [Nat.add_assoc, Nat.add_comm 1 i]
        exact h (i + 1) (by omega)

theorem outByte_eq {port : Port} (hinitialized : port.initialized = s.initialized)
    (hsent : port.sent = s.sent)
    (h : ∀ i < s.polls l, port.status (port.reads + i) = s.answers l i) (b : UInt8) :
    port.outByte b =
      { port with reads := port.reads + s.polls l, sent := (s.outByte l b).sent } := by
  rw [polls] at h ⊢
  rw [Port.outByte, outByte, hinitialized]
  by_cases hport : s.initialized = true
  · rw [if_pos hport] at h ⊢
    rw [if_pos hport, if_pos hport, spin_eq h]
    have hkept := (spin_keeps (l := l) 0b00100000 s maxSpins).1
    dsimp only
    by_cases hzero : (spin l 0b00100000 maxSpins s).1 = 0
    · rw [if_pos hzero, if_pos hzero, hkept, ← hsent]
    · rw [if_neg hzero, if_neg hzero, hkept, hsent]
  · rw [if_neg hport, if_neg hport, if_neg hport, ← hsent, ← hinitialized]
    rfl

/-- There are values with which a port sends what the driver sends. -/
theorem exists_status (l : Line) (s : SerialPort) (text : Text) : ∃ status : ℕ → UInt8,
    ∀ port : Port, port.initialized = s.initialized → port.sent = s.sent →
      (∀ i, port.status (port.reads + i) = status i) →
        (port.outBytes text).sent = (text.foldl (SerialPort.outByte l) s).sent := by
  induction text generalizing s with
  | nil => exact ⟨fun _ => 0, fun port _ hsent _ => hsent⟩
  | cons b text ih =>
    obtain ⟨status, hstatus⟩ := ih (s.outByte l b)
    -- those of the first byte, and then those of the others
    refine ⟨fun i => if i < s.polls l then s.answers l i else status (i - s.polls l),
      fun port hinitialized hsent h => ?_⟩
    have hbyte := outByte_eq (l := l) hinitialized hsent
      (fun i hi => (h i).trans (if_pos hi)) b
    change ((port.outByte b).outBytes text).sent = _
    rw [hbyte]
    refine hstatus _ (hinitialized.trans (outByte_initialized b).symm) rfl fun i => ?_
    change port.status (port.reads + s.polls l + i) = status i
    rw [Nat.add_assoc, h]
    dsimp only
    rw [if_neg (Nat.not_lt.2 (Nat.le_add_right _ _)), Nat.add_sub_cancel_left]

end SerialPort

/-! ### `out` beside the interrupt of COM1 -/

/-- Where `out(uint8_t)` stands between two accesses to a port. -/
inductive Sending where
  /-- It has not been called. -/
  | idle
  /-- It waits, and this is left of `maxSpins`. -/
  | waiting (byte : UInt8) (spins : ℕ)
  /-- The transmitter was empty. -/
  | ready (byte : UInt8)

/-- The byte that `out` has been called with. -/
def Sending.byte : Sending → Text
  | .idle => []
  | .waiting byte _ => [byte]
  | .ready byte => [byte]

/-- The port, and `out`. -/
structure Serial where
  /-- The driver and the chip. -/
  port : SerialPort
  /-- Where `out` stands. -/
  sending : Sending

/-- What happens next. -/
inductive SerialEvent where
  /-- `out(uint8_t)` is called. -/
  | out (byte : UInt8)
  /-- `out` goes on to its next access. -/
  | access
  /-- `uart_com1_handler` runs. -/
  | interrupt

/-- The bytes that `out` has been called with. -/
def calls (es : List SerialEvent) : Text := es.flatMap fun
  | .out byte => [byte]
  | .access => []
  | .interrupt => []

namespace Serial

variable (l : Line) (σ : Serial)

/-- `out(uint8_t)`, up to its first access. -/
def out (byte : UInt8) : Serial :=
  if σ.port.initialized then { σ with sending := .waiting byte maxSpins } else σ

/-- The next access of `out`. -/
def access : Serial :=
  match σ.sending with
  | .idle => σ
  | .waiting _ 0 => ⟨(σ.port.in8 l 5).2, .idle⟩
  | .waiting byte (spins + 1) =>
    let r := σ.port.in8 l 5
    ⟨r.2, if hasBits r.1 0b00100000 then .ready byte else .waiting byte spins⟩
  | .ready byte => ⟨{ σ.port.out8 l 0 byte with sent := σ.port.sent ++ [byte] }, .idle⟩

/-- `UART::read()` in `uart_com1_handler`, which is not interrupted. -/
def interrupt : Serial := { σ with port := (σ.port.readByte l).2 }

end Serial

/-- `out` is called only after it has returned, and an interrupt may come at any time. -/
inductive SerialStep (l : Line) : Serial → SerialEvent → Serial → Prop where
  | out {σ : Serial} (idle : σ.sending = .idle) (byte : UInt8) :
      SerialStep l σ (.out byte) (σ.out byte)
  | access {σ : Serial} (calling : σ.sending ≠ .idle) : SerialStep l σ .access (σ.access l)
  | interrupt {σ : Serial} : SerialStep l σ .interrupt (σ.interrupt l)

@[simp] theorem calls_nil : calls [] = [] := rfl

theorem calls_append (es : List SerialEvent) (e : SerialEvent) :
    calls (es ++ [e]) = calls es ++ calls [e] := List.flatMap_append

namespace Serial

variable {l : Line} {s : SerialPort} {σ σ' : Serial} {es : List SerialEvent}
  {given out got : Text}

theorem access_last {byte : UInt8} (h : σ.sending = .waiting byte 0) :
    σ.access l = ⟨(σ.port.in8 l 5).2, .idle⟩ := by
  rw [access, h]

theorem access_waiting {byte : UInt8} {n : ℕ} (h : σ.sending = .waiting byte (n + 1)) :
    σ.access l = ⟨(σ.port.in8 l 5).2,
      if hasBits (σ.port.in8 l 5).1 0b00100000 then .ready byte else .waiting byte n⟩ := by
  rw [access, h]

theorem access_ready {byte : UInt8} (h : σ.sending = .ready byte) :
    σ.access l =
      ⟨{ σ.port.out8 l 0 byte with sent := σ.port.sent ++ [byte] }, .idle⟩ := by
  rw [access, h]

/-! ### Without interrupts -/

/-- What is left of `out` when it has waited. -/
def finish (l : Line) (byte : UInt8) (r : ℕ × SerialPort) : SerialPort :=
  if r.1 = 0 then r.2 else { r.2.out8 l 0 byte with sent := r.2.sent ++ [byte] }

theorem spin_run (byte : UInt8) (n : ℕ) : ∃ k, Run (SerialStep l) ⟨s, .waiting byte n⟩
    (List.replicate k .access) ⟨finish l byte (SerialPort.spin l 0b00100000 n s), .idle⟩ := by
  induction n generalizing s with
  | zero => exact ⟨1, .single (.access fun h => nomatch h)⟩
  | succ n ih =>
    have hfirst : SerialStep l ⟨s, .waiting byte (n + 1)⟩ .access
        (access l ⟨s, .waiting byte (n + 1)⟩) := .access fun h => nomatch h
    rw [access_waiting rfl] at hfirst
    dsimp only at hfirst
    rw [SerialPort.spin]
    cases hbit : hasBits (s.in8 l 5).1 0b00100000 with
    | true =>
      rw [hbit] at hfirst
      have hlast : SerialStep l ⟨(s.in8 l 5).2, .ready byte⟩ .access
          (access l ⟨(s.in8 l 5).2, .ready byte⟩) := .access fun h => nomatch h
      exact ⟨2, .snoc (.single hfirst) hlast⟩
    | false =>
      rw [hbit] at hfirst
      obtain ⟨k, hrun⟩ := ih (s := (s.in8 l 5).2)
      exact ⟨1 + k, by
        rw [List.replicate_add]
        exact (Run.single hfirst).append hrun⟩

/-- **Without interrupts the accesses of `out` are those of one call.** -/
theorem outByte_run (h : s.initialized = true) (byte : UInt8) : ∃ k, Run (SerialStep l) ⟨s, .idle⟩
    (.out byte :: List.replicate k .access) ⟨s.outByte l byte, .idle⟩ := by
  have hcall : SerialStep l ⟨s, .idle⟩ (.out byte) ⟨s, .waiting byte maxSpins⟩ := by
    have hstep : SerialStep l ⟨s, .idle⟩ (.out byte) (Serial.out ⟨s, .idle⟩ byte) := .out rfl byte
    rwa [Serial.out, if_pos h] at hstep
  obtain ⟨k, hrun⟩ := spin_run (l := l) (s := s) byte maxSpins
  refine ⟨k, ?_⟩
  rw [SerialPort.outByte, if_pos h]
  exact (Run.single hcall).append hrun

/-- So it is with the calls for some bytes. -/
theorem outBytes_run (h : s.initialized = true) (text : Text) : ∃ es, calls es = text ∧
    (∀ e ∈ es, e ≠ .interrupt) ∧
      Run (SerialStep l) ⟨s, .idle⟩ es ⟨text.foldl (SerialPort.outByte l) s, .idle⟩ := by
  induction text generalizing s with
  | nil => exact ⟨[], rfl, fun e he => absurd he List.not_mem_nil, .nil⟩
  | cons b text ih =>
    obtain ⟨k, hfirst⟩ := outByte_run (l := l) h b
    obtain ⟨es, hcalls, hquiet, hrest⟩ := ih ((SerialPort.outByte_initialized b).trans h)
    have hnone : calls (List.replicate k .access) = [] := by
      rw [calls, List.flatMap_replicate]
      simp
    refine ⟨.out b :: List.replicate k .access ++ es, ?_, fun e he => ?_, hfirst.append hrest⟩
    · rw [← hcalls, calls, List.flatMap_append, List.flatMap_cons]
      change [b] ++ calls (List.replicate k .access) ++ calls es = b :: calls es
      rw [hnone]
      rfl
    · obtain he | he := List.mem_append.1 he
      · obtain rfl | he := List.mem_cons.1 he
        · exact nofun
        · rw [List.eq_of_mem_replicate he]
          exact nofun
      · exact hquiet e he

/-- **A port that is given by the values of its line status register** is what the driver makes of
the chip without interrupts: for every chip and every text there are values with which the port
sends what a run of `out` puts into the data port. -/
theorem exists_port_run (h : s.initialized = true) (text : Text) : ∃ (port : Port) (σ : Serial)
    (es : List SerialEvent), port.initialized = true ∧ port.sent = s.sent ∧ calls es = text ∧
      (∀ e ∈ es, e ≠ .interrupt) ∧ Run (SerialStep l) ⟨s, .idle⟩ es σ ∧ σ.sending = .idle ∧
      (port.outBytes text).sent = σ.port.sent := by
  obtain ⟨es, hcalls, hquiet, hrun⟩ := outBytes_run (l := l) h text
  obtain ⟨status, hstatus⟩ := SerialPort.exists_status l s text
  refine ⟨⟨true, status, 0, s.sent⟩, _, es, rfl, rfl, hcalls, hquiet, hrun, rfl, ?_⟩
  exact hstatus _ h.symm rfl fun i => by rw [Nat.zero_add]

/-! ### With them -/

/-- What `out` knows of the transmitter.  Of the accesses since it was called, it has used up
`maxSpins` for some that came before `stop`, and the transmitter was not empty then. -/
structure Patient (l : Line) (σ : Serial) : Prop where
  ready : ∀ byte, σ.sending = .ready byte → σ.port.queues.holding = []
  waiting : ∀ byte spins, σ.sending = .waiting byte spins → ∃ start stop,
    start + maxSpins ≤ stop + spins ∧ stop ≤ σ.port.time ∧
      (∀ t, start ≤ t → t < stop → l.empties t = false) ∧
      (σ.port.queues.holding ≠ [] → ∀ t, stop ≤ t → t < σ.port.time → l.empties t = false)

theorem Patient.later (h : σ.Patient l) {p : SerialPort} (hmoves : σ.port.Moves l [] got p) :
    Patient l ⟨p, σ.sending⟩ where
  ready byte hready := by
    by_contra hbusy
    exact (hmoves.busy rfl hbusy).1 (h.ready byte hready)
  waiting byte spins hwaiting := by
    obtain ⟨start, stop, hspins, hstop, hbefore, hafter⟩ := h.waiting byte spins hwaiting
    refine ⟨start, stop, hspins, hstop.trans hmoves.time, hbefore, fun hbusy t hle hlt => ?_⟩
    obtain ⟨hbusy', hlater⟩ := hmoves.busy rfl hbusy
    by_cases ht : t < σ.port.time
    · exact hafter hbusy' t hle ht
    · exact hlater t (Nat.not_lt.1 ht) hlt

theorem status_bit : hasBits (s.in8 l 5).1 0b00100000 = (s.in8 l 5).2.queues.holding.isEmpty :=
  Queues.lineStatus_empty

/-- What has been sent and taken since the port was `s`, of the bytes that `out` was given. -/
structure Traffic (l : Line) (s : SerialPort) (given out got : Text) (σ : Serial) : Prop where
  moves : s.Moves l out got σ.port
  patient : σ.Patient l
  called : (out ++ σ.sending.byte).Sublist given
  complete : l.Sends → out ++ σ.sending.byte = given

theorem Traffic.put (h : Traffic l s given out got σ) {byte : UInt8}
    (hready : σ.sending = .ready byte) : ∃ out' got', Traffic l s given out' got' (σ.access l) := by
  have hput := h.moves.operating.put (l := l) (h.patient.ready byte hready) byte
  have hcalled := h.called
  have hcomplete := h.complete
  rw [hready] at hcalled hcomplete
  rw [access_ready hready]
  refine ⟨out ++ [byte], got, ?_, ⟨fun b hb => (nomatch hb), fun b n hb => (nomatch hb)⟩, ?_, ?_⟩
  · have hboth := h.moves.trans hput
    rwa [List.append_nil] at hboth
  · rw [Sending.byte, List.append_nil]
    exact hcalled
  · rw [Sending.byte, List.append_nil]
    exact hcomplete

/-- `out` looks at the line status register. -/
theorem Traffic.wait (h : Traffic l s given out got σ) {byte : UInt8} {n : ℕ}
    (hwaiting : σ.sending = .waiting byte n) :
    ∃ out' got', Traffic l s given out' got' (σ.access l) := by
  have hpoll := h.moves.operating.poll (l := l)
  have hmoves : s.Moves l out got (σ.port.in8 l 5).2 := by
    have hboth := h.moves.trans hpoll
    rwa [List.append_nil, List.append_nil] at hboth
  have hcalled := h.called
  have hcomplete := h.complete
  rw [hwaiting, Sending.byte] at hcalled hcomplete
  obtain ⟨start, stop, hspins, hstop, hbefore, hafter⟩ := h.patient.waiting byte n hwaiting
  cases n with
  | zero =>
    rw [access_last hwaiting]
    refine ⟨out, got, hmoves, ⟨fun b hb => (nomatch hb), fun b n hb => (nomatch hb)⟩, ?_,
      fun hsends => ?_⟩
    · rw [Sending.byte, List.append_nil]
      exact (List.sublist_append_left _ _).trans hcalled
    · -- the transmitter was busy at `maxSpins` accesses
      obtain ⟨j, hj, hempty⟩ := hsends start
      rw [hbefore (start + j) (Nat.le_add_right _ _) (by omega)] at hempty
      exact absurd hempty Bool.false_ne_true
  | succ n =>
    have hbit := status_bit (l := l) (s := σ.port)
    rw [access_waiting hwaiting]
    cases hempty : (σ.port.in8 l 5).2.queues.holding.isEmpty with
    | true =>
      rw [hbit, hempty]
      exact ⟨out, got, hmoves, ⟨fun _ _ => List.isEmpty_iff.1 hempty, fun b n hb => (nomatch hb)⟩,
        hcalled, hcomplete⟩
    | false =>
      rw [hbit, hempty]
      refine ⟨out, got, hmoves, ⟨fun b hb => (nomatch hb), fun b m hb => ?_⟩, hcalled, hcomplete⟩
      cases hb
      -- this access is one more at which the transmitter was busy
      have hbusy : (σ.port.in8 l 5).2.queues.holding ≠ [] := by
        rw [← List.isEmpty_eq_false_iff]
        exact hempty
      obtain ⟨hbusy', hlater⟩ := hpoll.busy rfl hbusy
      refine ⟨start, σ.port.time + 1, by omega, le_rfl, fun t hle hlt => ?_,
        fun _ t hle hlt => absurd hle (Nat.not_le.2 hlt)⟩
      by_cases ht : t < stop
      · exact hbefore t hle ht
      by_cases ht' : t < σ.port.time
      · exact hafter hbusy' t (Nat.not_lt.1 ht) ht'
      · exact hlater t (Nat.not_lt.1 ht') hlt

theorem Traffic.step (h : Traffic l s (calls es) out got σ) {e : SerialEvent}
    (hstep : SerialStep l σ e σ') :
    ∃ out' got', Traffic l s (calls (es ++ [e])) out' got' σ' := by
  have hoperating := h.moves.operating
  rw [calls_append]
  cases hstep with
  | out hidle byte =>
    have hcalled := h.called
    have hcomplete := h.complete
    rw [hidle, Sending.byte, List.append_nil] at hcalled hcomplete
    rw [Serial.out, if_pos hoperating.initialized]
    refine ⟨out, got, h.moves, ⟨fun b hb => (nomatch hb), fun b n hwaiting => ?_⟩,
      hcalled.append_right [byte], fun hsends => ?_⟩
    · cases hwaiting
      exact ⟨σ.port.time, σ.port.time, le_rfl, le_rfl,
        fun t hle hlt => absurd hle (Nat.not_le.2 hlt),
        fun _ t hle hlt => absurd hle (Nat.not_le.2 hlt)⟩
    · rw [← hcomplete hsends]
      rfl
  | interrupt =>
    obtain ⟨got', hmoves⟩ := hoperating.readByte (l := l)
    have hboth := h.moves.trans hmoves
    rw [List.append_nil] at hboth
    have hnone : calls es ++ calls [.interrupt] = calls es := List.append_nil _
    rw [hnone]
    exact ⟨out, got ++ got', hboth, h.patient.later hmoves, h.called, h.complete⟩
  | access hcalling =>
    have hnone : calls es ++ calls [.access] = calls es := List.append_nil _
    rw [hnone]
    cases hsending : σ.sending with
    | idle => exact absurd hsending hcalling
    | waiting byte n => exact h.wait hsending
    | ready byte => exact h.put hsending

/-- **Bytes pass through the port in order.**  After `initialize` has succeeded, and in every run of
calls of `out` and interrupts of COM1, which may come between any two accesses of `out`: what is on
the line or still to be sent is what has been put into the data port, each byte once and in the
order of the calls, and every call has put its byte there if the transmitter never makes it wait for
too long; what `read` has taken is, in the same order, among the bytes that have arrived, and a byte
that is neither taken nor still there is counted as lost. -/
theorem serial_order (l : Line) (s : SerialPort) (hok : (s.initializePort l).initialized = true)
    {es : List SerialEvent} {σ : Serial}
    (hrun : Run (SerialStep l) ⟨s.initializePort l, .idle⟩ es σ) :
    ∃ out got, σ.port.sent = s.sent ++ out ∧ σ.port.taken = s.taken ++ got ∧
      (out ++ σ.sending.byte).Sublist (calls es) ∧
      (l.Sends → out ++ σ.sending.byte = calls es) ∧
      σ.port.queues.line ++ σ.port.queues.holding = (s.initializePort l).queues.line ++ out ∧
      (got ++ σ.port.queues.receiver).Sublist ((s.initializePort l).queues.receiver ++
        l.arrivals (s.initializePort l).time σ.port.time) ∧
      (got ++ σ.port.queues.receiver).length + σ.port.queues.overruns =
        ((s.initializePort l).queues.receiver ++
          l.arrivals (s.initializePort l).time σ.port.time).length +
        (s.initializePort l).queues.overruns := by
  obtain ⟨hoperating, hholding, hsent, htaken⟩ := SerialPort.operating_of_initialized hok
  have hfirst : Traffic l (s.initializePort l) [] [] [] ⟨s.initializePort l, .idle⟩ :=
    ⟨.refl hoperating, ⟨fun b hb => (nomatch hb), fun b n hb => (nomatch hb)⟩, .refl _,
      fun _ => rfl⟩
  obtain ⟨out, got, htraffic⟩ := hrun.trace_invariant
    (I := fun es σ => ∃ out got, Traffic l (s.initializePort l) (calls es) out got σ)
    ⟨[], [], hfirst⟩
    fun _ _ _ _ ⟨_, _, h⟩ hstep => h.step hstep
  have hmoves := htraffic.moves
  refine ⟨out, got, ?_, ?_, htraffic.called, htraffic.complete, ?_, hmoves.received, hmoves.counted⟩
  · rw [hmoves.sent, hsent]
  · rw [hmoves.taken, htaken]
  · rw [hmoves.onLine, hholding, List.append_nil]

/-- A letter that is sent while the interrupt of COM1 comes. -/
theorem serial_order_letter : ∃ σ out,
    Run (SerialStep SerialPort.quietLine)
      ⟨SerialPort.found16550A.initializePort SerialPort.quietLine, .idle⟩
      [.out 0x41, .interrupt, .access] σ ∧ out ++ σ.sending.byte = [0x41] := by
  have hok : (SerialPort.found16550A.initializePort SerialPort.quietLine).initialized = true := by
    decide
  have hsends : SerialPort.quietLine.Sends := fun t => ⟨0, by decide, rfl⟩
  have hcall : SerialStep SerialPort.quietLine
      ⟨SerialPort.found16550A.initializePort SerialPort.quietLine, .idle⟩ (.out 0x41)
      (Serial.out ⟨SerialPort.found16550A.initializePort SerialPort.quietLine, .idle⟩ 0x41) :=
    .out rfl 0x41
  rw [Serial.out, if_pos hok] at hcall
  have hrun := ((Run.single hcall).snoc .interrupt).snoc (.access nofun)
  obtain ⟨out, -, -, -, -, hcomplete, -⟩ := serial_order _ _ hok hrun
  exact ⟨_, out, hrun, hcomplete hsends⟩

end Serial

end Eterna
