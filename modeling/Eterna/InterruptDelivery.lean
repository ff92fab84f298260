import Eterna.Idt
import Eterna.Pic

/-!
# Interrupts after the boot

The chips, the descriptor table and the handlers together, from the `sti` at the end of `kstage1`
on.  `disable_all_interrupts` has left every line unmasked, but the only hardware interrupt with a
gate is that of COM1.  The type of a gate that has been cleared is not that of an interrupt gate, so
the processor raises a general protection fault before it looks whether the gate is present.

* `Cpu.deliver` : how the processor gets from a vector to a handler;
* `InterruptSystem.Sound` : the invariant of the runs;
* `interrupts_serve_com1` : the system goes on exactly as long as every interrupt is one of COM1,
  and then no request gets stuck.
-/

namespace Eterna

open Runs ByteMemory

/-- The two calls of the mask API in `kstage1`, before `sti`. -/
def Pics.unmaskAtBoot (p : Pics) : Pics :=
  p.disableAllInterrupts.enableInterrupt irqUartCom1

/-- What the processor does. -/
inductive Cpu where
  /-- It runs with interrupts enabled. -/
  | running
  /-- It has been halted for good by a handler. -/
  | halted (h : Handler)
  /-- It runs what is no handler of the kernel. -/
  | lost
  /-- It has found no gate for a double fault. -/
  | shutdown
  deriving DecidableEq

/-- The exception of a gate that has the type of no interrupt or trap gate. -/
def generalProtectionVector : BitVec 8 := 0x0d#8

/-- The exception of such a gate that is not present. -/
def segmentNotPresentVector : BitVec 8 := 0x0b#8

/-- The exception of a second one. -/
def doubleFaultVector : BitVec 8 := 0x08#8

/-- The type is that of an interrupt gate or a trap gate. -/
def isInterruptGate (typeAttribute : BitVec 8) : Bool :=
  typeAttribute &&& 0b1111 = 0b1110 ∨ typeAttribute &&& 0b1111 = 0b1111

/-- Which handler the gate of a vector leads to, if it leads to one of the kernel, or else which
exception the processor raises.  It looks at the type first. -/
def Idtr.entry (idtr : Idtr) (address : Handler → BitVec 64) (m : Memory) (v : BitVec 8) :
    Except (BitVec 8) (Option Handler) :=
  let gate := Gate.decode m (idtr.interrupt v)
  if !isInterruptGate gate.typeAttribute then .error generalProtectionVector
  else if !gate.typeAttribute.getLsbD 7 then .error segmentNotPresentVector
  else .ok (Handler.order.find? fun h => decide (address h = gate.offset))

/-- What a handler does to the chips, and what the processor does after it.  The one of the stack
segment fault returns, but its `iretq` takes the error code for an instruction address. -/
def Handler.run (h : Handler) (p : Pics) : Pics × Cpu :=
  match h with
  | uartCom1 => (p.endOfInterrupt 4#8, .running)
  | stackSegmentFault => (p, .lost)
  | h => (p, .halted h)

/-- What a gate leads to. -/
def Cpu.enter (h : Option Handler) (p : Pics) : Pics × Cpu :=
  h.elim (p, .lost) fun h => h.run p

/-- The processor is given a vector.  If it raises an exception instead and then another one, this
is a double fault, and after a third one it shuts down. -/
def Cpu.deliver (entry : BitVec 8 → Except (BitVec 8) (Option Handler)) (p : Pics) (v : BitVec 8) :
    Pics × Cpu :=
  match entry v with
  | .ok h => Cpu.enter h p
  | .error exception =>
    match entry exception with
    | .ok h => Cpu.enter h p
    | .error _ =>
      match entry doubleFaultVector with
      | .ok h => Cpu.enter h p
      | .error _ => (p, .shutdown)

/-- The chips and the processor. -/
structure InterruptSystem where
  /-- The chips. -/
  pics : Pics
  /-- The processor. -/
  cpu : Cpu

/-- What happens. -/
inductive InterruptEvent where
  /-- A device raises its line. -/
  | raise (line : ℕ)
  /-- The processor takes an interrupt. -/
  | interrupt (a : Acknowledged)

/-- One event, with the gates that the processor finds. -/
def InterruptStep (entry : BitVec 8 → Except (BitVec 8) (Option Handler)) (s : InterruptSystem)
    (e : InterruptEvent) (t : InterruptSystem) : Prop :=
  match e with
  | .raise line => line < 16 ∧ line ≠ 2 ∧ t = { s with pics := s.pics.raise line }
  | .interrupt a => s.cpu = .running ∧ ∃ p, s.pics.acknowledge = some (a, p) ∧
      t = ⟨(Cpu.deliver entry p a.vector).1, (Cpu.deliver entry p a.vector).2⟩

/-! ### The gates -/

/-- What the gates of `prepare_interrupts` lead to. -/
def preparedEntry (v : BitVec 8) : Except (BitVec 8) (Option Handler) :=
  (handlerOf v).elim (.error generalProtectionVector) fun h => .ok (some h)

/-- **Which handler a vector leads to**: the gates of `prepare_interrupts` are found, and all others
are a general protection fault. -/
theorem entry_prepare {idtr : Idtr} {address : Handler → BitVec 64}
    (haddress : Function.Injective address) (m : Memory) (v : BitVec 8) :
    idtr.entry address (idtr.prepare address m) v = preparedEntry v := by
  have htype : ¬ (!isInterruptGate 0x8e#8) = true := by decide
  have hpresent : ¬ (!(0x8e#8).getLsbD 7) = true := by decide
  have habsent : (!isInterruptGate 0#8) = true := by decide
  have hfind : ∀ h, Handler.order.find? (fun h' => decide (address h' = address h)) = some h := by
    intro h
    simp only [haddress.eq_iff]
    cases h <;> decide
  unfold Idtr.entry preparedEntry
  rw [gate_prepare]
  cases handlerOf v with
  | none => exact if_pos habsent
  | some h => exact (if_neg htype).trans ((if_neg hpresent).trans (congrArg Except.ok (hfind h)))

theorem handlerOf_line {v : BitVec 8} {line : ℕ} (hline : line < 16) (hv : v.toNat = 0x20 + line) :
    handlerOf v = if line = 4 then some .uartCom1 else none := by
  have hvector : v = BitVec.ofNat 8 (0x20 + line) := by
    rw [← hv, BitVec.ofNat_toNat, BitVec.setWidth_eq]
  rw [hvector]
  revert hline
  clear hv hvector
  revert line
  decide

/-- What the processor does with the interrupt of a line. -/
theorem deliver_line {v : BitVec 8} {line : ℕ} (hline : line < 16) (hv : v.toNat = 0x20 + line)
    (p : Pics) : Cpu.deliver preparedEntry p v =
      if line = 4 then (p.endOfInterrupt 4#8, .running)
      else (p, .halted .generalProtectionFault) := by
  have hfault : preparedEntry generalProtectionVector = .ok (some .generalProtectionFault) := rfl
  have hentry : preparedEntry v =
      if line = 4 then .ok (some .uartCom1) else .error generalProtectionVector := by
    rw [preparedEntry, handlerOf_line hline hv]
    split_ifs <;> rfl
  unfold Cpu.deliver
  rw [hentry]
  split_ifs
  · rfl
  · simp only [hfault]
    rfl

/-! ### The chips -/

namespace Pics

variable {p q : Pics} {a : Acknowledged}

/-- No line is masked or in service. -/
structure Open (p : Pics) : Prop where
  initialised : p.Initialised
  unmasked : ∀ line < 16, p.ports.masked line = false
  idle : ∀ line < 16, p.serving line = false

theorem serving_raise (p : Pics) (line k : ℕ) : (p.raise line).serving k = p.serving k := by
  unfold Pics.raise Pics.serving
  by_cases h : line < 8 <;> simp only [h, ↓reduceIte]

theorem Open.raise (h : p.Open) (line : ℕ) : (p.raise line).Open := by
  obtain ⟨hinit, hports⟩ := h.initialised.raise line
  refine ⟨hinit, fun k hk => ?_, fun k hk => ?_⟩
  · rw [hports]
    exact h.unmasked k hk
  · rw [serving_raise]
    exact h.idle k hk

theorem open_unmaskAtBoot (hp : p.Initialised) (hidle : ∀ line < 16, p.serving line = false) :
    p.unmaskAtBoot.Open := by
  obtain ⟨hall, hsame⟩ := ports_call hp .disableAll
  have hp' := hsame.initialised hp
  obtain ⟨hone, hsame'⟩ := ports_call hp' (.enable irqUartCom1)
  have hboth := hsame.trans hsame'
  refine ⟨hsame'.initialised hp', fun line hline => ?_, fun line hline => ?_⟩
  · have hmasked : p.unmaskAtBoot.ports.masked line =
        ((p.ports.call .disableAll).call (.enable irqUartCom1)).masked line := by
      rw [← hall, ← hone]
      rfl
    rw [hmasked, Ports.masked_call _ _ hline, Ports.masked_call _ _ hline]
    simp [MaskCall.affects, MaskCall.leavesMasked]
  · have hserving : p.unmaskAtBoot.serving line = p.serving line := by
      show ((p.call .disableAll).call (.enable irqUartCom1)).serving line = _
      unfold Pics.serving
      rw [hboth.master, hboth.slave]
    rw [hserving]
    exact hidle line hline

theorem Open.served (h : p.Open) (hack : p.acknowledge = some (a, q)) (hline : a.line = 4) :
    (q.endOfInterrupt 4#8).Open := by
  obtain ⟨haccepts, hq⟩ := h.initialised.acknowledge hack
  have hserving : ∀ line < 16, q.serving line = decide (line = 4) := by
    intro line hlt
    rw [haccepts.serving line hlt, h.idle line hlt, Bool.or_false, hline]
    congr 1
    apply propext
    omega
  have hmaster : ∀ i < 8, q.master.inService.getLsbD i = decide (i = 4) := fun i hi => by
    have hi' := hserving i (by omega)
    simpa only [Pics.serving, hi, ↓reduceIte] using hi'
  -- line 4 is the first one in service
  have hfirst : firstLine q.master.inService.getLsbD = some 4 := by
    refine firstLine_eq_some.2 ⟨by decide, by simpa using hmaster 4 (by decide), fun j hj => ?_⟩
    rw [hmaster j (by omega), decide_eq_false_iff_not]
    omega
  obtain ⟨hinit, hports, -⟩ := hq.endOfInterrupt 4#8
  refine ⟨hinit, fun line hlt => ?_, fun line hlt => ?_⟩
  · rw [hports, haccepts.masks]
    exact h.unmasked line hlt
  · have hslave : ¬ (8#8 ≤ 4#8) := by decide
    rw [endOfInterrupt_eq, if_neg hslave, outCommand_picEoi, hfirst]
    by_cases hlt8 : line < 8
    · simp only [Pics.serving, hlt8, ↓reduceIte, Option.elim_some, getLsbD_setLine _ hlt8,
        hmaster line hlt8]
      split_ifs with h4
      · rfl
      · exact decide_eq_false h4
    · have hother := hserving line hlt
      rw [decide_eq_false (by omega)] at hother
      simpa only [Pics.serving, hlt8, ↓reduceIte] using hother

end Pics

theorem firstLine_isSome {p : ℕ → Bool} {i : ℕ} (hi : i < 8) (hp : p i = true) :
    (firstLine p).isSome := by
  rw [firstLine, List.find?_isSome]
  exact ⟨i, List.mem_range.2 hi, hp⟩

namespace Pics

variable {p : Pics}

/-- **No request gets stuck** when no line is masked or in service. -/
theorem Open.acknowledge_isSome (h : p.Open) {line : ℕ} (hlt : line < 16) (hne : line ≠ 2)
    (hreq : p.requested line = true) : p.acknowledge.isSome := by
  have hmaster : ∀ i < 8, p.master.mask.getLsbD i = false ∧
      p.master.inService.getLsbD i = false := fun i hi => by
    have hmask := h.unmasked i (by omega)
    have hidle := h.idle i (by omega)
    rw [masked_ports] at hmask
    simp only [Pics.serving, hi, ↓reduceIte] at hmask hidle
    exact ⟨hmask, hidle⟩
  have hslave : ∀ i < 8, p.slave.mask.getLsbD i = false ∧
      p.slave.inService.getLsbD i = false := fun i hi => by
    have hge : ¬ 8 + i < 8 := by omega
    have hmask := h.unmasked (8 + i) (by omega)
    have hidle := h.idle (8 + i) (by omega)
    rw [masked_ports] at hmask
    simp only [Pics.serving, hge, ↓reduceIte, Nat.add_sub_cancel_left] at hmask hidle
    exact ⟨hmask, hidle⟩
  have hpending : ∀ (c : Pic8259) (requests : BitVec 8) (i : ℕ), i < 8 →
      (∀ i < 8, c.mask.getLsbD i = false ∧ c.inService.getLsbD i = false) →
      requests.getLsbD i = true → (c.pending requests).isSome := by
    intro c requests i hi hc hreq
    refine firstLine_isSome hi ?_
    simp only [hreq, (hc i hi).1, Bool.not_false, Bool.true_and, List.all_eq_true, List.mem_range,
      Bool.not_eq_true']
    exact fun j hj => (hc j (by omega)).2
  -- the request reaches the master, on its own line or on line 2
  have hsome : (p.master.pending p.masterRequests).isSome := by
    by_cases hlt8 : line < 8
    · refine hpending _ _ line hlt8 hmaster ?_
      rw [masterRequests, getLsbD_setLine _ hlt8, if_neg hne]
      simpa only [requested, hlt8, ↓reduceIte] using hreq
    · refine hpending _ _ 2 (by decide) hmaster ?_
      rw [masterRequests, getLsbD_setLine _ (by decide), if_pos rfl]
      refine hpending _ _ (line - 8) (by omega) hslave ?_
      simpa only [requested, hlt8, ↓reduceIte] using hreq
  obtain ⟨i, hi⟩ := Option.isSome_iff_exists.1 hsome
  unfold Pics.acknowledge
  rw [hi]
  dsimp only
  split_ifs
  · cases p.slave.pending p.slave.requests <;> rfl
  · rfl

end Pics

/-! ### Runs -/

/-- The invariant: as long as the processor runs all lines are open, and when it does not it has
been halted by a general protection fault. -/
structure InterruptSystem.Sound (s : InterruptSystem) (events : List InterruptEvent) : Prop where
  pics_open : s.cpu = .running → s.pics.Open
  cpu_eq : s.cpu = .running ∨ s.cpu = .halted .generalProtectionFault
  running_iff : s.cpu = .running ↔ ∀ a, .interrupt a ∈ events → a.line = 4

theorem InterruptSystem.Sound.step {s t : InterruptSystem} {events : List InterruptEvent}
    {e : InterruptEvent} (h : s.Sound events) (hstep : InterruptStep preparedEntry s e t) :
    t.Sound (events ++ [e]) := by
  cases e with
  | raise line =>
    obtain ⟨-, -, rfl⟩ := hstep
    refine ⟨fun hrun => (h.pics_open hrun).raise line, h.cpu_eq, h.running_iff.trans ?_⟩
    simp
  | interrupt a =>
    obtain ⟨hrun, p, hack, rfl⟩ := hstep
    have hopen := h.pics_open hrun
    obtain ⟨haccepts, -⟩ := hopen.initialised.acknowledge hack
    have hbefore := h.running_iff.1 hrun
    rw [deliver_line haccepts.line_lt haccepts.vector_eq]
    by_cases hline : a.line = 4
    · simp only [hline, ↓reduceIte]
      refine ⟨fun _ => hopen.served hack hline, .inl rfl, iff_of_true rfl fun b hb => ?_⟩
      obtain hb | hb := List.mem_append.1 hb
      · exact hbefore b hb
      · rw [← hline, InterruptEvent.interrupt.inj (List.mem_singleton.1 hb)]
    · simp only [hline, ↓reduceIte]
      have hlast : InterruptEvent.interrupt a ∈ events ++ [.interrupt a] :=
        List.mem_append_right _ (List.mem_singleton_self _)
      exact ⟨nofun, .inr rfl,
        iff_of_false nofun fun hall => hline (hall a hlast)⟩

/-- **From the end of `kstage1` on the system goes on exactly as long as every interrupt is one of
COM1.**  Whatever the table held before, and the chips if no line was in service, and whichever
lines were raised during the boot, in every run: an interrupt of any other line has no gate, and
ends in the handler of the general protection fault; until then every request can be taken, as each
interrupt of COM1 has been ended. -/
theorem interrupts_serve_com1 (idtr : Idtr) {address : Handler → BitVec 64}
    (haddress : Function.Injective address) (m : Memory) (p : Pics)
    (hidle : ∀ line < 16, p.serving line = false) (early : List ℕ) {events : List InterruptEvent}
    {t : InterruptSystem}
    (hrun : Run (InterruptStep (idtr.entry address (idtr.prepare address m)))
      ⟨(early.foldl Pics.raise p.remapPic).unmaskAtBoot, .running⟩ events t) :
    (t.cpu = .running ↔ ∀ a, .interrupt a ∈ events → a.line = 4) ∧
    (t.cpu ≠ .running → t.cpu = .halted .generalProtectionFault) ∧
    (t.cpu = .running → ∀ line < 16, line ≠ 2 → t.pics.requested line = true →
      t.pics.acknowledge.isSome) := by
  obtain ⟨hinit, -, -, hmaster, hslave, -⟩ := p.remapPic_spec
  have hremap : ∀ line < 16, p.remapPic.serving line = false := fun line hline => by
    have hp := hidle line hline
    rwa [Pics.serving, hmaster, hslave]
  have hearly : ∀ (lines : List ℕ) (q : Pics), q.Initialised →
      (∀ line < 16, q.serving line = false) → (lines.foldl Pics.raise q).Initialised ∧
        ∀ line < 16, (lines.foldl Pics.raise q).serving line = false := by
    intro lines
    induction lines with
    | nil => intro q hq hserving; exact ⟨hq, hserving⟩
    | cons l lines ih =>
      intro q hq hserving
      exact ih _ (hq.raise l).1 fun line hline => by
        rw [Pics.serving_raise]
        exact hserving line hline
  obtain ⟨hq, hserving⟩ := hearly early p.remapPic hinit hremap
  have hentry : idtr.entry address (idtr.prepare address m) = preparedEntry :=
    funext fun v => entry_prepare haddress m v
  rw [hentry] at hrun
  have hsound : t.Sound events := by
    refine hrun.trace_invariant (I := fun events t => t.Sound events)
      ⟨fun _ => Pics.open_unmaskAtBoot hq hserving, .inl rfl, iff_of_true rfl fun a ha => ?_⟩
      fun events s e t hs hstep => hs.step hstep
    exact absurd ha List.not_mem_nil
  refine ⟨hsound.running_iff, fun hne => hsound.cpu_eq.resolve_left hne, fun hrunning => ?_⟩
  exact fun line hline hne hreq =>
    (hsound.pics_open hrunning).acknowledge_isSome hline hne hreq

/-- A descriptor table at address 4096. -/
def lowTable : Idtr := ⟨4096, by decide⟩

/-- An address for each handler. -/
def spacedAddress (h : Handler) : BitVec 64 := 16#64 * h.vector.setWidth 64

theorem spacedAddress_injective : Function.Injective spacedAddress := by
  intro h h' heq
  cases h <;> cases h' <;> first | rfl | exact absurd heq (by decide)

/-- The system with one line raised during the boot. -/
def bootedWith (line : ℕ) : InterruptSystem :=
  ⟨([line].foldl Pics.raise Pics.midway.remapPic).unmaskAtBoot, .running⟩

/-- Memory that is zero. -/
def blank : Memory := fun _ => 0

/-- A timer interrupt that was requested during the boot halts the system, one of COM1 is served. -/
theorem interrupts_serve_com1_early :
    (∀ a t, Run (InterruptStep (lowTable.entry spacedAddress
        (lowTable.prepare spacedAddress blank))) (bootedWith 0) [.interrupt a] t →
      a.line ≠ 4 → t.cpu = .halted .generalProtectionFault) ∧
    ∃ a t, Run (InterruptStep (lowTable.entry spacedAddress (lowTable.prepare spacedAddress blank)))
      (bootedWith 4) [.interrupt a] t ∧ a.line = 4 ∧ t.cpu = .running := by
  have hidle : ∀ line < 16, Pics.midway.serving line = false := by decide
  refine ⟨fun a t hrun hline => ?_, ?_⟩
  · obtain ⟨hiff, hhalted, -⟩ :=
      interrupts_serve_com1 lowTable spacedAddress_injective blank Pics.midway hidle [0] hrun
    exact hhalted fun hrunning => hline (hiff.1 hrunning a (List.mem_singleton_self _))
  · have hacknowledge : (bootedWith 4).pics.acknowledge = some (⟨4, 0x24⟩,
        { (bootedWith 4).pics with master := (bootedWith 4).pics.master.accept 4 }) := rfl
    have hstep : InterruptStep (lowTable.entry spacedAddress (lowTable.prepare spacedAddress blank))
        (bootedWith 4) (.interrupt ⟨4, 0x24⟩) _ := ⟨rfl, _, hacknowledge, rfl⟩
    have hrun := Run.single hstep
    refine ⟨⟨4, 0x24⟩, _, hrun, rfl, ?_⟩
    refine (interrupts_serve_com1 lowTable spacedAddress_injective blank Pics.midway hidle [4]
      hrun).1.2 fun a ha => ?_
    rw [InterruptEvent.interrupt.inj (List.mem_singleton.1 ha)]

end Eterna
