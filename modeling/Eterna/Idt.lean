import Eterna.Gates

/-!
# The interrupt descriptor table of the kernel

The constructor `IDTR(limit, offset)` of `idt.cc` and the table that `prepare_interrupts` of
`kstage1.cc` sets up.  The constructor clears `Limit` bytes, one less than the table has.

* `Idtr.gate_construct` : the byte that is not cleared belongs to no field of a gate;
* `prepared_table` : so whatever the table held before, seven vectors have the gate of their handler
  and all others have no gate.
-/

namespace Eterna

open ByteMemory

/-- The handlers of `interrupts.cc` that have a gate. -/
inductive Handler where
  | uartCom1
  | divideByZero
  | doubleFault
  | stackSegmentFault
  | generalProtectionFault
  | pageFault
  | simdException
  deriving DecidableEq

/-- `IDT_TA_InterruptGate`. -/
def idtTaInterruptGate : BitVec 8 := 0b10000000#8 ||| 0b1110#8

/-- The default `selector` of `install_handler`. -/
def defaultSelector : BitVec 8 := 0x08#8

/-- The vector a handler is installed for. -/
def Handler.vector : Handler → BitVec 8
  | uartCom1 => 0x20#8 + 4#8
  | divideByZero => 0x00#8
  | doubleFault => 0x08#8
  | stackSegmentFault => 0x0c#8
  | generalProtectionFault => 0x0d#8
  | pageFault => 0x0e#8
  | simdException => 0x13#8

/-- The order of the calls of `install_handler` in `prepare_interrupts`. -/
def Handler.order : List Handler :=
  [.uartCom1, .divideByZero, .doubleFault, .stackSegmentFault, .generalProtectionFault, .pageFault,
    .simdException]

/-- The call of `install_handler` for a handler, with the default arguments. -/
def Handler.install (address : Handler → BitVec 64) (h : Handler) : Install where
  handlerAddress := address h
  entryOffset := h.vector
  typeAttribute := idtTaInterruptGate
  selector := defaultSelector

namespace Idtr

/-- `IDTR(0x0fff, offset)`. -/
def construct (idtr : Idtr) (m : Memory) : Memory := fill m idtr.offset 0x0fff 0

/-- The table of `prepare_interrupts`. -/
def prepare (idtr : Idtr) (address : Handler → BitVec 64) (m : Memory) : Memory :=
  idtr.run (idtr.construct m) (Handler.order.map (Handler.install address))

/-- The `IST` field of the gate of a vector. -/
def ist (idtr : Idtr) (m : Memory) (v : BitVec 8) : ℕ := load m (idtr.interrupt v + 4) 1

variable {idtr : Idtr} {m : Memory} {v : BitVec 8}

/-- **What the constructor clears**: all fields of all gates, though not the last byte of the
table. -/
theorem gate_construct : Gate.decode (idtr.construct m) (idtr.interrupt v) = ⟨0, 0, 0⟩ ∧
    idtr.ist (idtr.construct m) v = 0 := by
  have hzero : ∀ k n, k + n ≤ 12 → load (idtr.construct m) (idtr.interrupt v + k) n = 0 := by
    intro k n hk
    have hlt := v.isLt
    refine load_eq_zero fun i hi => fill_of_mem ?_
    rw [interrupt_eq]
    omega
  have hfirst := hzero 0 2 (by decide)
  rw [Nat.add_zero] at hfirst
  refine ⟨?_, hzero 4 1 (by decide)⟩
  simp only [Gate.decode, getOffset, hfirst, hzero 6 2 (by decide), hzero 8 4 (by decide),
    hzero 5 1 (by decide), hzero 2 2 (by decide)]
  rfl

theorem ist_installHandler (m : Memory) (call : Install) :
    idtr.ist (idtr.installHandler m call) v = idtr.ist m v := by
  by_cases h : call.entryOffset = v
  · subst h
    simp (disch := omega) only [ist, installHandler, setOffset, load_store_of_apart]
  · refine load_congr fun i hi => ?_
    rw [Nat.add_assoc]
    exact installHandler_of_ne h (by omega)

theorem ist_run (m : Memory) (calls : List Install) :
    idtr.ist (idtr.run m calls) v = idtr.ist m v := by
  induction calls generalizing m with
  | nil => rfl
  | cons call calls ih => exact (ih _).trans (ist_installHandler m call)

end Idtr

/-- The handler of a vector. -/
def handlerOf (v : BitVec 8) : Option Handler := Handler.order.find? fun h => decide (h.vector = v)

theorem handlerOf_vector (h : Handler) : handlerOf h.vector = some h := by
  cases h <;> decide

theorem handlerOf_eq_some {v : BitVec 8} {h : Handler} : handlerOf v = some h ↔ h.vector = v := by
  constructor
  · intro hv
    simpa using List.find?_some hv
  · rintro rfl
    exact handlerOf_vector h

theorem lastInstall_order (address : Handler → BitVec 64) (v : BitVec 8) :
    lastInstall v (Handler.order.map (Handler.install address)) =
      (handlerOf v).map (Handler.install address) := by
  have hlast : lastInstall v (Handler.order.map (Handler.install address)) =
      (Handler.order.reverse.find? fun h => decide (h.vector = v)).map
        (Handler.install address) := by
    rw [lastInstall, LastWrite.last, ← List.map_reverse, List.find?_map]
    rfl
  rw [hlast]
  congr 1
  cases hv : handlerOf v with
  | some h =>
    obtain rfl := handlerOf_eq_some.1 hv
    cases h <;> decide
  | none =>
    have hnone := List.find?_eq_none.1 hv
    exact List.find?_eq_none.2 fun h hmem => hnone h (List.mem_reverse.1 hmem)

theorem gate_prepare (idtr : Idtr) (address : Handler → BitVec 64) (m : Memory) (v : BitVec 8) :
    Gate.decode (idtr.prepare address m) (idtr.interrupt v) =
      (handlerOf v).elim ⟨0, 0, 0⟩ fun h => ⟨address h, 0x8e, 8⟩ := by
  have hgate : Gate.decode (idtr.prepare address m) (idtr.interrupt v) =
      (lastInstall v (Handler.order.map (Handler.install address))).elim
        (Gate.decode (idtr.construct m) (idtr.interrupt v)) Install.gate :=
    LastWrite.read_foldl (fun m => Gate.decode m (idtr.interrupt v)) gate_installHandler _ _
  rw [hgate, lastInstall_order, Idtr.gate_construct.1]
  cases handlerOf v <;> rfl

/-- **The table that `prepare_interrupts` sets up**, in any memory: each vector with a handler has
its gate, which is an interrupt gate of ring 0 in the code segment 8; the gate of any other vector
is absent; no gate names an interrupt stack; and nothing outside of the table has changed. -/
theorem prepared_table (idtr : Idtr) (address : Handler → BitVec 64) (m : Memory) :
    (∀ v, Gate.decode (idtr.prepare address m) (idtr.interrupt v) =
      (handlerOf v).elim ⟨0, 0, 0⟩ fun h => ⟨address h, 0x8e, 8⟩) ∧
    (∀ v, idtr.ist (idtr.prepare address m) v = 0) ∧
    ∀ x, x < idtr.offset ∨ idtr.offset + 4096 ≤ x → idtr.prepare address m x = m x := by
  refine ⟨gate_prepare idtr address m, fun v => ?_, fun x hx => ?_⟩
  · rw [Idtr.prepare, Idtr.ist_run]
    exact Idtr.gate_construct.2
  · have hkept : ∀ (calls : List Install) (m : Memory), idtr.run m calls x = m x := by
      intro calls
      induction calls with
      | nil => intro m; rfl
      | cons call calls ih =>
        intro m
        have hlt := call.entryOffset.isLt
        have hinterrupt := idtr.interrupt_eq (v := call.entryOffset)
        exact (ih _).trans (installHandler_of_notMem (by omega))
    exact (hkept _ _).trans (fill_of_notMem (by omega))

end Eterna
