import Eterna.Library.ByteMemory
import Eterna.Library.LastWrite
import Eterna.Library.SplitWords
import Eterna.Memory.Common

/-!
# Interrupt gates

`install_handler` of `idt.cc` writes a gate into the interrupt descriptor table, which is 256 gates
of 16 bytes in memory.  The address of the handler is split over three fields of the gate.

* `getOffset_setOffset` : the address is put together again;
* `gate_installHandler` : what one call does to any gate;
* `install_handlers` : so after any calls each gate is that of the last call for its vector.
-/

namespace Eterna

open ByteMemory

/-! ### Gates in memory -/

/-- `SetOffset(offset)`, for the gate at `entry`. -/
def setOffset (m : Memory) (entry : ℕ) (offset : BitVec 64) : Memory :=
  let m := store m entry 2 ((offset &&& 0x000000000000ffff#64).setWidth 16).toNat
  let m := store m (entry + 6) 2 (((offset &&& 0x00000000ffff0000#64) >>> 16).setWidth 16).toNat
  store m (entry + 8) 4 (((offset &&& 0xffffffff00000000#64) >>> 32).setWidth 32).toNat

/-- `GetOffset()`. -/
def getOffset (m : Memory) (entry : ℕ) : BitVec 64 :=
  let offset := 0#64
  let offset := offset ||| BitVec.ofNat 64 (load m entry 2)
  let offset := offset ||| BitVec.ofNat 64 (load m (entry + 6) 2) <<< 16
  offset ||| BitVec.ofNat 64 (load m (entry + 8) 4) <<< 32

/-- What a gate decodes to. -/
structure Gate where
  /-- `GetOffset()`. -/
  offset : BitVec 64
  /-- `TypeAttribute`. -/
  typeAttribute : BitVec 8
  /-- `Selector`. -/
  selector : BitVec 16
  deriving DecidableEq

/-- The gate at `entry`. -/
def Gate.decode (m : Memory) (entry : ℕ) : Gate where
  offset := getOffset m entry
  typeAttribute := BitVec.ofNat 8 (load m (entry + 5) 1)
  selector := BitVec.ofNat 16 (load m (entry + 2) 2)

/-- `IDTR`, for a table of 256 gates. -/
structure Idtr where
  /-- `Offset`. -/
  offset : ℕ
  stop_le : offset + 4096 ≤ 2 ^ 64

/-- The arguments of `install_handler`. -/
structure Install where
  /-- `handler_address`. -/
  handlerAddress : BitVec 64
  /-- `entryOffset`. -/
  entryOffset : BitVec 8
  /-- `typeAttribute`. -/
  typeAttribute : BitVec 8
  /-- `selector`. -/
  selector : BitVec 8

namespace Idtr

/-- The gate of a vector. -/
def interrupt (idtr : Idtr) (entryOffset : BitVec 8) : ℕ :=
  add64 idtr.offset (mul64 entryOffset.toNat 16)

/-- `install_handler`. -/
def installHandler (idtr : Idtr) (m : Memory) (call : Install) : Memory :=
  let interrupt := idtr.interrupt call.entryOffset
  let m := setOffset m interrupt call.handlerAddress
  let m := store m (interrupt + 5) 1 call.typeAttribute.toNat
  store m (interrupt + 2) 2 (call.selector.setWidth 16).toNat

/-- The memory after some calls. -/
def run (idtr : Idtr) (m : Memory) (calls : List Install) : Memory :=
  calls.foldl idtr.installHandler m

end Idtr

/-- The gate that a call asks for. -/
def Install.gate (call : Install) : Gate :=
  ⟨call.handlerAddress, call.typeAttribute, call.selector.setWidth 16⟩

variable {m : Memory} {idtr : Idtr} {call : Install} {entry x : ℕ} {v : BitVec 8}

/-! ### Encoding and decoding -/

theorem setWidth_and_mask {a mask : BitVec 64} {k w : ℕ}
    (hmask : ∀ i < w, mask.getLsbD (k + i) = true) :
    ((a &&& mask) >>> k).setWidth w = (a >>> k).setWidth w := by
  refine BitVec.eq_of_getLsbD_eq fun i hi => ?_
  simp [hmask i hi]

theorem or_fields (a : BitVec 64) :
    ((a.setWidth 16).setWidth 64 ||| ((a >>> 16).setWidth 16).setWidth 64 <<< 16) |||
      ((a >>> 32).setWidth 32).setWidth 64 <<< 32 = a := by
  have hlow : (a.setWidth 16).setWidth 64 ||| ((a >>> 16).setWidth 16).setWidth 64 <<< 16 =
      (a.setWidth 32).setWidth 64 := SplitWords.or_shiftLeft a 16 16
  calc _ = (a.setWidth 32).setWidth 64 ||| ((a >>> 32).setWidth 32).setWidth 64 <<< 32 := by
        rw [hlow]
    _ = (a.setWidth 64).setWidth 64 := SplitWords.or_shiftLeft a 32 32
    _ = a := by simp

theorem ofNat_load_store {w n : ℕ} {value : BitVec w} (hw : 2 ^ w = 256 ^ n) (u : ℕ) :
    BitVec.ofNat u (load (store m x n value.toNat) x n) = value.setWidth u := by
  have hlt : value.toNat < 256 ^ n := hw ▸ value.isLt
  rw [load_store_self, Nat.mod_eq_of_lt hlt]
  exact BitVec.ofNat_toNat u value

/-- **`GetOffset` reads what `SetOffset` has written.** -/
theorem getOffset_setOffset (offset : BitVec 64) :
    getOffset (setOffset m entry offset) entry = offset := by
  simp (disch := omega) only [getOffset, setOffset, load_store_of_apart]
  rw [ofNat_load_store (by decide), ofNat_load_store (by decide), ofNat_load_store (by decide),
    setWidth_and_mask (by decide), setWidth_and_mask (by decide)]
  have hlow := @setWidth_and_mask offset 0xffff#64 0 16 (by decide)
  simp only [BitVec.ushiftRight_zero] at hlow
  rw [hlow, BitVec.zero_or]
  exact or_fields offset

theorem decode_installHandler :
    Gate.decode (idtr.installHandler m call) (idtr.interrupt call.entryOffset) = call.gate := by
  have hoffset : getOffset (idtr.installHandler m call) (idtr.interrupt call.entryOffset) =
      getOffset (setOffset m (idtr.interrupt call.entryOffset) call.handlerAddress)
        (idtr.interrupt call.entryOffset) := by
    simp (disch := omega) only [getOffset, Idtr.installHandler, load_store_of_apart]
  rw [Gate.decode, hoffset, getOffset_setOffset, Idtr.installHandler]
  simp (disch := omega) only [load_store_of_apart]
  rw [ofNat_load_store (by decide), ofNat_load_store (by decide)]
  simp [Install.gate]

theorem installHandler_of_notMem (h : x < idtr.interrupt call.entryOffset ∨
      idtr.interrupt call.entryOffset + 16 ≤ x) : idtr.installHandler m call x = m x := by
  simp (disch := omega) only [Idtr.installHandler, setOffset, store_of_notMem]

/-! ### The table -/

theorem Idtr.interrupt_eq : idtr.interrupt v = idtr.offset + 16 * v.toNat := by
  have hlt := v.isLt
  have hstop := idtr.stop_le
  rw [interrupt, mul64_of_lt (by omega), add64_of_lt (by omega), Nat.mul_comm]

theorem Idtr.interrupt_apart {v' : BitVec 8} (hne : v ≠ v') :
    idtr.interrupt v + 16 ≤ idtr.interrupt v' ∨ idtr.interrupt v' + 16 ≤ idtr.interrupt v := by
  have hne' : v.toNat ≠ v'.toNat := fun h => hne (BitVec.eq_of_toNat_eq h)
  rw [interrupt_eq, interrupt_eq]
  omega

theorem installHandler_of_ne (hne : call.entryOffset ≠ v) {i : ℕ} (hi : i < 16) :
    idtr.installHandler m call (idtr.interrupt v + i) = m (idtr.interrupt v + i) := by
  have hapart := idtr.interrupt_apart hne
  exact installHandler_of_notMem (by omega)

/-- **One call** replaces the gate of its vector, and keeps all others. -/
theorem gate_installHandler (m : Memory) (call : Install) :
    Gate.decode (idtr.installHandler m call) (idtr.interrupt v) =
      if call.entryOffset = v then call.gate else Gate.decode m (idtr.interrupt v) := by
  split_ifs with h
  · rw [← h, decode_installHandler]
  · have hkept : ∀ n k, k + n ≤ 16 →
        load (idtr.installHandler m call) (idtr.interrupt v + k) n =
          load m (idtr.interrupt v + k) n := fun n k hk => load_congr fun i hi => by
      rw [Nat.add_assoc]
      exact installHandler_of_ne h (by omega)
    have hfirst := hkept 2 0 (by decide)
    rw [Nat.add_zero] at hfirst
    simp only [Gate.decode, getOffset, hfirst, hkept 2 6 (by decide), hkept 4 8 (by decide),
      hkept 1 5 (by decide), hkept 2 2 (by decide)]

/-- The last call for a vector. -/
def lastInstall (v : BitVec 8) (calls : List Install) : Option Install :=
  LastWrite.last (fun call => call.entryOffset = v) calls

/-- **The gates follow the calls.**  In a table of zeros, the gate of every vector is afterwards
that of the last call for it, or zero, and no byte outside of the table has been written. -/
theorem install_handlers (idtr : Idtr) (m : Memory) (calls : List Install)
    (hzero : ∀ x, idtr.offset ≤ x → x < idtr.offset + 4096 → m x = 0) :
    (∀ v, match lastInstall v calls with
      | some call => Gate.decode (idtr.run m calls) (idtr.interrupt v) = call.gate
      | none => ∀ i < 16, idtr.run m calls (idtr.interrupt v + i) = 0) ∧
    ∀ x, x < idtr.offset ∨ idtr.offset + 4096 ≤ x → idtr.run m calls x = m x := by
  refine ⟨fun v => ?_, fun x hx => ?_⟩
  · have hgate : Gate.decode (idtr.run m calls) (idtr.interrupt v) =
        (lastInstall v calls).elim (Gate.decode m (idtr.interrupt v)) Install.gate :=
      LastWrite.read_foldl (fun m => Gate.decode m (idtr.interrupt v)) gate_installHandler m calls
    cases hlast : lastInstall v calls with
    | some call =>
      rw [hlast] at hgate
      exact hgate
    | none =>
      intro i hi
      have hlt := v.isLt
      have hkept : idtr.run m calls (idtr.interrupt v + i) = m (idtr.interrupt v + i) :=
        LastWrite.read_foldl_of_none (fun m : Memory => m (idtr.interrupt v + i))
          (fun m call hne => installHandler_of_ne hne hi) hlast m
      rw [hkept]
      rw [Idtr.interrupt_eq]
      exact hzero _ (by omega) (by omega)
  · have hnone : LastWrite.last (fun _ : Install => False) calls = none :=
      LastWrite.last_eq_none_iff.2 fun _ _ h => h
    refine LastWrite.read_foldl_of_none (fun m : Memory => m x) (fun m call _ => ?_) hnone m
    have hlt := call.entryOffset.isLt
    have hinterrupt := idtr.interrupt_eq (v := call.entryOffset)
    exact installHandler_of_notMem (by omega)

/-- A table of zeros at address 4096, and two calls for vector 14. -/
theorem install_handlers_twice :
    Gate.decode (Idtr.run ⟨4096, by decide⟩ (fun _ => 0)
      [⟨0xffffffff80001234, 14, 0x8e, 8⟩, ⟨0xffffffff80005678, 14, 0x8f, 8⟩])
      (Idtr.interrupt ⟨4096, by decide⟩ 14) = ⟨0xffffffff80005678, 0x8f, 8⟩ :=
  (install_handlers ⟨4096, by decide⟩ (fun _ => 0)
    [⟨0xffffffff80001234, 14, 0x8e, 8⟩, ⟨0xffffffff80005678, 14, 0x8f, 8⟩]
    fun _ _ _ => rfl).1 14

end Eterna
