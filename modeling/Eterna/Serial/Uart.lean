import Eterna.Memory.Common
import Eterna.Serial.Cstr

/-!
# The serial port

`UART::out` of `uart.cc` on a terminated string and on a buffer, with what reaches
`UART::out(uint8_t)` of an initialized port.  If `UART_HIDE_COLOR_CODES` is defined, which is the
parameter `hide`, both leave out what lies between an escape character and the next `m`.

* `UART.outBuffer_eq` : a buffer without escape characters is sent as it is.
-/

namespace Eterna

open CStrings

/-- Why printing does not end. -/
inductive Halt where
  | outOfFuel
  /-- A byte is read that may not be read. -/
  | fault
  /-- There is no argument left. -/
  | noArgument
  /-- A number is converted to a type that does not have it, which is undefined. -/
  | undefined
deriving DecidableEq

/-- Read a byte. -/
def readByte (V : View) (p : ℕ) : Except Halt UInt8 :=
  match V p with
  | some b => .ok b
  | none => .error .fault

/-- The escape character, `'\033'`. -/
def escape : UInt8 := 27

/-- `do { c++; } while (*c != 'm' && *c != '\0')` and the step over the `m`.  There is no result if
the string ends. -/
def skipColorCode (V : View) : ℕ → ℕ → Except Halt (Option ℕ)
  | 0, _ => .error .outOfFuel
  | fuel + 1, c => do
    let b ← readByte V (c + 1)
    if b = 0 then .ok none
    else if b = chr 'm' then
      let b ← readByte V (c + 2)
      .ok (if b = 0 then none else some (c + 2))
    else skipColorCode V fuel (c + 1)

/-- `if (*c == '\033')`, which is compiled if color codes are hidden. -/
def hideColorCode (hide : Bool) (V : View) (fuel c : ℕ) : Except Halt (Option ℕ) := do
  let b ← readByte V c
  if hide ∧ b = escape then skipColorCode V fuel c else .ok (some c)

variable {V : View} {c fuel : ℕ} {b : UInt8}

theorem readByte_eq (h : V c = some b) : readByte V c = .ok b := by
  rw [readByte, h]

theorem readByte_eq_fault (h : V c = none) : readByte V c = .error .fault := by
  rw [readByte, h]

theorem view_eq (h : readByte V c = .ok b) : V c = some b := by
  unfold readByte at h
  split at h
  · cases h
    assumption
  · cases h

theorem hideColorCode_of_ne {hide : Bool} (h : V c = some b) (hb : b ≠ escape) :
    hideColorCode hide V fuel c = .ok (some c) := by
  rw [hideColorCode, readByte_eq h]
  exact if_neg fun h => hb h.2

namespace UART

section

variable (hide : Bool) (V : View)

/-- `out(const char*)`. -/
def out : ℕ → ℕ → Except Halt Text
  | 0, _ => .error .outOfFuel
  | fuel + 1, c => do
    let b ← readByte V c
    if b = 0 then .ok []
    else
      match ← hideColorCode hide V fuel c with
      | none => .ok []
      | some c =>
        let b ← readByte V c
        let text ← out fuel (c + 1)
        .ok (b :: text)

/-- `do { str++; numberOfBytes--; } while (*str != 'm' && numberOfBytes > 0)`. -/
def skipInBuffer : ℕ → ℕ → ℕ → Except Halt (ℕ × ℕ)
  | 0, _, _ => .error .outOfFuel
  | fuel + 1, str, numberOfBytes => do
    let b ← readByte V (str + 1)
    if b ≠ chr 'm' ∧ 0 < sub64 numberOfBytes 1 then
      skipInBuffer fuel (str + 1) (sub64 numberOfBytes 1)
    else .ok (str + 1, sub64 numberOfBytes 1)

/-- `if (*str == '\033')`, which is compiled if color codes are hidden.  There is no result if the
function returns. -/
def hideInBuffer (fuel str numberOfBytes : ℕ) : Except Halt (Option (ℕ × ℕ)) := do
  let b ← readByte V str
  if hide ∧ b = escape then
    let (str, numberOfBytes) ← skipInBuffer V fuel str numberOfBytes
    let b ← readByte V str
    .ok (if b = chr 'm' then some (str + 1, sub64 numberOfBytes 1) else none)
  else .ok (some (str, numberOfBytes))

/-- `out(uint8_t*, uint64_t)`. -/
def outBuffer : ℕ → ℕ → ℕ → Except Halt Text
  | 0, _, _ => .error .outOfFuel
  | fuel + 1, str, numberOfBytes => do
    if 0 < numberOfBytes then
      match ← hideInBuffer hide V fuel str numberOfBytes with
      | none => .ok []
      | some (str, numberOfBytes) =>
        let b ← readByte V str
        let text ← outBuffer fuel (str + 1) (sub64 numberOfBytes 1)
        .ok (b :: text)
    else .ok []

end

variable {hide : Bool} {s : Text} {str : ℕ}

theorem hideInBuffer_of_ne {n : ℕ} (h : V str = some b) (hb : b ≠ escape) :
    hideInBuffer hide V fuel str n = .ok (some (str, n)) := by
  rw [hideInBuffer, readByte_eq h]
  exact if_neg fun h => hb h.2

theorem outBuffer_eq (hs : Block V str s) (hesc : escape ∉ s) (hlen : s.length < 2 ^ 64)
    (hfuel : s.length < fuel) : outBuffer hide V fuel str s.length = .ok s := by
  induction s generalizing str fuel with
  | nil =>
    obtain ⟨fuel, rfl⟩ := Nat.exists_eq_succ_of_ne_zero (Nat.ne_of_gt hfuel)
    rfl
  | cons b s ih =>
    obtain ⟨fuel, rfl⟩ := Nat.exists_eq_succ_of_ne_zero (Nat.ne_of_gt (Nat.zero_lt_of_lt hfuel))
    obtain ⟨hview, hs⟩ := hs
    rw [List.mem_cons, not_or] at hesc
    have hpred : sub64 (b :: s).length 1 = s.length := sub64_of_le (Nat.succ_pos _) hlen
    have hrest := ih hs hesc.2 (Nat.lt_of_succ_lt hlen) (Nat.lt_of_succ_lt_succ hfuel)
    rw [outBuffer, hideInBuffer_of_ne hview (Ne.symm hesc.1)]
    refine (if_pos (Nat.succ_pos _)).trans ?_
    simp only [bind, Except.bind, readByte_eq hview, hpred, hrest]

end UART

end Eterna
