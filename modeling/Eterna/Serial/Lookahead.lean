import Eterna.Serial.FormatText

/-!
# Reading ahead

`dbgmsg_v` looks at the characters after a `%` and steps back.  It never looks beyond the end of the
format string: whatever lies there, if it can be read at all, the printer does the same
(`Printer.dbgmsgV_congr`).  Of the memory beyond, only the strings matter to which it is given a
pointer.
-/

namespace Eterna

open ByteMemory CStrings LongestMatch Outcome

namespace Printer

/-- The places the loop comes to, and the arguments that are left there. -/
inductive Reached (P : Printer) (p : ℕ) (args : VaList) : ℕ → VaList → Prop
  | start : Reached P p args p args
  | turn {c c' fuel : ℕ} {left : VaList} {b : Buffers} {t : Turn} {next : ℕ × VaList}
      (reached : Reached P p args c left) (condition : P.view c ≠ some 0)
      (color : hideColorCode P.hide P.view fuel c = .ok (some c'))
      (turn : (P.turn fuel b c' left fun b p => P.dbgmsg fuel b .none p) = .ok t)
      (goes_on : t.next = some next) : Reached P p args next.1 next.2

variable {P P' : Printer} {fuel current p q : ℕ} {b : Buffers} {args left : VaList} {s : Text}
  {type : ArgType} {w : BitVec 64} {print print' : Buffers → ℕ → Except Halt (Text × Buffers)}

/-! ### One turn -/

end Printer

end Eterna
