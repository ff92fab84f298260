import Eterna.Serial.Lookahead

/-!
# The contract of `dbgmsg_v`

A format string is read by the grammar of `debug.hpp`, and nothing beyond its end is read
(`Printer.format_printed_iff`).  What is printed is a documented text exactly if the arguments are
regular, which means that `%s` gets a plain string, `%ill` and `%dll` another number than `-2 ^ 63`,
and `%f` a number that `to_string` can print.
-/

namespace Eterna

open CStrings LongestMatch Numerals Outcome

namespace Printer

variable {P : Printer} {p : ℕ} {args : VaList} {fmt : Text}

/-- `%ill` -/
def numberFormat : Text := ['%', 'i', 'l', 'l'].map chr

end Printer

end Eterna
