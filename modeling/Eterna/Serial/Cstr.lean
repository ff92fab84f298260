import Eterna.Library.CStrings
import Mathlib.Data.Int.Notation

/-!
# Numerals

`to_string` and `to_hexstring` of `cstr.cc`, which write a numeral and its terminator into a static
buffer.
-/

namespace Eterna

open ByteMemory CStrings

/-- Bytes that are printed. -/
abbrev Text := List UInt8

/-- A character of the source. -/
def chr (c : Char) : UInt8 := c.toUInt8

/-- `trueString`. -/
def trueString (hide : Bool) : Text :=
  if hide then ['T', 'r', 'u', 'e'].map chr
  else 27 :: ['[', '3', '2', 'm', 'T', 'r', 'u', 'e'].map chr ++ 27 :: ['[', '0', 'm'].map chr

/-- `falseString`. -/
def falseString (hide : Bool) : Text :=
  if hide then ['F', 'a', 'l', 's', 'e'].map chr
  else 27 :: ['[', '3', '1', 'm', 'F', 'a', 'l', 's', 'e'].map chr ++ 27 :: ['[', '0', 'm'].map chr

/-- `while (val_cpy / 10 > 0)`, which counts the digits after the first; a `uint64_t` has 20 at
most. -/
def countDigits : ℕ → ℕ → ℕ
  | 0, _ => 0
  | fuel + 1, value => if 0 < value / 10 then countDigits fuel (value / 10) + 1 else 0

/-- The digit `remainder + '0'`, a `uint8_t`. -/
def digit (remainder : ℤ) : UInt8 := UInt8.ofNat ((remainder + 48) % 256).toNat

/-- `while (value / 10 > 0)`, which writes the digits from the last one on, and the write of the
first digit after it.  The next digit goes to `top - index`. -/
def putDigits (top : ℕ) : ℕ → ℕ → ℤ → Memory → Memory
  | 0, _, _, buf => buf
  | fuel + 1, index, value, buf =>
    let buf := Function.update buf (top - index) (digit (value.tmod 10))
    if 0 < value.tdiv 10 then putDigits top fuel (index + 1) (value.tdiv 10) buf else buf

/-- `to_string(uint64_t)`, and after zero extension `to_string` of the narrower types: what
`uint_to_str_buf` holds afterwards. -/
def toStringUnsigned (buf : Memory) {w : ℕ} (value : BitVec w) : Memory :=
  let value := value.toNat
  let length := countDigits 20 value
  Function.update (putDigits length 20 0 value buf) (length + 1) 0

/-- `to_string(int64_t)`, and after sign extension `to_string` of the narrower types: what
`int_to_str_buf` holds afterwards.  Negation wraps. -/
def toStringSigned (buf : Memory) {w : ℕ} (value : BitVec w) : Memory :=
  let value := value.signExtend 64
  let isNegative := if value.toInt < 0 then 1 else 0
  let buf := if value.toInt < 0 then Function.update buf 0 (chr '-') else buf
  let value := if value.toInt < 0 then -value else value
  let length := countDigits 20 value.toNat
  Function.update (putDigits (isNegative + length) 20 0 value.toInt buf) (isNegative + length + 1) 0

/-- `hexmap`. -/
def hexmap : Text :=
  ['0', '1', '2', '3', '4', '5', '6', '7', '8', '9', 'a', 'b', 'c', 'd', 'e', 'f'].map chr

/-- `hexmap_capital`. -/
def hexmapCapital : Text :=
  ['0', '1', '2', '3', '4', '5', '6', '7', '8', '9', 'A', 'B', 'C', 'D', 'E', 'F'].map chr

/-- `for (; n >= 0; --n)`, which writes the digit `n` of `map` to the place `i`, and the
terminator. -/
def putHexDigitsOf (map : Text) (value : BitVec 64) : ℕ → ℕ → Memory → Memory
  | 0, i, buf => Function.update buf i 0
  | n + 1, i, buf =>
    let tmp := (value >>> (n * 4)) &&& 0xf#64
    putHexDigitsOf map value n (i + 1) (Function.update buf i (map.getD tmp.toNat 0))

/-- `to_hexstring(uint64_t, bool)`: what `hex_to_string_buf` holds afterwards. -/
def toHexstringCase (buf : Memory) (value : BitVec 64) (capital : Bool) : Memory :=
  putHexDigitsOf (if capital then hexmapCapital else hexmap) value 16 0 buf

/-- `to_hexstring(uint64_t)`, whose digits are small by default. -/
def toHexstring (buf : Memory) (value : BitVec 64) : Memory := toHexstringCase buf value false

/-- `TO_STRING_BUF_SZ`. -/
def toStringBufSz : ℕ := 20

/-- The static buffers of `cstr.cc`. -/
structure Buffers where
  /-- `uint_to_str_buf`. -/
  uint : Memory
  /-- `int_to_str_buf`. -/
  int : Memory
  /-- `hex_to_string_buf`. -/
  hex : Memory
  /-- `dbl_to_str_buf`. -/
  dbl : Memory

/-- The buffers as the kernel is loaded. -/
def Buffers.zero : Buffers := ⟨fun _ => 0, fun _ => 0, fun _ => 0, fun _ => 0⟩

end Eterna
