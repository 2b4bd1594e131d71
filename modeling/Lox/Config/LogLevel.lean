import Lox.Decimal.Whole
import Lox.Text.Utf8
/-!
# Log levels

A log level is a number. It is written as one of four names in any case, with an offset after it
if need be: `info+2`.
-/

namespace Lox.LogLevel

/-- A letter in upper case, as far as a level's name can hold it. The dotless i has `I` as its
upper case too. -/
def upper (c : Char) : Char := if c == 'ı' then 'I' else c.toUpper

def named? (name : Bytes) : Option Int :=
  let letters := (Utf8.units name).map fun
    | .char c => upper c
    | .stray _ => '\x00'
  if letters == "DEBUG".toList then some (-4)
  else if letters == "INFO".toList then some 0
  else if letters == "WARN".toList then some 4
  else if letters == "ERROR".toList then some 8
  else none

def isSign (b : UInt8) : Bool := b == '+'.toUInt8 || b == '-'.toUInt8

/-- The level that a text names. Levels wrap around in 64 bits. -/
def read? (s : Bytes) : Option Int :=
  let name := s.takeWhile fun b => !isSign b
  let tail := s.dropWhile fun b => !isSign b
  let offset? := if tail.isEmpty then some 0
    else match Whole.read tail with
      | .ok n => some n
      | .error _ => none
  match offset?, named? name with
  | some offset, some level => some (Int.bmod (level + offset) (Nat.pow 2 64))
  | _, _ => none

end Lox.LogLevel
