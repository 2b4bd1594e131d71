import Lox.Text.Bytes
/-!
# Whole numbers

Reading a signed whole number that has to fit in 64 bits.
-/

namespace Lox.Whole

/-- Why a text is no whole number of 64 bits. -/
inductive Fault where
  | malformed
  | outOfRange
deriving DecidableEq, Repr

/-- The number that a byte stands for as a digit or letter, whatever the base. -/
def digit? (b : UInt8) : Option Nat :=
  let c := Bytes.toLower b
  if Bytes.isDigit c then some (Bytes.digitValue c)
  else if 'a'.toUInt8 ≤ c && c ≤ 'z'.toUInt8 then some (c.toNat - 'a'.toNat + 10)
  else none

/-- Reads digits of a base onto `n`. What goes wrong first counts: a byte that is no digit, or
a number that no longer fits in 64 bits. -/
def digitsOnto (base : Nat) : Nat → Bytes → Except Fault Nat
  | n, [] => .ok n
  | n, b :: rest =>
    match digit? b with
    | some d =>
      if base ≤ d then .error .malformed
      else if base * n + d < Nat.pow 2 64 then digitsOnto base (base * n + d) rest
      else .error .outOfRange
    | none => .error .malformed

/-- A number without a sign; there must be a digit. -/
def magnitude (base : Nat) (s : Bytes) : Except Fault Nat :=
  if s.isEmpty then .error .malformed else digitsOnto base 0 s

/-- The base that a text starts with the mark of, and the digits after the mark. -/
def marked (s : Bytes) : Nat × Bytes :=
  match s with
  | zero :: letter :: d :: rest =>
    if zero != '0'.toUInt8 then (10, s)
    else match (Char.ofUInt8 letter).toLower with
      | 'b' => (2, d :: rest)
      | 'o' => (8, d :: rest)
      | 'x' => (16, d :: rest)
      | _ => (8, letter :: d :: rest)
  | zero :: rest => if zero == '0'.toUInt8 then (8, rest) else (10, s)
  | [] => (10, s)

/-- A number without a sign whose base shows from its start: `0b`, `0o` or `0`, `0x`. -/
def markedMagnitude (s : Bytes) : Except Fault Nat :=
  if s.isEmpty then .error .malformed
  else let (base, digits) := marked s; digitsOnto base 0 digits

/-- A number with an optional sign, in the range of 64 bits with sign. -/
def signed (magnitude : Bytes → Except Fault Nat) (s : Bytes) : Except Fault Int :=
  let (negative, digits) := match s with
    | b :: rest =>
      if b == '-'.toUInt8 then (true, rest)
      else if b == '+'.toUInt8 then (false, rest)
      else (false, s)
    | [] => (false, s)
  match magnitude digits with
  | .error e => .error e
  | .ok n =>
    if negative then if n ≤ Nat.pow 2 63 then .ok (-(n : Int)) else .error .outOfRange
    else if n < Nat.pow 2 63 then .ok n else .error .outOfRange

/-- A decimal number with an optional sign. -/
def read (s : Bytes) : Except Fault Int := signed (magnitude 10) s

end Lox.Whole
