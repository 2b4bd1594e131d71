import Lox.Text.Bytes
/-!
# Durations

A duration is a number of nanoseconds that fits in 64 bits with sign. It is written with units,
as in `1h30m` or `1.5s`.
-/

namespace Lox

/-- A span of time in nanoseconds. -/
abbrev Duration := Int

namespace Duration

def microsecond : Nat := 1000

def millisecond : Nat := 1000 * microsecond

def second : Nat := 1000 * millisecond

def minute : Nat := 60 * second

def hour : Nat := 60 * minute

/-- A number of seconds. A duration that does not fit wraps around. -/
def ofSeconds (n : Int) : Duration := (n * second).bmod (Nat.pow 2 64)

/-- The length of a unit. Both the micro sign and the letter mu stand for micro. -/
def unit? (name : Bytes) : Option Nat :=
  if name == utf8 "ns" then some 1
  else if name == utf8 "us" || name == utf8 "µs" || name == utf8 "μs" then
    some microsecond
  else if name == utf8 "ms" then some millisecond
  else if name == utf8 "s" then some second
  else if name == utf8 "m" then some minute
  else if name == utf8 "h" then some hour
  else none

/-! ## Reading -/

/-- Why a text is no duration. -/
inductive Cause where
  | invalid
  | missingUnit
  | unknownUnit (name : Bytes)

/-- A text in double quotes, with every byte outside of ASCII or below the blank in
hexadecimal. -/
def quote (s : Bytes) : Bytes :=
  let body := s.flatMap fun b =>
    if b < 0x20 || 0x80 ≤ b then '\\'.toUInt8 :: 'x'.toUInt8 :: Bytes.hex 2 b.toNat
    else if b == '"'.toUInt8 || b == '\\'.toUInt8 then ['\\'.toUInt8, b]
    else [b]
  '"'.toUInt8 :: (body ++ ['"'.toUInt8])

/-- What is said about a text that is no duration. -/
def Cause.message (text : Bytes) : Cause → Bytes
  | invalid => utf8 "time: invalid duration " ++ quote text
  | missingUnit => utf8 "time: missing unit in duration " ++ quote text
  | unknownUnit name =>
    utf8 "time: unknown unit " ++ quote name ++ utf8 " in duration " ++ quote text

/-- The digits after a decimal point as a number and its scale. Digits that would take the
number past 63 bits are left out. -/
def fraction (digits : Bytes) : Nat × Float :=
  let (n, scale, _) := digits.foldl (fun (n, scale, full) d =>
    let m := 10 * n + Bytes.digitValue d
    if full || (Nat.pow 2 63 - 1) / 10 < n || Nat.pow 2 63 < m then (n, scale, true)
    else (m, scale * 10, false)) (0, (1 : Float), false)
  (n, scale)

/-- The nanoseconds of a number of units: `whole` of them and a fraction. -/
def amount? (whole : Nat) (digits : Bytes) (unit : Nat) : Option Nat :=
  if Nat.pow 2 63 / unit < whole then none
  else
    let (f, scale) := fraction digits
    let part := if f = 0 then 0 else (f.toFloat * (unit.toFloat / scale)).toUInt64.toNat
    let sum := whole * unit + part
    if Nat.pow 2 63 < sum then none else some sum

def isPoint (b : UInt8) : Bool := b == '.'.toUInt8

/-- Adds numbers with units up. A sum past 64 bits starts again from zero. -/
def terms : Nat → Nat → Bytes → Except Cause Nat
  | _, sum, [] => .ok sum
  | 0, sum, _ => .ok sum
  | fuel + 1, sum, s =>
    let whole := s.takeWhile Bytes.isDigit
    let s := s.dropWhile Bytes.isDigit
    let (digits, s, pointed) := match s with
      | b :: rest =>
        if isPoint b then (rest.takeWhile Bytes.isDigit, rest.dropWhile Bytes.isDigit, true)
        else ([], s, false)
      | [] => ([], s, false)
    if whole.isEmpty && digits.isEmpty then .error .invalid
    else if Nat.pow 2 63 < Bytes.readNat whole then .error .invalid
    else
      let inUnit (b : UInt8) : Bool := !(isPoint b || Bytes.isDigit b)
      let name := s.takeWhile inUnit
      if name.isEmpty then .error .missingUnit
      else match unit? name with
        | none => .error (.unknownUnit name)
        | some unit =>
          match amount? (Bytes.readNat whole) (if pointed then digits else []) unit with
          | none => .error .invalid
          | some n =>
            let sum := (sum + n) % Nat.pow 2 64
            if Nat.pow 2 63 < sum then .error .invalid
            else terms fuel sum (s.dropWhile inUnit)

/-- Reads a duration: an optional sign, then `0` alone or numbers with units. -/
def read (text : Bytes) : Except Cause Duration :=
  let (negative, s) := match text with
    | b :: rest =>
      if b == '-'.toUInt8 then (true, rest)
      else if b == '+'.toUInt8 then (false, rest)
      else (false, text)
    | [] => (false, text)
  if s == utf8 "0" then .ok 0
  else if s.isEmpty then .error .invalid
  else match terms s.length 0 s with
    | .error e => .error e
    | .ok sum =>
      if negative then .ok (-(sum : Int))
      else if sum < Nat.pow 2 63 then .ok sum
      else .error .invalid

/-! ## Writing -/

/-- A number of `10 ^ places`-ths, without zeros at the end. -/
def writeParts (places n : Nat) : Bytes :=
  let digits := Bytes.ofNat (n % Nat.pow 10 places)
  let digits := List.replicate (places - digits.length) '0'.toUInt8 ++ digits
  let digits := (digits.reverse.dropWhile (· == '0'.toUInt8)).reverse
  Bytes.ofNat (n / Nat.pow 10 places) ++
    (if n % Nat.pow 10 places = 0 then [] else '.'.toUInt8 :: digits)

/-- A span below a second in its largest unit, any other in hours, minutes and seconds. -/
def writeSpan (n : Nat) : Bytes :=
  if n = 0 then utf8 "0s"
  else if n < microsecond then Bytes.ofNat n ++ utf8 "ns"
  else if n < millisecond then writeParts 3 n ++ utf8 "µs"
  else if n < second then writeParts 6 n ++ utf8 "ms"
  else
    let hours := n / hour
    let minutes := n / minute % 60
    (if hours = 0 then [] else Bytes.ofNat hours ++ utf8 "h") ++
      (if n < minute then [] else Bytes.ofNat minutes ++ utf8 "m") ++
      writeParts 9 (n % minute) ++ utf8 "s"

def toBytes (d : Duration) : Bytes :=
  if d < 0 then '-'.toUInt8 :: writeSpan d.natAbs else writeSpan d.natAbs

end Duration

end Lox
