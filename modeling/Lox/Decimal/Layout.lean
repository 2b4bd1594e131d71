import Lox.Decimal.Shortest
import Lox.Text.Bytes
/-!
# Layouts of numbers

How the shortest digits of a double are written out. A `Layout` says when an exponent is used
and how infinities and not-a-number are spelled.
-/

namespace Lox.Decimal

/-- The decisions of a number format. With `exponentFrom = some (low, high)`, numbers whose leading
digit stands below `10 ^ low` or from `10 ^ high` on get an exponent; with `none` no number does. -/
structure Layout where
  exponentFrom : Option (Int × Int)
  positiveInfinity : String
  negativeInfinity : String
  notANumber : String

def zeros (n : Nat) : Bytes := List.replicate n '0'.toUInt8

/-- Digits with the decimal point where it belongs, and no exponent. -/
def positional (s : Scientific) : Bytes :=
  let ds := Bytes.ofNat s.digits
  if 0 ≤ s.exponent then ds ++ zeros s.exponent.toNat
  else
    let places := (-s.exponent).toNat
    if places < ds.length then
      ds.take (ds.length - places) ++ '.'.toUInt8 :: ds.drop (ds.length - places)
    else '0'.toUInt8 :: '.'.toUInt8 :: (zeros (places - ds.length) ++ ds)

/-- The exponent of the leading digit. -/
def Scientific.lead (s : Scientific) : Int :=
  s.exponent + (digitCount s.digits : Int) - 1

/-- One digit before the point, and an exponent with a sign and at least two digits. -/
def exponential (s : Scientific) : Bytes :=
  let ds := Bytes.ofNat s.digits
  let mantissa := match ds with
    | d :: e :: rest => d :: '.'.toUInt8 :: e :: rest
    | short => short
  let e := Bytes.ofNat s.lead.natAbs
  mantissa ++ 'e'.toUInt8 :: (if s.lead < 0 then '-'.toUInt8 else '+'.toUInt8) ::
    (zeros (2 - e.length) ++ e)

def Layout.magnitude (l : Layout) (s : Scientific) : Bytes :=
  match l.exponentFrom with
  | some (low, high) => if s.lead < low || high ≤ s.lead then exponential s else positional s
  | none => positional s

def signed (negative : Bool) (text : Bytes) : Bytes :=
  if negative then '-'.toUInt8 :: text else text

/-- Writes a double. -/
def Layout.write (l : Layout) (x : Float) : Bytes :=
  match parts x with
  | .nan => utf8 l.notANumber
  | .infinite false => utf8 l.positiveInfinity
  | .infinite true => utf8 l.negativeInfinity
  | .zero negative => signed negative ['0'.toUInt8]
  | .finite negative b => signed negative (l.magnitude (shortest b))

/-- The double nearest to `digits * 10 ^ exponent`. Exponents that are out of all proportion are
settled without computing the power. -/
def scale (digits : Nat) (exponent : Int) : Float :=
  let lead := exponent + (digitCount digits : Int)
  if digits = 0 || lead < -400 then 0
  else if 400 < lead then 1 / 0
  else if exponent < 0 then Float.ofScientific digits true exponent.natAbs
  else Float.ofScientific digits false exponent.natAbs

/-- Reads `whole.fraction`, both rows of decimal digits, as the nearest double. -/
def read (whole fraction : Bytes) : Float :=
  Float.ofScientific (Bytes.readNat (whole ++ fraction)) true fraction.length

/-- Reads a number with an optional minus sign, point and exponent as the nearest double. -/
def readScientific (text : Bytes) : Float :=
  let negative := text.head? == some '-'.toUInt8
  let text := if negative then text.tail else text
  let isExponentMark (b : UInt8) : Bool := b == 'e'.toUInt8 || b == 'E'.toUInt8
  let mantissa := text.takeWhile fun b => !isExponentMark b
  let exponent := (text.dropWhile fun b => !isExponentMark b).drop 1
  let point := '.'.toUInt8
  let whole := mantissa.takeWhile (· != point)
  let fraction := (mantissa.dropWhile (· != point)).drop 1
  let down := exponent.head? == some '-'.toUInt8
  let size := Bytes.readNat (exponent.filter Bytes.isDigit)
  let x := scale (Bytes.readNat (whole ++ fraction))
    ((if down then -(size : Int) else size) - fraction.length)
  if negative then -x else x

end Lox.Decimal
