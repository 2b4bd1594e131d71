/-!
# Shortest decimals

The decimal with the fewest digits that still reads back as a given double; of several with
that many digits, the one nearest to the double, and of two as near the even one. All arithmetic
is exact, on natural numbers; a power is `Nat.pow` by name, the same term whatever instances of
`^` a theory brings in.
-/

namespace Lox.Decimal

/-- The number `digits * 10 ^ exponent`. -/
structure Scientific where
  digits : Nat
  exponent : Int
deriving DecidableEq, Repr

/-- A positive finite double: `mantissa * 2 ^ exponent`. `narrowBelow` says that the next
smaller double is only half as far away as the next larger one. -/
structure Binary where
  mantissa : Nat
  exponent : Int
  narrowBelow : Bool
deriving DecidableEq, Repr

/-- How a double is made up. -/
inductive Parts where
  | nan
  | infinite (negative : Bool)
  | zero (negative : Bool)
  | finite (negative : Bool) (magnitude : Binary)
deriving DecidableEq, Repr

/-- Reads the sign, exponent and fraction fields of a double. -/
def parts (x : Float) : Parts :=
  let bits : Nat := x.toBits.toNat
  let negative := bits / Nat.pow 2 63 == 1
  let biased : Nat := bits / Nat.pow 2 52 % Nat.pow 2 11
  let fraction := bits % Nat.pow 2 52
  if biased == 2047 then
    if fraction == 0 then .infinite negative else .nan
  else if biased == 0 then
    if fraction == 0 then .zero negative
    else .finite negative ⟨fraction, -1074, false⟩
  else
    .finite negative
      ⟨Nat.pow 2 52 + fraction, (biased : Int) - 1075, fraction == 0 && 1 < biased⟩

/-- Number of decimal digits of a natural number. -/
def digitCount (n : Nat) : Nat := (Nat.toDigits 10 n).length

/-- The exponent `e` with `10 ^ e ≤ num / den < 10 ^ (e + 1)`, for positive `num` and `den`. -/
def leadingExponent (num den : Nat) : Int :=
  if den ≤ num then (digitCount (num / den) : Int) - 1
  else
    let d := digitCount (den / num)
    if den ≤ num * Nat.pow 10 (d - 1) then 1 - (d : Int) else -(d : Int)

/-- The reals that read back as one double, scaled to whole numbers: `low / den` to
`high / den`, both ends included when `closed`, around `value / den`. -/
structure Interval where
  low : Nat
  value : Nat
  high : Nat
  den : Nat
  closed : Bool

def interval (b : Binary) : Interval :=
  let q := b.exponent - 2
  let scale := Nat.pow 2 q.toNat
  let low := if b.narrowBelow then 4 * b.mantissa - 1 else 4 * b.mantissa - 2
  ⟨low * scale, 4 * b.mantissa * scale, (4 * b.mantissa + 2) * scale, Nat.pow 2 (-q).toNat,
    b.mantissa % 2 == 0⟩

/-- Whether `n * up / down` lies in the interval. -/
def Interval.holds (i : Interval) (n up down : Nat) : Bool :=
  let x := n * up * i.den
  if i.closed then i.low * down ≤ x && x ≤ i.high * down
  else i.low * down < x && x < i.high * down

/-- The multiple of `10 ^ grid` nearest to the value among its two neighbours on that grid,
if one of them lies in the interval. Half-way between them it is the even one. -/
def Interval.onGrid (i : Interval) (grid : Int) : Option Nat :=
  let up := Nat.pow 10 grid.toNat
  let down := Nat.pow 10 (-grid).toNat
  let below := i.value * down / (i.den * up)
  let above := below + 1
  match i.holds below up down, i.holds above up down with
  | true, true =>
    let twice := i.value * down * 2
    let middle := (below + above) * up * i.den
    if twice < middle || (twice == middle && below % 2 == 0) then some below else some above
  | true, false => some below
  | false, true => some above
  | false, false => none

/-- Tries grids from coarse to fine. -/
def Interval.search (i : Interval) (lead : Int) : Nat → Scientific
  | 0 => ⟨i.value / i.den, 0⟩
  | tries + 1 =>
    let grid := lead - (16 - (tries : Int))
    match i.onGrid grid with
    | some n => ⟨n, grid⟩
    | none => i.search lead tries

/-- Drops trailing zeros of the digits, at most `fuel` of them. -/
def Scientific.trim : Nat → Scientific → Scientific
  | 0, s => s
  | fuel + 1, s =>
    if s.digits % 10 == 0 && s.digits != 0 then trim fuel ⟨s.digits / 10, s.exponent + 1⟩
    else s

/-- The shortest decimal of a positive double. Seventeen digits always suffice. -/
def shortest (b : Binary) : Scientific :=
  let i := interval b
  (i.search (leadingExponent i.value i.den) 17).trim 17

end Lox.Decimal
