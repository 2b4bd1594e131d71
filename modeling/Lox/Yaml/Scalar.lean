import Lox.Decimal.Layout
import Lox.Decimal.Whole
import Lox.Text.Base64
import Lox.Yaml.Fault
/-!
# Scalars

What a scalar stands for: nothing, a truth value, a number, a point in time, or a text. That shows
from how it is written, if it has no quotes, or from its tag.
-/

namespace Lox.Yaml

/-- The value of a scalar. -/
inductive Scalar where
  | null
  | bool
  | int (n : Int)
  | float (x : Float)
  | timestamp
  | text (s : Bytes)

namespace Scalar

/-- The tag of a value's type. -/
def tag : Scalar → String
  | null => "!!null"
  | bool => "!!bool"
  | int _ => "!!int"
  | float _ => "!!float"
  | timestamp => "!!timestamp"
  | text _ => "!!str"

/-- The tag of the text itself. -/
def textTag : Bytes := utf8 "!!str"

/-- The tag of data written in letters. -/
def binaryTag : Bytes := utf8 "!!binary"

/-- The tag of the key that merges a mapping. -/
def mergeTag : Bytes := utf8 "!!merge"

/-- Words that stand for something other than themselves. -/
def word? (s : Bytes) : Option Scalar :=
  let isOneOf (words : List String) : Bool := words.any fun w => utf8 w == s
  if isOneOf ["", "~", "null", "Null", "NULL"] then some .null
  else if isOneOf ["true", "True", "TRUE", "false", "False", "FALSE"] then some .bool
  else if isOneOf [".nan", ".NaN", ".NAN"] then some (.float (0 / 0))
  else if isOneOf [".inf", ".Inf", ".INF", "+.inf", "+.Inf", "+.INF"] then some (.float (1 / 0))
  else if isOneOf ["-.inf", "-.Inf", "-.INF"] then some (.float (-1 / 0))
  else none

/-! ## Points in time -/

/-- A number of one or two digits below `limit`. -/
def smallNumber? (limit : Nat) (s : Bytes) : Option (Nat × Bytes) :=
  let digits := (s.take 2).takeWhile Bytes.isDigit
  let n := Bytes.readNat digits
  if digits.isEmpty || limit ≤ n then none else some (n, s.drop digits.length)

def isLeap (year : Nat) : Bool := year % 4 == 0 && (year % 100 != 0 || year % 400 == 0)

def daysOf (year month : Nat) : Nat :=
  if month = 2 then (if isLeap year then 29 else 28)
  else if month = 4 || month = 6 || month = 9 || month = 11 then 30
  else 31

/-- What follows a date such as `2006-1-2`. -/
def date? (s : Bytes) : Option Bytes := do
  let year := s.takeWhile Bytes.isDigit
  if year.length != 4 then none
  let s ← Bytes.dropStart? (utf8 "-") (s.drop 4)
  let (month, s) ← smallNumber? 13 s
  let s ← Bytes.dropStart? (utf8 "-") s
  let (day, s) ← smallNumber? 32 s
  if month = 0 || day = 0 || daysOf (Bytes.readNat year) month < day then none else some s

/-- What follows a time such as `15:4:5.25`. -/
def time? (s : Bytes) : Option Bytes := do
  let (_, s) ← smallNumber? 24 s
  let s ← Bytes.dropStart? (utf8 ":") s
  let (_, s) ← smallNumber? 60 s
  let s ← Bytes.dropStart? (utf8 ":") s
  let (_, s) ← smallNumber? 60 s
  match s with
  | mark :: d :: rest =>
    if (mark == '.'.toUInt8 || mark == ','.toUInt8) && Bytes.isDigit d then
      some (rest.dropWhile Bytes.isDigit)
    else some s
  | _ => some s

/-- Whether a text is a time zone: `Z` or an offset such as `+02:00`. -/
def isZone (s : Bytes) : Bool :=
  match s with
  | [z] => z == 'Z'.toUInt8
  | [sign, h₁, h₂, colon, m₁, m₂] =>
    (sign == '+'.toUInt8 || sign == '-'.toUInt8) && colon == ':'.toUInt8 &&
      [h₁, h₂, m₁, m₂].all Bytes.isDigit &&
      Bytes.readNat [h₁, h₂] ≤ 24 && Bytes.readNat [m₁, m₂] ≤ 60
  | _ => false

/-- A date, or a date with a time. Blanks or a `T` stand between them; after a `T` there has to be a
time zone. -/
def isTimestamp (s : Bytes) : Bool :=
  match date? s with
  | none => false
  | some [] => true
  | some (mark :: rest) =>
    if mark == ' '.toUInt8 then time? (rest.dropWhile (· == ' '.toUInt8)) == some []
    else (mark == 'T'.toUInt8 || mark == 't'.toUInt8) && (time? rest).any isZone

/-! ## Numbers -/

/-- Whether a text is a decimal number with an optional sign, point and exponent. -/
def isDecimal (s : Bytes) : Bool :=
  let unsigned (t : Bytes) : Bytes := match t with
    | b :: rest => if b == '+'.toUInt8 || b == '-'.toUInt8 then rest else t
    | [] => t
  let s := unsigned s
  let whole := s.takeWhile Bytes.isDigit
  let s := s.dropWhile Bytes.isDigit
  let (fraction, s) := match s with
    | b :: rest =>
      if b == '.'.toUInt8 then (rest.takeWhile Bytes.isDigit, rest.dropWhile Bytes.isDigit)
      else ([], s)
    | [] => ([], s)
  let exponentIsGood := match s with
    | b :: rest =>
      (b == 'e'.toUInt8 || b == 'E'.toUInt8) && !(unsigned rest).isEmpty &&
        (unsigned rest).all Bytes.isDigit
    | [] => true
  !(whole.isEmpty && fraction.isEmpty) && exponentIsGood

/-- A decimal number that a double can hold. -/
def float? (s : Bytes) : Option Scalar :=
  let x := Decimal.readScientific (if s.head? == some '+'.toUInt8 then s.drop 1 else s)
  if isDecimal s && x.isFinite then some (.float x) else none

/-- Whether every underscore stands between two digits; `after` tells whether a digit came last. -/
def isSeparated (after : Bool) : Bytes → Bool
  | [] => true
  | b :: rest =>
    (b != '_'.toUInt8 || (after && rest.head?.any Bytes.isDigit)) &&
      isSeparated (Bytes.isDigit b) rest

/-- A number that starts with a point. Underscores may divide its digits. -/
def fraction? (s : Bytes) : Option Scalar :=
  if isSeparated false s then float? (s.filter (· != '_'.toUInt8)) else none

/-- A whole number of a base after a mark such as `0b`; the sign may stand on either side of it, but
only once. -/
def based? (mark : String) (base : Nat) (s : Bytes) : Option Int :=
  let read (t : Bytes) : Except Whole.Fault Int := Whole.signed (Whole.magnitude base) t
  match Bytes.dropStart? (utf8 mark) s with
  | some digits => ((read digits).toOption).or (((Whole.magnitude base digits).toOption).map (↑·))
  | none =>
    match Bytes.dropStart? (utf8 ("-" ++ mark)) s with
    | some digits => (read ('-'.toUInt8 :: digits)).toOption
    | none => none

/-- A whole number with or without sign, in the range of 64 bits; underscores do not count. -/
def number? (s : Bytes) : Option Scalar :=
  let s := s.filter (· != '_'.toUInt8)
  let whole : Option Int :=
    ((Whole.signed Whole.markedMagnitude s).toOption).or
      (((Whole.markedMagnitude s).toOption).map (↑·))
  match whole with
  | some n => some (.int n)
  | none => (float? s).or (((based? "0b" 2 s).or (based? "0o" 8 s)).map .int)

def isSign (b : UInt8) : Bool := b == '+'.toUInt8 || b == '-'.toUInt8

/-- What a scalar stands for by how it is written. Only if `dated` can it be a point in time. -/
def ofPlain (dated : Bool) (s : Bytes) : Scalar :=
  match word? s with
  | some v => v
  | none =>
    match s with
    | [] => .null
    | b :: _ =>
      if b == '.'.toUInt8 then (fraction? s).getD (.text s)
      else if Bytes.isDigit b || isSign b then
        if dated && isTimestamp s then .timestamp else (number? s).getD (.text s)
      else .text s

/-- The tag that a scalar without quotes has by itself. -/
def plainTag (s : Bytes) : Bytes :=
  if s == utf8 "<<" then mergeTag else utf8 (ofPlain true s).tag

/-! ## Tags -/

/-- Tags that say how a scalar is to be read. -/
def readingTags : List String := ["!!bool", "!!int", "!!float", "!!null", "!!timestamp"]

/-- The value of a scalar with a tag. The text has to fit the tag; a whole number fits the tag of
other numbers too, if it fits 64 bits with sign. Under a tag of no meaning a scalar is its text. -/
def ofTagged (tag s : Bytes) : Except Problem Scalar :=
  if readingTags.any fun t => utf8 t == tag then
    let v := ofPlain (tag == utf8 timestamp.tag) s
    if tag == utf8 v.tag then .ok v
    else match v with
      | .int n =>
        if tag == utf8 "!!float" && n < Nat.pow 2 63 then .ok (.float (Float.ofInt n))
        else .error (.wrongType v.tag s tag)
      | _ => .error (.wrongType v.tag s tag)
  else if tag == binaryTag then
    match Base64.decodePadded? Base64.standard s with
    | some data => .ok (.text data)
    | none => .error .binaryData
  else .ok (.text s)

end Scalar

end Lox.Yaml
