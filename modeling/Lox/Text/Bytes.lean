/-!
# Byte text

Source text, names, lexemes, string values and everything the program prints are byte
strings: none of them has to be valid UTF-8.
-/

namespace Lox

/-- Text as the bytes it is made of. -/
abbrev Bytes := List UInt8

/-- The bytes of a character string, encoded as UTF-8. -/
def utf8 (s : String) : Bytes := s.toUTF8.data.toList

namespace Bytes

/-- The bytes of one character. -/
def ofChar (c : Char) : Bytes := utf8 (String.singleton c)

/-- A natural number in decimal digits. -/
def ofNat (n : Nat) : Bytes := (Nat.toDigits 10 n).map Char.toUInt8

/-- An integer in decimal digits, with a minus sign when it is negative. -/
def ofInt (i : Int) : Bytes :=
  if i < 0 then '-'.toUInt8 :: ofNat i.natAbs else ofNat i.natAbs

def newline : UInt8 := '\n'.toUInt8

def isDigit (b : UInt8) : Bool := '0'.toUInt8 ≤ b && b ≤ '9'.toUInt8

def isLetter (b : UInt8) : Bool :=
  ('a'.toUInt8 ≤ b && b ≤ 'z'.toUInt8) || ('A'.toUInt8 ≤ b && b ≤ 'Z'.toUInt8) ||
    b == '_'.toUInt8

/-- The number that a byte stands for as a decimal digit. -/
def digitValue (b : UInt8) : Nat := b.toNat - '0'.toNat

/-- The number written by a row of decimal digits. -/
def readNat (ds : Bytes) : Nat := ds.foldl (fun n d => 10 * n + digitValue d) 0

/-- Order of byte strings: bytewise, a proper start comes first. -/
def le : Bytes → Bytes → Bool
  | [], _ => true
  | _ :: _, [] => false
  | a :: s, b :: t => a < b || (a == b && le s t)

/-- Joins texts with a separator between neighbours. -/
def join (sep : Bytes) : List Bytes → Bytes
  | [] => []
  | [s] => s
  | s :: t :: rest => s ++ sep ++ join sep (t :: rest)

/-- The pieces between separator bytes; there is always one more piece than separators. -/
def splitOn (sep : UInt8) : Bytes → List Bytes
  | [] => [[]]
  | b :: s =>
    match splitOn sep s with
    | [] => [[b]]
    | piece :: rest => if b == sep then [] :: piece :: rest else (b :: piece) :: rest

/-- Hexadecimal digits of `n`, at least `width` of them. -/
def hex (width n : Nat) : Bytes :=
  let ds := (Nat.toDigits 16 n).map Char.toUInt8
  List.replicate (width - ds.length) '0'.toUInt8 ++ ds

def toLower (b : UInt8) : UInt8 :=
  if 'A'.toUInt8 ≤ b && b ≤ 'Z'.toUInt8 then b + 32 else b

def toUpper (b : UInt8) : UInt8 :=
  if 'a'.toUInt8 ≤ b && b ≤ 'z'.toUInt8 then b - 32 else b

/-- The text after a given start, if it starts so. -/
def dropStart? : Bytes → Bytes → Option Bytes
  | [], s => some s
  | _ :: _, [] => none
  | a :: start, b :: s => if a == b then dropStart? start s else none

def startsWith (start s : Bytes) : Bool := (dropStart? start s).isSome

def endsWith (tail s : Bytes) : Bool := startsWith tail.reverse s.reverse

end Bytes

end Lox
