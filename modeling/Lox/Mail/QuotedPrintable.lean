import Lox.Text.Bytes
/-!
# Quoted-printable text

Text for the body of a mail: lines of at most 76 characters that end in a carriage return and a
newline, with every byte outside of printable ASCII as `=` and two hexadecimal digits. A line
that is too long is broken after an `=`, and white space at the end of a line is encoded.
-/

namespace Lox.QuotedPrintable

/-- How many characters a line may have before the `=` that breaks it. -/
def room : Nat := 75

/-- A text as far as it is written: the finished lines, the last one first, the characters of
the current line, the last one first, and whether the last line end was a carriage return. -/
structure Page where
  lines : List Bytes
  current : Bytes
  afterReturn : Bool

namespace Page

def blank : Page := ⟨[], [], false⟩

def endLine (p : Page) : Page :=
  { p with lines := (p.current.reverse ++ utf8 "\r\n") :: p.lines, current := [] }

/-- Breaks a line where the text has no line end. -/
def breakLine (p : Page) : Page := { p with current := '='.toUInt8 :: p.current }.endLine

def upperHex (b : UInt8) : Bytes := (Bytes.hex 2 b.toNat).map Bytes.toUpper

def encode (p : Page) (b : UInt8) : Page :=
  let p := if room < p.current.length + 3 then p.breakLine else p
  { p with current := (upperHex b).reverse ++ '='.toUInt8 :: p.current }

def put (p : Page) (b : UInt8) : Page :=
  let p := if p.current.length = room then p.breakLine else p
  { p with current := b :: p.current, afterReturn := false }

def isBlank (b : UInt8) : Bool := b == ' '.toUInt8 || b == '\t'.toUInt8

/-- Encodes white space at the end of the current line. -/
def closeLine (p : Page) : Page :=
  match p.current with
  | b :: before => if isBlank b then { p with current := before }.encode b else p
  | [] => p

def lineEnd (p : Page) (b : UInt8) : Page :=
  if p.afterReturn && b == '\n'.toUInt8 then { p with afterReturn := false }
  else { p.closeLine.endLine with afterReturn := b == '\r'.toUInt8 }

/-- Bytes that stand for themselves. -/
def isLiteral (b : UInt8) : Bool :=
  isBlank b || ('!'.toUInt8 ≤ b && b ≤ '~'.toUInt8 && b != '='.toUInt8)

def write (p : Page) (b : UInt8) : Page :=
  if isLiteral b then p.put b
  else if b == '\n'.toUInt8 || b == '\r'.toUInt8 then p.lineEnd b
  else p.encode b

end Page

/-- The quoted-printable form of a text. -/
def encode (s : Bytes) : Bytes :=
  let p := (s.foldl Page.write Page.blank).closeLine
  (p.current.reverse :: p.lines).reverse.flatten

end Lox.QuotedPrintable
