import Lox.Mail.QuotedPrintable
import Lox.Text.Blank
/-!
# Header values

A header value that is not printable ASCII is written as encoded words of at most 75 characters.
No character is divided between two words.
-/

namespace Lox.HeaderText

/-- Whether a value cannot be written as it is. -/
def needsEncoding (s : Bytes) : Bool :=
  s.any fun b => (b < 0x20 || 0x7E < b) && b != '\t'.toUInt8

/-- Printable bytes with no meaning of their own in an encoded word. -/
def isLiteral (b : UInt8) : Bool :=
  '!'.toUInt8 ≤ b && b ≤ '~'.toUInt8 && b != '='.toUInt8 && b != '?'.toUInt8 && b != '_'.toUInt8

def encodeByte (b : UInt8) : Bytes :=
  if b == ' '.toUInt8 then ['_'.toUInt8]
  else if isLiteral b then [b]
  else '='.toUInt8 :: QuotedPrintable.Page.upperHex b

def opening : Bytes := utf8 "=?UTF-8?q?"

def closing : Bytes := utf8 "?="

/-- How much text an encoded word can hold. -/
def room : Nat := 75 - opening.length - closing.length

/-- Fills words with the encoded characters of a text; `used` is taken of the current word. -/
def fill (used : Nat) : List Bytes → Bytes
  | [] => closing
  | piece :: rest =>
    if room < used + piece.length then
      closing ++ ' '.toUInt8 :: opening ++ piece ++ fill piece.length rest
    else piece ++ fill (used + piece.length) rest

/-- A header value as it is written. -/
def encode (s : Bytes) : Bytes :=
  if needsEncoding s then
    opening ++ fill 0 ((Utf8.units s).map fun u => (Utf8.encodeUnit u).flatMap encodeByte)
  else s

end Lox.HeaderText
