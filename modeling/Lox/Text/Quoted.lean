import Lox.Text.Printable
import Lox.Text.Utf8
/-!
# Quoted text

The double-quoted form of a byte string. It is plain printable text: quotes and backslashes
are escaped, control characters have short or hexadecimal escapes, and bytes that belong to
no character are written as `\xNN`.
-/

namespace Lox.Quoted

/-- The letter of a short escape. -/
def shortEscape? : Char → Option Char
  | '\x07' => some 'a'
  | '\x08' => some 'b'
  | '\x0c' => some 'f'
  | '\n' => some 'n'
  | '\r' => some 'r'
  | '\t' => some 't'
  | '\x0b' => some 'v'
  | _ => none

def hexEscape (letter : Char) (width n : Nat) : Bytes :=
  '\\'.toUInt8 :: letter.toUInt8 :: Bytes.hex width n

def encodeChar (c : Char) : Bytes :=
  if c == '"' || c == '\\' then ['\\'.toUInt8, c.toUInt8]
  else if isPrintable c then Bytes.ofChar c
  else match shortEscape? c with
    | some letter => ['\\'.toUInt8, letter.toUInt8]
    | none =>
      if c.toNat < 0x80 then hexEscape 'x' 2 c.toNat
      else if c.toNat < 0x10000 then hexEscape 'u' 4 c.toNat
      else hexEscape 'U' 8 c.toNat

def encodeUnit : TextUnit → Bytes
  | .char c => encodeChar c
  | .stray b => hexEscape 'x' 2 b.toNat

/-- The quoted form of a text. -/
def encode (s : Bytes) : Bytes :=
  '"'.toUInt8 :: ((Utf8.units s).flatMap encodeUnit ++ ['"'.toUInt8])

end Lox.Quoted
