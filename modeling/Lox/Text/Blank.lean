import Lox.Text.Utf8
/-!
# White space

Characters that are white space in Unicode, and texts without the white space at their ends.
-/

namespace Lox

/-- Whether a character is white space. -/
def isSpace (c : Char) : Bool :=
  let n := c.toNat
  (0x09 ≤ n && n ≤ 0x0D) || n == 0x20 || n == 0x85 || n == 0xA0 || n == 0x1680 ||
    (0x2000 ≤ n && n ≤ 0x200A) || n == 0x2028 || n == 0x2029 || n == 0x202F ||
    n == 0x205F || n == 0x3000

namespace Utf8

/-- The bytes that a unit was read from. -/
def encodeUnit : TextUnit → Bytes
  | .char c => Bytes.ofChar c
  | .stray b => [b]

def unitIs (p : Char → Bool) : TextUnit → Bool
  | .char c => p c
  | .stray _ => false

/-- The text without the characters at its start that satisfy `p`. -/
def trimStart (p : Char → Bool) (s : Bytes) : Bytes :=
  ((units s).dropWhile (unitIs p)).flatMap encodeUnit

/-- The text without the characters at its end that satisfy `p`. -/
def trimEnd (p : Char → Bool) (s : Bytes) : Bytes :=
  ((units s).reverse.dropWhile (unitIs p)).reverse.flatMap encodeUnit

def trim (p : Char → Bool) (s : Bytes) : Bytes := trimEnd p (trimStart p s)

end Utf8

/-- The text without white space at either end. -/
def Bytes.trimSpace (s : Bytes) : Bytes := Utf8.trim isSpace s

end Lox
