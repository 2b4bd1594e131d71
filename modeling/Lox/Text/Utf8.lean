import Lox.Text.Bytes
/-!
# Reading bytes as UTF-8

A byte string splits into characters and stray bytes: a byte that does not start a
well-formed sequence stands for itself, and reading goes on right after it.
-/

namespace Lox

/-- One unit of text: a character, or a byte that belongs to none. -/
inductive TextUnit where
  | char (c : Char)
  | stray (b : UInt8)
deriving DecidableEq, Repr

namespace Utf8

def isContinuation (b : UInt8) : Bool := 0x80 ≤ b && b ≤ 0xBF

/-- The low six bits of a continuation byte. -/
def tailBits (b : UInt8) : Nat := b.toNat % 64

/-- The character that `b` and the bytes after it start with, and how many of those bytes it
takes. Overlong forms, surrogates and values above U+10FFFF are not characters. -/
def sequence (b : UInt8) (rest : Bytes) : Option (Char × Nat) :=
  if b < 0x80 then some (Char.ofNat b.toNat, 0)
  else match rest with
  | [] => none
  | c :: rest₁ =>
    if !isContinuation c then none
    else if 0xC2 ≤ b && b ≤ 0xDF then
      some (Char.ofNat (b.toNat % 32 * 64 + tailBits c), 1)
    else match rest₁ with
    | [] => none
    | d :: rest₂ =>
      if !isContinuation d then none
      else if 0xE0 ≤ b && b ≤ 0xEF then
        if (b == 0xE0 && c < 0xA0) || (b == 0xED && 0x9F < c) then none
        else some (Char.ofNat (b.toNat % 16 * 4096 + tailBits c * 64 + tailBits d), 2)
      else match rest₂ with
      | [] => none
      | e :: _ =>
        if !isContinuation e then none
        else if 0xF0 ≤ b && b ≤ 0xF4 then
          if (b == 0xF0 && c < 0x90) || (b == 0xF4 && 0x8F < c) then none
          else some (Char.ofNat
            (b.toNat % 8 * 262144 + tailBits c * 4096 + tailBits d * 64 + tailBits e), 3)
        else none

/-- The units of a text, the first `skip` bytes being part of a character already read. -/
def unitsAfter : Nat → Bytes → List TextUnit
  | _, [] => []
  | skip + 1, _ :: rest => unitsAfter skip rest
  | 0, b :: rest =>
    match sequence b rest with
    | some (c, k) => .char c :: unitsAfter k rest
    | none => .stray b :: unitsAfter 0 rest

def units (s : Bytes) : List TextUnit := unitsAfter 0 s

/-- Whether the whole text is well-formed. -/
def isValid (s : Bytes) : Bool :=
  (units s).all fun | .char _ => true | .stray _ => false

/-- The text with every stray byte replaced by U+FFFD. -/
def repair (s : Bytes) : Bytes :=
  (units s).flatMap fun
    | .char c => Bytes.ofChar c
    | .stray _ => [0xEF, 0xBF, 0xBD]

end Utf8

end Lox
