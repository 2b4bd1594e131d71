import Lox.Text.Utf8
import Lox.Yaml.Fault
/-!
# The characters of a YAML text

A text is UTF-8, or UTF-16 if it starts with a byte order mark that says so. It is read in blocks
of some hundred bytes, and nothing is known of a block before it is asked for: what is wrong in a
block that nobody asks for does not matter.
-/

namespace Lox.Yaml

/-- The characters of a block, up to what is wrong with it, if anything. -/
structure Block where
  chars : List Char
  fault : Option Problem

inductive Encoding where
  | utf8
  | utf16 (bigEndian : Bool)
deriving DecidableEq, Repr

/-- The start of a text, read as a character. -/
inductive Start where
  | character (code width : Nat)
  /-- The character goes on beyond what can be seen; that is wrong if nothing follows. -/
  | incomplete (p : Problem)
  | invalid (p : Problem)

/-! ## UTF-8 -/

/-- How many bytes a character that starts with `b` takes. -/
def widthOf? (b : UInt8) : Option Nat :=
  if b < 0x80 then some 1
  else if b &&& 0xE0 == 0xC0 then some 2
  else if b &&& 0xF0 == 0xE0 then some 3
  else if b &&& 0xF8 == 0xF0 then some 4
  else none

/-- The number that the bits of a sequence of bytes stand for. -/
def codeOf (width : Nat) (b : UInt8) (tail : Bytes) : Nat :=
  let lead := if width = 1 then b.toNat else b.toNat % Nat.pow 2 (7 - width)
  tail.foldl (fun n t => n * 64 + t.toNat % 64) lead

def leastCode (width : Nat) : Nat :=
  if width = 1 then 0 else if width = 2 then 0x80 else if width = 3 then 0x800 else 0x10000

def startUtf8 (room : Nat) (b : UInt8) (rest : Bytes) : Start :=
  match widthOf? b with
  | none => .invalid .leadingByte
  | some width =>
    let tail := rest.take (width - 1)
    let code := codeOf width b tail
    if room < width || tail.length < width - 1 then .incomplete .incompleteSequence
    else if !tail.all Utf8.isContinuation then .invalid .trailingByte
    else if code < leastCode width then .invalid .sequenceLength
    else if (0xD800 ≤ code && code ≤ 0xDFFF) || 0x10FFFF < code then .invalid .invalidCharacter
    else .character code width

/-! ## UTF-16 -/

def unitOf (bigEndian : Bool) (a b : UInt8) : Nat :=
  if bigEndian then a.toNat * 256 + b.toNat else b.toNat * 256 + a.toNat

def startUtf16 (bigEndian : Bool) (room : Nat) (b : UInt8) (rest : Bytes) : Start :=
  match rest with
  | [] => .incomplete .incompleteUnit
  | c :: rest =>
    let unit := unitOf bigEndian b c
    if room < 2 then .incomplete .incompleteUnit
    else if unit / 0x400 == 0x37 then .invalid .lowSurrogate
    else if unit / 0x400 != 0x36 then .character unit 2
    else match rest with
      | d :: e :: _ =>
        let second := unitOf bigEndian d e
        if room < 4 then .incomplete .incompletePair
        else if second / 0x400 != 0x37 then .invalid .noLowSurrogate
        else .character (0x10000 + unit % 0x400 * 0x400 + second % 0x400) 4
      | _ => .incomplete .incompletePair

/-! ## Blocks -/

def startOf (encoding : Encoding) (room : Nat) (b : UInt8) (rest : Bytes) : Start :=
  match encoding with
  | .utf8 => startUtf8 room b rest
  | .utf16 bigEndian => startUtf16 bigEndian room b rest

/-- Whether a text may hold the character of this number. -/
def isAllowed (n : Nat) : Bool :=
  n == 0x09 || n == 0x0A || n == 0x0D || (0x20 ≤ n && n ≤ 0x7E) || n == 0x85 ||
    (0xA0 ≤ n && n ≤ 0xD7FF) || (0xE000 ≤ n && n ≤ 0xFFFD) || (0x10000 ≤ n && n ≤ 0x10FFFF)

/-- Reads characters, collected last one first, from at most `room` bytes. Also gives the bytes that
are left, and what is wrong with those if nothing follows them. -/
def readBlock (encoding : Encoding) : Nat → Nat → List Char → Bytes →
    Block × Bytes × Option Problem
  | 0, _, acc, s => (⟨acc.reverse, none⟩, s, none)
  | _ + 1, _, acc, [] => (⟨acc.reverse, none⟩, [], none)
  | fuel + 1, room, acc, b :: rest =>
    if room = 0 then (⟨acc.reverse, none⟩, b :: rest, none)
    else match startOf encoding room b rest with
      | .incomplete p => (⟨acc.reverse, none⟩, b :: rest, some p)
      | .invalid p => (⟨acc.reverse, some p⟩, [], none)
      | .character code width =>
        if isAllowed code then
          readBlock encoding fuel (room - width) (Char.ofNat code :: acc) (rest.drop (width - 1))
        else (⟨acc.reverse, some .controlCharacter⟩, [], none)

/-- How many bytes a block has at most. -/
def blockSize : Nat := 512

/-- The blocks of a text, the first one having `room` bytes. A character that does not fit into a
block starts the next one; if it does not fit at the start of a block either, the text stops short
of it. -/
def blocksOf (encoding : Encoding) : Nat → Nat → Bytes → List Block
  | 0, _, _ => []
  | _ + 1, _, [] => []
  | fuel + 1, room, s =>
    match readBlock encoding (blockSize + 1) room [] s with
    | (⟨[], none⟩, _, some p) => [⟨[], some p⟩]
    | (block, rest, _) => block :: blocksOf encoding fuel blockSize rest

/-- The encoding of a text, the byte order mark that it starts with, and the text after that. -/
def encodingOf (s : Bytes) : Encoding × Bytes × Bytes :=
  let marks : List (Encoding × Bytes) :=
    [(.utf16 false, [0xFF, 0xFE]), (.utf16 true, [0xFE, 0xFF]), (.utf8, [0xEF, 0xBB, 0xBF])]
  match marks.find? fun m => Bytes.startsWith m.2 s with
  | some (encoding, mark) => (encoding, mark, s.drop mark.length)
  | none => (.utf8, [], s)

/-- The blocks of a text. A byte order mark takes room in the first one, but is no character. -/
def blocksOfBytes (s : Bytes) : List Block :=
  let (encoding, mark, text) := encodingOf s
  blocksOf encoding (text.length + 1) (blockSize - mark.length) text

end Lox.Yaml
