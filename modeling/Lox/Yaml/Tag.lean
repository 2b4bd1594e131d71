import Lox.Yaml.QuotedScalar
/-!
# Tags and directives

A tag is `!<text>`, `!handle!text` or `!text`. A directive is a line before a document that declares
the version of the language, or what the handle of a tag stands for.
-/

namespace Lox.Yaml

def isTagChar (c : Char) : Bool :=
  isWordChar c || ";/?:@&=+$.,!~*'()[]%".toList.contains c

namespace Reading

/-! ## Tags -/

/-- Reads the escaped bytes of one character, `more` of them if its first byte has been read. -/
def tagEscapes (start : Mark) (acc : Bytes) (more : Option Nat) : Nat → Reading Bytes
  | 0 => exhausted
  | fuel + 1 => do
    if more == some 0 then return acc
    ensure 3
    match (← peek 0) == '%', hexNumber? 2 [← peek 1, ← peek 2] with
    | true, some n =>
      let b := UInt8.ofNat n
      let more ← match more with
        | some k =>
          if b &&& 0xC0 == 0x80 then pure (k - 1) else fail start .tagTrailingByte
        | none =>
          match widthOf? b with
          | some width => pure (width - 1)
          | none => fail start .tagLeadingByte
      skipMany 3
      tagEscapes start (b :: acc) (some more) fuel
    | _, _ => fail start .tagEscape

/-- Reads the text of a tag onto bytes collected last one first. -/
def tagBytes (start : Mark) (acc : Bytes) : Nat → Reading Bytes
  | 0 => exhausted
  | fuel + 1 => do
    ensure 1
    let c ← peek 0
    if !isTagChar c then return acc
    if c == '%' then
      let acc ← tagEscapes start acc none 5
      tagBytes start acc fuel
    else
      skip
      tagBytes start (c.toUInt8 :: acc) fuel

/-- Reads the text of a tag, of which `head` has been read. If there is no head, there has to be a
text. -/
def tagText (start : Mark) (head : Option Bytes) : Reading Bytes := do
  let text := (← tagBytes start (head.getD []).reverse (← size)).reverse
  if head.isNone && text.isEmpty then fail start .tagText
  return text

/-- Reads what may be the handle of a tag: an exclamation mark, a name, and maybe a second mark.
Gives the name and whether there is a second mark. -/
def tagHandle (start : Mark) : Reading (Bytes × Bool) := do
  ensure 1
  if (← peek 0) != '!' then fail start .tagMark
  skip
  let name := bytesOfReversed (← readWhile isWordChar [] (← size))
  let closed := (← peek 0) == '!'
  if closed then skip
  return (name, closed)

def handleOf (name : Bytes) : Bytes := utf8 "!" ++ name ++ utf8 "!"

/-- Reads a tag: its handle and the text after that. A lone exclamation mark is a text without a
handle. -/
def tag : Reading (Bytes × Bytes) := do
  let start ← mark
  ensure 2
  let parts ←
    if (← peek 1) == '<' then do
      skipMany 2
      let text ← tagText start none
      if (← peek 0) != '>' then fail start .tagClosing
      skip
      pure ([], text)
    else do
      let (name, closed) ← tagHandle start
      if closed then
        pure (handleOf name, ← tagText start none)
      else
        let text ← tagText start (some name)
        pure (if text.isEmpty then ([], utf8 "!") else (utf8 "!", text))
  ensure 1
  if !isGap (← peek 0) then fail start .tagEnd
  return parts

/-! ## Directives -/

/-- How many digits a number of a version may have. -/
def maxVersionDigits : Nat := 2

/-- Reads a number of a version. -/
def versionNumber (start : Mark) : Reading Nat := do
  let digits ← go [] (maxVersionDigits + 1)
  if digits.isEmpty then fail start .versionNumber
  return Bytes.readNat (digits.reverse.map Char.toUInt8)
where
  go (acc : List Char) : Nat → Reading (List Char)
    | 0 => fail start .versionLength
    | room + 1 => do
      ensure 1
      let c ← peek 0
      if !c.isDigit then return acc
      if room = 0 then fail start .versionLength
      skip
      go (c :: acc) room

def version (start : Mark) : Reading (Nat × Nat) := do
  skipBlanks
  let major ← versionNumber start
  if (← peek 0) != '.' then fail start .versionPoint
  skip
  return (major, ← versionNumber start)

/-- Reads the declaration of a handle: the handle and what it stands for. -/
def handle (start : Mark) : Reading (Bytes × Bytes) := do
  skipBlanks
  let (name, closed) ← tagHandle start
  if !closed && !name.isEmpty then fail start .tagMark
  ensure 1
  if !isBlank (← peek 0) then fail start .tagGap
  skipBlanks
  let text ← tagText start none
  ensure 1
  if !isGap (← peek 0) then fail start .tagEnd
  return (if closed then handleOf name else utf8 "!", text)

/-- Reads the name of a directive. -/
def directiveName (start : Mark) : Reading Bytes := do
  let name ← readWhile isWordChar [] (← size)
  if name.isEmpty then fail start .directiveNoName
  if !isGap (← peek 0) then fail start .directiveNameEnd
  return bytesOfReversed name

end Reading

end Lox.Yaml
