import Lox.Yaml.Input
/-!
# Reading a YAML text

A text is read character by character. Before characters are looked at, their number is asked for,
and blocks are taken in until there are so many or the text ends. After the end there are zero
characters, which no text holds.
-/

namespace Lox.Yaml

/-! ## Characters -/

def endMark : Char := '\x00'

def byteOrderMark : Char := '\ufeff'

def isBlank (c : Char) : Bool := c == ' ' || c == '\t'

/-- Characters that end a line. -/
def isBreak (c : Char) : Bool :=
  c == '\n' || c == '\r' || c == '\u0085' || c == '\u2028' || c == '\u2029'

def isBreakOrEnd (c : Char) : Bool := isBreak c || c == endMark

/-- White space, or the end of the text. -/
def isGap (c : Char) : Bool := isBlank c || isBreakOrEnd c

/-- Characters of names. -/
def isWordChar (c : Char) : Bool := c.isAlphanum || c == '_' || c == '-'

/-- What a line end counts as: all but the line and paragraph separators are newlines. -/
def evenBreak (c : Char) : Char := if c == '\u2028' || c == '\u2029' then c else '\n'

/-- The bytes of characters that were collected last one first. -/
def bytesOfReversed (cs : List Char) : Bytes := cs.reverse.flatMap Bytes.ofChar

/-! ## Sources -/

/-- A text that is being read. -/
structure Source where
  /-- The characters that have been taken in and not been read. -/
  ahead : List Char
  /-- How many those are, the zero characters after the end included. -/
  ready : Nat
  /-- The blocks that have not been taken in. -/
  blocks : List Block
  mark : Mark
  /-- How many lines have ended since the last character that is not white space. -/
  newlines : Nat
  /-- Whether a byte order mark was the first character ahead when a block was last asked for. -/
  marked : Bool
  /-- What is wrong with a block that was asked for, but that could be done without so far. -/
  fault : Option Problem
  /-- More than the number of characters in all. -/
  size : Nat

namespace Source

def ofBytes (text : Bytes) : Source :=
  { ahead := [], ready := 0, blocks := blocksOfBytes text, mark := Mark.origin, newlines := 0,
    marked := false, fault := none, size := text.length + 8 }

def note (s : Source) : Source := { s with marked := s.ahead.head? == some byteOrderMark }

/-- Takes blocks in until `n` characters are ready. Once the text has ended, every call adds a zero
character. What is wrong with a block comes with the source as it is then. -/
def fill (n : Nat) (s : Source) : List Block → Except (Problem × Source) Source
  | [] => .ok { s with ready := s.ready + 1, blocks := [] }.note
  | b :: more =>
    let t := { s with ahead := s.ahead ++ b.chars, ready := s.ready + b.chars.length }
    match b.fault with
    | some p => .error (p, { t with blocks := [⟨[], some p⟩] }.note)
    | none => if t.ready < n then t.fill n more else .ok { t with blocks := more }.note

def peek (s : Source) (i : Nat) : Char := (s.ahead[i]?).getD endMark

/-- Moves past a character that does not end a line. -/
def skip (s : Source) : Source :=
  { s with
    ahead := s.ahead.tail
    ready := s.ready - 1
    mark := ⟨s.mark.index + 1, s.mark.line, s.mark.column + 1⟩
    newlines := if isBlank (s.peek 0) then s.newlines else 0 }

/-- Moves past the end of a line, if it is next. -/
def skipLine (s : Source) : Source :=
  let past (n : Nat) : Source :=
    { s with
      ahead := s.ahead.drop n
      ready := s.ready - n
      mark := ⟨s.mark.index + n, s.mark.line + 1, 0⟩
      newlines := s.newlines + 1 }
  if s.peek 0 == '\r' && s.peek 1 == '\n' then past 2
  else if isBreak (s.peek 0) then past 1
  else s

/-- Whether the mark that starts or ends a document is next. -/
def atDocument (s : Source) : Bool :=
  let isRow (c : Char) : Bool := s.peek 0 == c && s.peek 1 == c && s.peek 2 == c
  s.mark.column == 0 && (isRow '-' || isRow '.') && isGap (s.peek 3)

end Source

/-! ## Steps -/

/-- A step of reading. -/
abbrev Reading := StateT Source (Except Fault)

namespace Reading

/-- Makes sure that `n` characters are ready. -/
def ensure (n : Nat) : Reading Unit := do
  let s ← get
  if s.ready < n then
    match s.fill n s.blocks with
    | .ok t => set t
    | .error (p, _) => throw (.general p)

/-- The same, but what is wrong is only noted; tells whether all is well. -/
def attempt (n : Nat) : Reading Bool := do
  let s ← get
  if s.ready < n then
    match s.fill n s.blocks with
    | .ok t =>
      set t
      return true
    | .error (p, t) =>
      set { t with fault := some p }
      return false
  else return true

/-- The character after the next `i`. -/
def peek (i : Nat) : Reading Char := return (← get).peek i

def mark : Reading Mark := return (← get).mark

/-- A bound for what can be repeated while characters are read. -/
def size : Reading Nat := return (← get).size

def skip : Reading Unit := modify Source.skip

/-- Reads a character. -/
def read : Reading Char := do
  let c ← peek 0
  skip
  return c

/-- Moves past the end of a line. -/
def skipLine : Reading Unit := do
  ensure 2
  modify Source.skipLine

/-- Reads the end of a line, onto characters collected last one first. -/
def readLine (acc : List Char) : Reading (List Char) := do
  ensure 2
  let c ← peek 0
  modify Source.skipLine
  return if isBreak c then evenBreak c :: acc else acc

/-- What is wrong here, in something that started at `context`. -/
def fail {α : Type} (context : Mark) (p : Problem) : Reading α := do
  throw (.scanning context (← mark) p)

/-- Something has been repeated more often than can be. -/
def exhausted {α : Type} : Reading α := throw (.general .unknown)

/-- Skips characters as long as `p` holds of the next one. -/
def skipWhile (p : Char → Bool) : Nat → Reading Unit
  | 0 => exhausted
  | fuel + 1 => do
    ensure 1
    if p (← peek 0) then
      skip
      skipWhile p fuel

/-- Reads characters as long as `p` holds of the next one. -/
def readWhile (p : Char → Bool) (acc : List Char) : Nat → Reading (List Char)
  | 0 => exhausted
  | fuel + 1 => do
    ensure 1
    if p (← peek 0) then
      let c ← read
      readWhile p (c :: acc) fuel
    else return acc

def skipBlanks : Reading Unit := do skipWhile isBlank (← size)

end Reading

end Lox.Yaml
