import Lox.Token
/-!
# Scanning

Bytes are read one at a time. A `Mode` remembers the part of a token that has been read but is
not yet known to be complete; `Mode.extend` says which byte continues it, and any other byte
first completes it and then starts afresh. A newline outside a string always leads back to
`Mode.start`, so scanning restarts at every such line end.
-/

namespace Lox

/-- What is wrong with a piece of the input. -/
inductive ScanFault where
  | unexpected (b : UInt8)
  | unterminatedString
  | numberTooLarge (lexeme : Bytes)
deriving DecidableEq

structure ScanError where
  line : Nat
  fault : ScanFault
deriving DecidableEq

namespace ScanError

/-- An unexpected byte is shown as the character with that code point. -/
def faultMessage : ScanFault → Bytes
  | .unexpected b =>
    utf8 "Unexpected character '" ++ Bytes.ofChar (Char.ofNat b.toNat) ++ utf8 "'."
  | .unterminatedString => utf8 "Unterminated string."
  | .numberTooLarge lexeme => utf8 "Invalid number " ++ Quoted.encode lexeme ++ utf8 "."

/-- A diagnostic that names a line only. -/
def format (line : Int) (message : Bytes) : Bytes :=
  utf8 "[line " ++ Bytes.ofInt line ++ utf8 "] Error: " ++ message

def toBytes (e : ScanError) : Bytes := format e.line (faultMessage e.fault)

end ScanError

/-- What has been read of the token at hand; `read` holds its bytes, last byte first. -/
inductive Mode where
  | start
  /-- A slash, which another one turns into a comment. -/
  | slash
  | comment
  /-- One of `=`, `!`, `<`, `>`, which `=` extends. -/
  | operator (b : UInt8)
  | word (read : Bytes)
  /-- Digits before a decimal point. -/
  | whole (read : Bytes)
  /-- Digits and a point that belongs to the number only if a digit follows. -/
  | point (read : Bytes)
  | fraction (read : Bytes)
  /-- A string without its closing quote. -/
  | text (read : Bytes)
deriving DecidableEq

/-- What scanning brings forth, in source order. -/
inductive Scanned where
  | token (t : Token)
  | error (e : ScanError)
deriving DecidableEq

namespace Scan

/-- The kind of a token that is always a single byte. -/
def punctuation? (b : UInt8) : Option Kind :=
  match Char.ofUInt8 b with
  | '+' => some .plus
  | '-' => some .minus
  | '*' => some .star
  | ',' => some .comma
  | ';' => some .semicolon
  | '.' => some .dot
  | '(' => some .leftParen
  | ')' => some .rightParen
  | '\x7b' => some .leftBrace
  | '\x7d' => some .rightBrace
  | _ => none

/-- The kinds of an operator byte alone and with `=` after it. -/
def operator? (b : UInt8) : Option (Kind × Kind) :=
  match Char.ofUInt8 b with
  | '=' => some (.assign, .equal)
  | '!' => some (.bang, .notEqual)
  | '<' => some (.less, .lessEqual)
  | '>' => some (.greater, .greaterEqual)
  | _ => none

def isBlank (b : UInt8) : Bool :=
  b == ' '.toUInt8 || b == '\t'.toUInt8 || b == '\r'.toUInt8 || b == Bytes.newline

def isWordByte (b : UInt8) : Bool := Bytes.isLetter b || Bytes.isDigit b

/-- A number token, after a complaint if it is too large for a double. -/
def number (line : Nat) (lexeme : Bytes) : List Scanned :=
  if (Token.numberValue lexeme).isInf then
    [.error ⟨line, .numberTooLarge lexeme⟩, .token ⟨.number, lexeme, line⟩]
  else [.token ⟨.number, lexeme, line⟩]

/-- The tokens that a mode stands for when nothing continues it. -/
def complete (line : Nat) : Mode → List Scanned
  | .start | .comment => []
  | .slash => [.token ⟨.slash, utf8 "/", line⟩]
  | .operator b =>
    match operator? b with
    | some (single, _) => [.token ⟨single, [b], line⟩]
    | none => []
  | .word read => [.token ⟨Kind.ofWord read.reverse, read.reverse, line⟩]
  | .whole read => number line read.reverse
  | .point read => number line read.tail.reverse ++ [.token ⟨.dot, utf8 ".", line⟩]
  | .fraction read => number line read.reverse
  | .text _ => [.error ⟨line, .unterminatedString⟩]

/-- The effect of a byte at the start of a token or between tokens. -/
def enter (line : Nat) (b : UInt8) : Mode × List Scanned :=
  if isBlank b then (.start, [])
  else if b == '/'.toUInt8 then (.slash, [])
  else if b == '"'.toUInt8 then (.text [b], [])
  else if Bytes.isLetter b then (.word [b], [])
  else if Bytes.isDigit b then (.whole [b], [])
  else if (operator? b).isSome then (.operator b, [])
  else match punctuation? b with
    | some kind => (.start, [.token ⟨kind, [b], line⟩])
    | none => (.start, [.error ⟨line, .unexpected b⟩])

/-- How a byte continues what has been read, if it does. -/
def extend (line : Nat) (mode : Mode) (b : UInt8) : Option (Mode × List Scanned) :=
  match mode with
  | .start => none
  | .slash => if b == '/'.toUInt8 then some (.comment, []) else none
  | .comment => if b == Bytes.newline then none else some (.comment, [])
  | .operator c =>
    if b == '='.toUInt8 then
      match operator? c with
      | some (_, double) => some (.start, [.token ⟨double, [c, b], line⟩])
      | none => none
    else none
  | .word read => if isWordByte b then some (.word (b :: read), []) else none
  | .whole read =>
    if Bytes.isDigit b then some (.whole (b :: read), [])
    else if b == '.'.toUInt8 then some (.point (b :: read), [])
    else none
  | .point read => if Bytes.isDigit b then some (.fraction (b :: read), []) else none
  | .fraction read => if Bytes.isDigit b then some (.fraction (b :: read), []) else none
  | .text read =>
    if b == '"'.toUInt8 then
      some (.start, [.token ⟨.string, (b :: read).reverse, line⟩])
    else some (.text (b :: read), [])

/-- Reads one byte. -/
def feed (line : Nat) (mode : Mode) (b : UInt8) : Mode × List Scanned :=
  match extend line mode b with
  | some result => result
  | none =>
    let (next, found) := enter line b
    (next, complete line mode ++ found)

/-- The line after a byte. -/
def lineAfter (line : Nat) (b : UInt8) : Nat := if b == Bytes.newline then line + 1 else line

end Scan

/-- A scan under way: the mode, the current line, and what has been found, newest first. -/
structure Scanner where
  mode : Mode
  line : Nat
  found : List Scanned

namespace Scanner

def start : Scanner := ⟨.start, 1, []⟩

/-- Reads one byte. -/
def feed (s : Scanner) (b : UInt8) : Scanner :=
  let (mode, found) := Scan.feed s.line s.mode b
  ⟨mode, Scan.lineAfter s.line b, found.reverse ++ s.found⟩

/-- All that has been found when the input ends here, in source order. -/
def finish (s : Scanner) : List Scanned := s.found.reverse ++ Scan.complete s.line s.mode

end Scanner

/-- The tokens of a text, what is wrong with it, and the line on which it ends. -/
structure Scan where
  tokens : List Token
  errors : List ScanError
  endLine : Nat
deriving DecidableEq

namespace Scan

/-- Scans a whole text. -/
def ofBytes (source : Bytes) : Scan :=
  let scanner := source.foldl Scanner.feed .start
  { tokens := scanner.finish.filterMap fun | .token t => some t | .error _ => none
    errors := scanner.finish.filterMap fun | .error e => some e | .token _ => none
    endLine := scanner.line }

/-- The listing of all tokens, the end of the input last. -/
def listing (s : Scan) : List Bytes := s.tokens.map Token.toBytes ++ [endListing s.endLine]

end Scan

end Lox
