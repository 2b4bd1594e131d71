import Lox.Decimal.Layout
import Lox.Text.Quoted
/-!
# JSON

Values of JSON, their reader and their printer. A number keeps the text it was written with. The
reader tells the first character that does not fit, and where it stands.
-/

namespace Lox

inductive Json where
  | null
  | bool (b : Bool)
  | number (text : Bytes)
  | string (s : Bytes)
  | array (items : List Json)
  | object (members : List (Bytes × Json))

namespace Json

/-- Why a text is not JSON. -/
inductive Fault where
  | unexpectedEnd
  | unexpected (found : TextUnit) (place : String)
  | escape (text : Bytes)
  | tooDeep
deriving DecidableEq

namespace Fault

/-- A text does not go on as it has to. -/
def misplaced (place : String) : Bytes → Fault
  | [] => .unexpectedEnd
  | b :: rest =>
    match Utf8.sequence b rest with
    | some (c, _) => .unexpected (.char c) place
    | none => .unexpected (.stray b) place

/-- A character in quotes. -/
def quoteUnit (u : TextUnit) : Bytes :=
  let inner := match u with
    | .char '\'' => utf8 "\\'"
    | .char '"' => utf8 "\""
    | _ => Quoted.encodeUnit u
  utf8 "'" ++ inner ++ utf8 "'"

/-- Whether a character shows in a text between grave accents. -/
def isPlain : TextUnit → Bool
  | .char c => c != '\x60' && c != Char.ofNat 0xFFFD && c != ' ' && isPrintable c
  | .stray _ => false

/-- An escape in grave accents, or in quotes if it holds something that does not show there. -/
def quoteEscape (text : Bytes) : Bytes :=
  if (Utf8.units text).all isPlain then utf8 "`" ++ text ++ utf8 "`" else Quoted.encode text

def message : Fault → Bytes
  | unexpectedEnd => utf8 "unexpected end of JSON input"
  | unexpected found place =>
    utf8 "invalid character " ++ quoteUnit found ++ utf8 " " ++ utf8 place
  | escape text => utf8 "invalid escape sequence " ++ quoteEscape text ++ utf8 " in string"
  | tooDeep => utf8 "exceeded max depth"

end Fault

/-! ## Strings -/

def isHexDigit (b : UInt8) : Bool :=
  Bytes.isDigit b || ('a'.toUInt8 ≤ b && b ≤ 'f'.toUInt8) || ('A'.toUInt8 ≤ b && b ≤ 'F'.toUInt8)

/-- The number of bytes of an escape that follow its backslash: one letter, and four digits after
a `u`. -/
def escapeLength : Bytes → Except Fault Nat
  | [] => .error .unexpectedEnd
  | b :: rest =>
    if b == 'u'.toUInt8 then
      let digits := rest.take 4
      if !digits.all isHexDigit then .error (.escape ('\\'.toUInt8 :: b :: digits))
      else if digits.length < 4 then .error .unexpectedEnd
      else .ok 5
    else if (utf8 "bfnrt\\/\"").contains b then .ok 1
    else .error (.escape ['\\'.toUInt8, b])

/-- The bytes up to the closing quote, with their escapes, and what follows it; `read` holds the
bytes before, last first, and the next `skip` bytes belong to an escape. -/
def scanString (skip : Nat) (read : Bytes) : Bytes → Except Fault (Bytes × Bytes)
  | [] => .error .unexpectedEnd
  | b :: rest =>
    match skip with
    | skip + 1 => scanString skip (b :: read) rest
    | 0 =>
      if b == '"'.toUInt8 then .ok (read.reverse, rest)
      else if b == '\\'.toUInt8 then
        match escapeLength rest with
        | .error fault => .error fault
        | .ok n => scanString n (b :: read) rest
      else if b < 0x20 then .error (.misplaced "in string" (b :: rest))
      else scanString 0 (b :: read) rest

def hexValue (c : Char) : Nat :=
  if c.isDigit then c.toNat - '0'.toNat
  else if 'a' ≤ c then c.toNat - 'a'.toNat + 10
  else c.toNat - 'A'.toNat + 10

def hexNumber (cs : List Char) : Nat := cs.foldl (fun n c => 16 * n + hexValue c) 0

/-- The character that stands in for what cannot be read. -/
def replacement : Char := Char.ofNat 0xFFFD

def isHighSurrogate (n : Nat) : Bool := 0xD800 ≤ n && n < 0xDC00

def isLowSurrogate (n : Nat) : Bool := 0xDC00 ≤ n && n < 0xE000

/-- The bytes that a text with escapes stands for; its bytes are given as characters. Two
escaped surrogates make one character, a lone one cannot be read. -/
def unescape : List Char → Bytes
  | '\\' :: 'u' :: a :: b :: c :: d :: '\\' :: 'u' :: e :: f :: g :: h :: rest =>
    let first := hexNumber [a, b, c, d]
    let second := hexNumber [e, f, g, h]
    if isHighSurrogate first && isLowSurrogate second then
      Bytes.ofChar (Char.ofNat (0x10000 + (first - 0xD800) * 0x400 + (second - 0xDC00))) ++
        unescape rest
    else if isHighSurrogate first || isLowSurrogate first then
      Bytes.ofChar replacement ++ unescape ('\\' :: 'u' :: e :: f :: g :: h :: rest)
    else Bytes.ofChar (Char.ofNat first) ++ unescape ('\\' :: 'u' :: e :: f :: g :: h :: rest)
  | '\\' :: 'u' :: a :: b :: c :: d :: rest =>
    let n := hexNumber [a, b, c, d]
    Bytes.ofChar (if isHighSurrogate n || isLowSurrogate n then replacement else Char.ofNat n) ++
      unescape rest
  | '\\' :: 'b' :: rest => 0x08 :: unescape rest
  | '\\' :: 'f' :: rest => 0x0c :: unescape rest
  | '\\' :: 'n' :: rest => 0x0a :: unescape rest
  | '\\' :: 'r' :: rest => 0x0d :: unescape rest
  | '\\' :: 't' :: rest => 0x09 :: unescape rest
  | '\\' :: c :: rest => c.toUInt8 :: unescape rest
  | c :: rest => c.toUInt8 :: unescape rest
  | [] => []

/-- The value of a string, with every byte that belongs to no character replaced. -/
def stringValue (raw : Bytes) : Bytes := Utf8.repair (unescape (raw.map Char.ofUInt8))

/-! ## Numbers -/

/-- A row of at least one digit. -/
def digits1 (s : Bytes) : Except Fault (Bytes × Bytes) :=
  match s.takeWhile Bytes.isDigit with
  | [] => .error (.misplaced "in numeric literal" s)
  | ds => .ok (ds, s.dropWhile Bytes.isDigit)

/-- The digits before the point: a zero, or a row that does not start with one. -/
def wholePart : Bytes → Except Fault (Bytes × Bytes)
  | [] => .error .unexpectedEnd
  | b :: rest => if b == '0'.toUInt8 then .ok ([b], rest) else digits1 (b :: rest)

def fractionPart : Bytes → Except Fault (Bytes × Bytes)
  | [] => .ok ([], [])
  | b :: rest =>
    if b == '.'.toUInt8 then do
      let (ds, rest) ← digits1 rest
      return (b :: ds, rest)
    else .ok ([], b :: rest)

def exponentPart : Bytes → Except Fault (Bytes × Bytes)
  | [] => .ok ([], [])
  | b :: rest =>
    if b == 'e'.toUInt8 || b == 'E'.toUInt8 then do
      let (sign, rest) := match rest with
        | c :: more => if c == '+'.toUInt8 || c == '-'.toUInt8 then ([c], more) else ([], c :: more)
        | [] => ([], [])
      let (ds, rest) ← digits1 rest
      return (b :: (sign ++ ds), rest)
    else .ok ([], b :: rest)

/-- The text of a number without its sign, and what follows. -/
def scanNumber (s : Bytes) : Except Fault (Bytes × Bytes) := do
  let (whole, s) ← wholePart s
  let (fraction, s) ← fractionPart s
  let (exponent, s) ← exponentPart s
  return (whole ++ fraction ++ exponent, s)

/-! ## Values -/

def isSpace (b : UInt8) : Bool :=
  b == ' '.toUInt8 || b == '\t'.toUInt8 || b == '\r'.toUInt8 || b == '\n'.toUInt8

def skipSpace (s : Bytes) : Bytes := s.dropWhile isSpace

/-- The rest of a word of which the first letter has been read. -/
def scanWord (word : String) : Bytes → Bytes → Except Fault Bytes
  | [], s => .ok s
  | _ :: _, [] => .error .unexpectedEnd
  | want :: more, b :: s =>
    if b == want then scanWord word more s
    else .error (.misplaced
      ("in literal " ++ word ++ " (expecting '" ++ String.singleton (Char.ofUInt8 want) ++ "')")
      (b :: s))

/-- How many arrays and objects may stand within one another. -/
def maxDepth : Nat := 10000

mutual

/-- A value, within which `room` more arrays and objects may be opened, and what follows it. -/
def readValue (fuel room : Nat) (s : Bytes) : Except Fault (Json × Bytes) :=
  match fuel, skipSpace s with
  | 0, _ => .error .unexpectedEnd
  | _, [] => .error .unexpectedEnd
  | fuel + 1, b :: rest =>
    match Char.ofUInt8 b with
    | '"' => do
      let (raw, rest) ← scanString 0 [] rest
      return (.string (stringValue raw), rest)
    | '[' =>
      match room, skipSpace rest with
      | 0, _ => .error .tooDeep
      | _, [] => .error .unexpectedEnd
      | room + 1, c :: after => if c == ']'.toUInt8 then .ok (.array [], after) else do
          let (items, rest) ← readItems fuel room (c :: after)
          return (.array items, rest)
    | '\x7b' =>
      match room, skipSpace rest with
      | 0, _ => .error .tooDeep
      | _, [] => .error .unexpectedEnd
      | room + 1, c :: after => if c == '\x7d'.toUInt8 then .ok (.object [], after) else do
          let (members, rest) ← readMembers fuel room (c :: after)
          return (.object members, rest)
    | '-' => do
      let (text, rest) ← scanNumber rest
      return (.number (b :: text), rest)
    | 't' => do return (.bool true, ← scanWord "true" (utf8 "rue") rest)
    | 'f' => do return (.bool false, ← scanWord "false" (utf8 "alse") rest)
    | 'n' => do return (.null, ← scanWord "null" (utf8 "ull") rest)
    | _ =>
      if Bytes.isDigit b then do
        let (text, rest) ← scanNumber (b :: rest)
        return (.number text, rest)
      else .error (.misplaced "looking for beginning of value" (b :: rest))

/-- The items of an array, up to its closing bracket. -/
def readItems (fuel room : Nat) (s : Bytes) : Except Fault (List Json × Bytes) :=
  match fuel with
  | 0 => .error .unexpectedEnd
  | fuel + 1 => do
    let (item, rest) ← readValue fuel room s
    match skipSpace rest with
    | [] => .error .unexpectedEnd
    | b :: rest =>
      if b == ','.toUInt8 then do
        let (more, rest) ← readItems fuel room rest
        return (item :: more, rest)
      else if b == ']'.toUInt8 then return ([item], rest)
      else .error (.misplaced "after array element" (b :: rest))

/-- The members of an object, up to its closing brace. -/
def readMembers (fuel room : Nat) (s : Bytes) : Except Fault (List (Bytes × Json) × Bytes) :=
  match fuel, skipSpace s with
  | 0, _ => .error .unexpectedEnd
  | _, [] => .error .unexpectedEnd
  | fuel + 1, b :: rest =>
    if b != '"'.toUInt8 then
      .error (.misplaced "looking for beginning of object key string" (b :: rest))
    else do
      let (raw, rest) ← scanString 0 [] rest
      match skipSpace rest with
      | [] => .error .unexpectedEnd
      | c :: rest =>
        if c != ':'.toUInt8 then .error (.misplaced "after object key" (c :: rest))
        else do
          let (value, rest) ← readValue fuel room rest
          match skipSpace rest with
          | [] => .error .unexpectedEnd
          | d :: rest =>
            if d == ','.toUInt8 then do
              let (more, rest) ← readMembers fuel room rest
              return ((stringValue raw, value) :: more, rest)
            else if d == '\x7d'.toUInt8 then return ([(stringValue raw, value)], rest)
            else .error (.misplaced "after object key:value pair" (d :: rest))

end

/-- The value that a text starts with, and what follows it. -/
def readStart (s : Bytes) : Except Fault (Json × Bytes) :=
  readValue (2 * s.length + 2) maxDepth s

/-- Reads a text that is one value. -/
def read (s : Bytes) : Except Fault Json := do
  let (value, rest) ← readStart s
  match skipSpace rest with
  | [] => return value
  | rest => .error (.misplaced "after top-level value" rest)

/-- The value of a member; of several with one name the last counts. -/
def member? (name : Bytes) (members : List (Bytes × Json)) : Option Json :=
  (members.reverse.find? (·.1 == name)).map (·.2)

/-- The double nearest to a number's text. -/
def numberValue (text : Bytes) : Float := Decimal.readScientific text

/-! ## Printing -/

def escapeChar (c : Char) : Bytes :=
  match c with
  | '"' => utf8 "\\\""
  | '\\' => utf8 "\\\\"
  | '\x08' => utf8 "\\b"
  | '\x0c' => utf8 "\\f"
  | '\n' => utf8 "\\n"
  | '\r' => utf8 "\\r"
  | '\t' => utf8 "\\t"
  | _ =>
    if c.toNat < 0x20 || c == '<' || c == '>' || c == '&' || c.toNat == 0x2028 ||
        c.toNat == 0x2029 then
      utf8 "\\u" ++ Bytes.hex 4 c.toNat
    else Bytes.ofChar c

/-- A string in quotes. Characters that mean something to a browser are escaped, and bytes that
belong to no character are replaced. -/
def quote (s : Bytes) : Bytes :=
  utf8 "\"" ++ (Utf8.units s).flatMap (fun
    | .char c => escapeChar c
    | .stray _ => utf8 "\\ufffd") ++ utf8 "\""

mutual

/-- The text of a value, without spaces. -/
def toBytes : Json → Bytes
  | .null => utf8 "null"
  | .bool b => utf8 (if b then "true" else "false")
  | .number text => text
  | .string s => quote s
  | .array items => utf8 "[" ++ itemsToBytes items ++ utf8 "]"
  | .object members => utf8 "\x7b" ++ membersToBytes members ++ utf8 "\x7d"

def itemsToBytes : List Json → Bytes
  | [] => []
  | [item] => item.toBytes
  | item :: more => item.toBytes ++ utf8 "," ++ itemsToBytes more

def membersToBytes : List (Bytes × Json) → Bytes
  | [] => []
  | [(name, value)] => quote name ++ utf8 ":" ++ value.toBytes
  | (name, value) :: more =>
    quote name ++ utf8 ":" ++ value.toBytes ++ utf8 "," ++ membersToBytes more

end

end Json

end Lox
