import Lox.Bindings
import Lox.Text.Blank
import Lox.Text.Quoted
/-!
# Files of variables

A file of lines such as `export NAME=value # remark`. A value may stand in quotes and then run
over several lines; unless the quotes are single ones, variables of earlier lines are put in.
-/

namespace Lox.Dotenv

/-- Why a file of variables cannot be read. -/
inductive Fault where
  | character (found : UInt8) (text : Bytes)
  | unclosed (text : Bytes)
  | missing
deriving DecidableEq, Repr

def Fault.message : Fault → Bytes
  | character found text =>
    utf8 "unexpected character " ++ Quoted.encode (Bytes.ofChar (Char.ofUInt8 found)) ++
      utf8 " in variable name near " ++ Quoted.encode text
  | unclosed text => utf8 "unterminated quoted value " ++ text
  | missing => utf8 "zero length string"

/-! ## Characters -/

/-- White space within a line. -/
def isGap (c : Char) : Bool :=
  c == ' ' || c == '\t' || c == '\x0b' || c == '\x0c' || c == '\r' || c == '\x85' || c == '\xa0'

/-- Bytes of a name, read as the first 256 characters: letters, numbers, the point, the
underscore, and white space within. -/
def inName (b : UInt8) : Bool :=
  isGap (Char.ofUInt8 b) || Bytes.isLetter b || Bytes.isDigit b || b == '.'.toUInt8 ||
    b == 0xAA || b == 0xB5 || b == 0xBA || (0xC0 ≤ b && b != 0xD7 && b != 0xF7) ||
    b == 0xB2 || b == 0xB3 || b == 0xB9 || (0xBC ≤ b && b ≤ 0xBE)

def isSeparator (b : UInt8) : Bool := b == '='.toUInt8 || b == ':'.toUInt8

def isLineEnd (b : UInt8) : Bool := b == '\n'.toUInt8 || b == '\r'.toUInt8

/-- Line ends of two bytes become line ends of one. -/
def joinLineEnds : Bytes → Bytes
  | [] => []
  | b :: rest =>
    if b == '\r'.toUInt8 && rest.head? == some '\n'.toUInt8 then joinLineEnds rest
    else b :: joinLineEnds rest

/-! ## Values -/

/-- The first part of an escape: `\n` and `\r` stand for line ends. -/
def escapeLineEnds : Bytes → Bytes
  | a :: b :: rest =>
    if a == '\\'.toUInt8 && b == 'n'.toUInt8 then '\n'.toUInt8 :: escapeLineEnds rest
    else if a == '\\'.toUInt8 && b == 'r'.toUInt8 then '\r'.toUInt8 :: escapeLineEnds rest
    else if a == '\\'.toUInt8 && b != '\n'.toUInt8 then a :: b :: escapeLineEnds rest
    else a :: escapeLineEnds (b :: rest)
  | s => s

/-- The second part of an escape: a backslash goes, except before a dollar sign. -/
def dropBackslashes : Bytes → Bytes
  | a :: b :: rest =>
    if a == '\\'.toUInt8 && b != '$'.toUInt8 then b :: dropBackslashes rest
    else a :: dropBackslashes (b :: rest)
  | s => s

def inVariable (b : UInt8) : Bool :=
  Bytes.isDigit b || b == '_'.toUInt8 || ('A'.toUInt8 ≤ b && b ≤ 'Z'.toUInt8)

/-- Cuts one given byte off the start, if it is there. -/
def cut (b : UInt8) (s : Bytes) : Bytes × Bytes :=
  if s.head? == some b then ([b], s.drop 1) else ([], s)

/-- A reference after its dollar sign: all its text, the name in it, and what follows. -/
def reference (s : Bytes) : Bytes × Bytes × Bytes :=
  let (round, s) := cut '('.toUInt8 s
  let (curly, s) := cut 0x7B s
  let name := s.takeWhile inVariable
  let (close, s) := cut 0x7D (s.dropWhile inVariable)
  (round ++ curly ++ name ++ close, name, s)

/-- Puts variables in for their references. A backslash before the dollar sign prevents it. -/
def expand (vars : Bindings Bytes) : Nat → Bytes → Bytes
  | 0, s => s
  | _ + 1, [] => []
  | fuel + 1, b :: rest =>
    if b == '\\'.toUInt8 && rest.head? == some '$'.toUInt8 then
      let (text, _, after) := reference (rest.drop 1)
      '$'.toUInt8 :: (text ++ expand vars fuel after)
    else if b == '$'.toUInt8 then
      let (text, name, after) := reference rest
      (if name.isEmpty then b :: text else (vars.get? name).getD []) ++ expand vars fuel after
    else b :: expand vars fuel rest

def expandAll (vars : Bindings Bytes) (s : Bytes) : Bytes := expand vars s.length s

/-- What comes before the remark in a line that is given with its last character first. -/
def beforeRemark? : List Char → Option (List Char)
  | [] => none
  | c :: before =>
    if c == '#' && before.head?.any isGap then some before else beforeRemark? before

/-- A line without its remark, which starts at the last `#` after white space. -/
def withoutRemark (line : List Char) : List Char :=
  match beforeRemark? line.reverse with
  | some before => before.reverse
  | none => line

/-- The characters of a text; bytes that belong to none count as U+FFFD. -/
def chars (s : Bytes) : List Char :=
  (Utf8.units s).map fun
    | .char c => c
    | .stray _ => '�'

/-- A value without quotes ends with its line. -/
def bareValue (vars : Bindings Bytes) (s : Bytes) : Bytes × Bytes :=
  let line := s.takeWhile fun b => !isLineEnd b
  let text := (withoutRemark (chars line)).flatMap Bytes.ofChar
  (expandAll vars (Utf8.trim isGap text), s.dropWhile fun b => !isLineEnd b)

/-- What stands before the closing quote and what after it. A quote after a backslash does not
close. -/
def closing (quote : UInt8) : UInt8 → Bytes → Option (Bytes × Bytes)
  | _, [] => none
  | last, b :: rest =>
    if b == quote && last != '\\'.toUInt8 then some ([], rest)
    else (closing quote b rest).map fun (text, after) => (b :: text, after)

def quotedValue (vars : Bindings Bytes) (quote : UInt8) (s : Bytes) :
    Except Fault (Bytes × Bytes) :=
  match closing quote quote s with
  | none => .error (.unclosed (quote :: s.takeWhile fun b => b != '\n'.toUInt8))
  | some (text, after) =>
    let bare (t : Bytes) : Bytes := t.dropWhile (· == quote)
    let text := (bare (bare text).reverse).reverse
    if quote == '"'.toUInt8 then
      .ok (expandAll vars (dropBackslashes (escapeLineEnds text)), after)
    else .ok (text, after)

def value (vars : Bindings Bytes) (s : Bytes) : Except Fault (Bytes × Bytes) :=
  match s with
  | b :: rest =>
    if b == '"'.toUInt8 || b == '\''.toUInt8 then quotedValue vars b rest
    else .ok (bareValue vars s)
  | [] => .ok ([], [])

/-! ## Lines -/

/-- What follows the word `export` and white space, if the text starts so. -/
def afterExport (s : Bytes) : Bytes :=
  match Bytes.dropStart? (utf8 "export") s with
  | some rest =>
    match (Utf8.units rest).head? with
    | some unit => if Utf8.unitIs isGap unit then Utf8.trimStart isGap rest else s
    | none => s
  | none => s

/-- The name that a text starts with and what follows its separator. A text with no separator
is all value. -/
def name (s : Bytes) : Except Fault (Bytes × Bytes) :=
  let s := afterExport (Utf8.trimStart isGap s)
  if s.isEmpty then .error .missing
  else match s.dropWhile inName with
    | [] => .ok ([], Utf8.trimStart isGap s)
    | b :: rest =>
      if isSeparator b then
        .ok (Utf8.trimEnd isSpace (s.takeWhile inName), Utf8.trimStart isGap rest)
      else .error (.character b s)

/-- Skips white space and remarks up to the next variable. -/
def start : Nat → Bytes → Bytes
  | 0, _ => []
  | fuel + 1, s =>
    let s := Utf8.trimStart isSpace s
    if s.head? == some '#'.toUInt8 then start fuel (s.dropWhile fun b => b != '\n'.toUInt8)
    else s

def assignments : Nat → Bindings Bytes → Bytes → Except Fault (Bindings Bytes)
  | 0, vars, _ => .ok vars
  | fuel + 1, vars, s =>
    match start (s.length + 1) s with
    | [] => .ok vars
    | s =>
      match name s with
      | .error e => .error e
      | .ok (key, s) =>
        match value vars s with
        | .error e => .error e
        | .ok (v, s) => assignments fuel (vars.insert key v) s

/-- The variables of a file; of two values for one name the later counts. -/
def read (file : Bytes) : Except Fault (Bindings Bytes) :=
  let s := joinLineEnds file
  assignments (s.length + 1) [] s

end Lox.Dotenv
