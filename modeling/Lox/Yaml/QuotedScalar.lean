import Lox.Yaml.Gap
/-!
# Scalars in quotes

In single quotes only the quote itself is escaped, by writing it twice. In double quotes a backslash
escapes, also the end of a line.
-/

namespace Lox.Yaml

/-- What an escape of one letter stands for. -/
def escape? : Char → Option Char
  | '0' => some '\x00'
  | 'a' => some '\x07'
  | 'b' => some '\x08'
  | 't' => some '\t'
  | '\t' => some '\t'
  | 'n' => some '\n'
  | 'v' => some '\x0b'
  | 'f' => some '\x0c'
  | 'r' => some '\r'
  | 'e' => some '\x1b'
  | ' ' => some ' '
  | '"' => some '"'
  | '\'' => some '\''
  | '\\' => some '\\'
  | 'N' => some '\u0085'
  | '_' => some '\u00a0'
  | 'L' => some '\u2028'
  | 'P' => some '\u2029'
  | _ => none

/-- How many hexadecimal digits an escape takes. -/
def escapeLength? : Char → Option Nat
  | 'x' => some 2
  | 'u' => some 4
  | 'U' => some 8
  | _ => none

def hexDigit? (c : Char) : Option Nat :=
  if c.isDigit then some (c.toNat - '0'.toNat)
  else if 'a' ≤ c && c ≤ 'f' then some (c.toNat - 'a'.toNat + 10)
  else if 'A' ≤ c && c ≤ 'F' then some (c.toNat - 'A'.toNat + 10)
  else none

/-- The number that exactly `n` hexadecimal digits stand for. -/
def hexNumber? (n : Nat) (cs : List Char) : Option Nat :=
  let digits := (cs.take n).filterMap hexDigit?
  if digits.length = n then some (digits.foldl (fun v d => 16 * v + d) 0) else none

namespace Reading

def skipMany : Nat → Reading Unit
  | 0 => return
  | n + 1 => do
    skip
    skipMany n

/-- Reads an escape, from its backslash on. -/
def escape (start : Mark) : Reading Char := do
  let c ← peek 1
  match escape? c, escapeLength? c with
  | some e, _ =>
    skipMany 2
    return e
  | none, none => fail start .unknownEscape
  | none, some n =>
    skipMany 2
    ensure n
    match hexNumber? n (← get).ahead with
    | none => fail start .escapeDigits
    | some v =>
      if (0xD800 ≤ v && v ≤ 0xDFFF) || 0x10FFFF < v then fail start .escapeValue
      else
        skipMany n
        return Char.ofNat v

/-- Reads up to white space or the closing quote; tells whether an escaped line end came last. -/
def quotedWord (single : Bool) (start : Mark) (acc : List Char) :
    Nat → Reading (List Char × Bool)
  | 0 => exhausted
  | fuel + 1 => do
    let c ← peek 0
    let isQuote := c == (if single then '\'' else '"')
    if isGap c || (isQuote && !(single && (← peek 1) == '\'')) then return (acc, false)
    else if !single && c == '\\' && isBreak (← peek 1) then
      ensure 3
      skip
      skipLine
      return (acc, true)
    else
      if isQuote then skip
      let c ← if !single && c == '\\' then escape start else read
      ensure 2
      quotedWord single start (c :: acc) fuel

/-- Reads a scalar in quotes, from after its first quote on. -/
def quotedFrom (single : Bool) (start : Mark) (acc : List Char) : Nat → Reading (List Char)
  | 0 => exhausted
  | fuel + 1 => do
    ensure 4
    if (← get).atDocument then fail start .documentInQuote
    if (← peek 0) == endMark then fail start .unclosedQuote
    let (acc, continued) ← quotedWord single start acc (← size)
    ensure 1
    if (← peek 0) == (if single then '\'' else '"') then
      skip
      return acc
    else
      let gap ← gap start (fun _ => true) (if continued then .breaks none [] else .none) (← size)
      quotedFrom single start (gap.fill acc) fuel

def quoted (single : Bool) : Reading Bytes := do
  let start ← mark
  skip
  return bytesOfReversed (← quotedFrom single start [] (← size))

end Reading

end Lox.Yaml
