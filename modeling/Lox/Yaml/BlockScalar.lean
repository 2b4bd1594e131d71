import Lox.Yaml.Remark
/-!
# Block scalars

A block scalar is made of lines that are indented. It starts with `|`, and then keeps its lines, or
with `>`, and then joins lines that follow one another.
-/

namespace Lox.Yaml

/-- What becomes of the line ends after a block scalar. -/
inductive Chomping where
  | strip
  | clip
  | keep
deriving DecidableEq, Repr

namespace Reading

def chomping? : Char → Option Chomping
  | '+' => some .keep
  | '-' => some .strip
  | _ => none

/-- Reads an indicator of chomping, if there is one. -/
def chomping : Reading (Option Chomping) := do
  ensure 1
  let found := chomping? (← peek 0)
  if found.isSome then skip
  return found

/-- Reads an indicator of indentation; zero stands for none. -/
def increment (start : Mark) : Reading Nat := do
  ensure 1
  let c ← peek 0
  if c == '0' then fail start .blockIndent
  if c.isDigit then
    skip
    return c.toNat - '0'.toNat
  else return 0

/-- Reads the indicators after the first character, in either order. -/
def blockIndicators (start : Mark) : Reading (Chomping × Nat) := do
  match ← chomping with
  | some c => return (c, ← increment start)
  | none =>
    let n ← increment start
    if n = 0 then return (.clip, 0)
    return ((← chomping).getD .clip, n)

/-- Reads the rest of a line that may only hold a remark, and its end. -/
def restOfLine (start : Mark) : Reading Unit := do
  skipBlanks
  if (← peek 0) == '#' then skipWhile (fun c => !isBreakOrEnd c) (← size)
  let c ← peek 0
  if !isBreakOrEnd c then fail start .lineEnd
  if isBreak c then skipLine

/-- Skips indentation, up to `indent` if that is not zero. -/
def skipIndentation (indent : Nat) : Nat → Reading Unit
  | 0 => exhausted
  | fuel + 1 => do
    ensure 1
    if (indent = 0 || (← mark).column < indent) && (← peek 0) == ' ' then
      skip
      skipIndentation indent fuel

/-- Reads lines that are empty but for indentation: their ends, last one first, and the deepest
indentation seen. An `indent` of zero is one not known yet. -/
def emptyLines (start : Mark) (indent deepest : Nat) (breaks : List Char) :
    Nat → Reading (List Char × Nat)
  | 0 => exhausted
  | fuel + 1 => do
    skipIndentation indent (← size)
    let column := (← mark).column
    let c ← peek 0
    if (indent = 0 || column < indent) && c == '\t' then fail start .tabInBlock
    if isBreak c then
      emptyLines start indent (max deepest column) (← readLine breaks) fuel
    else return (breaks, max deepest column)

/-- The text of a block scalar so far: its characters, the end of its last line, and the ends of the
empty lines after that, all with the last one first. `blank` tells whether the last line started
with a blank. -/
structure BlockText where
  text : List Char
  lead : List Char
  breaks : List Char
  blank : Bool

/-- The text before a line that starts with `c`. Lines are joined unless one of them starts with a
blank. -/
def BlockText.before (t : BlockText) (literal : Bool) (c : Char) : List Char :=
  if !literal && !t.blank && !isBlank c && t.lead == ['\n'] then
    t.breaks ++ (if t.breaks.isEmpty then ' ' :: t.text else t.text)
  else t.breaks ++ (t.lead ++ t.text)

/-- Reads the lines of a block scalar. -/
def blockLines (literal : Bool) (start : Mark) (indent : Nat) (t : BlockText) :
    Nat → Reading BlockText
  | 0 => exhausted
  | fuel + 1 => do
    let c ← peek 0
    if (← mark).column ≠ indent || c == endMark then return t
    let text ← readWhile (fun c => !isBreakOrEnd c) (t.before literal c) (← size)
    let lead ← readLine []
    let (breaks, _) ← emptyLines start indent 0 [] (← size)
    blockLines literal start indent ⟨text, lead, breaks, isBlank c⟩ fuel

/-- Reads a block scalar within an indentation of `parent`. -/
def block (literal : Bool) (parent : Int) : Reading Bytes := do
  let start ← mark
  skip
  let (chomping, increment) ← blockIndicators start
  restOfLine start
  let known := if increment = 0 then 0 else (max parent 0).toNat + increment
  let (breaks, deepest) ← emptyLines start known 0 [] (← size)
  let indent := if known = 0 then max (max deepest (parent + 1).toNat) 1 else known
  let t ← blockLines literal start indent ⟨[], [], breaks, false⟩ (← size)
  return bytesOfReversed (match chomping with
    | .strip => t.text
    | .clip => t.lead ++ t.text
    | .keep => t.breaks ++ (t.lead ++ t.text))

end Reading

end Lox.Yaml
