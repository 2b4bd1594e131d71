import Lox.Yaml.Source
/-!
# Remarks

A remark goes from a `#` to the end of its line. Remarks of lines that follow one another are read
at once, whatever white space stands before them and however many empty lines between them.
-/

namespace Lox.Yaml.Reading

/-- How many characters are looked at in search of a remark. -/
def remarkReach : Nat := 512

/-- Reads up to the end of the line with the character of a given index. -/
def pastLineOf (index : Nat) : Nat → Reading Unit
  | 0 => exhausted
  | fuel + 1 => do
    ensure 1
    if isBreakOrEnd (← peek 0) then
      if (← mark).index < index then
        skipLine
        pastLineOf index fuel
    else
      skip
      pastLineOf index fuel

/-- Reads the remark that starts after the next `i` characters. -/
def pastRemark (i : Nat) : Reading Unit := do pastLineOf ((← mark).index + i) (← size)

/-- Where the next remark starts, if there are only white space and plain line ends before it;
`left` characters are looked at, the first `i` having been. -/
def findRemark : (left i : Nat) → Reading (Option Nat)
  | 0, _ => return none
  | left + 1, i => do
    if !(← attempt (i + 1)) then return none
    let c ← peek i
    if isBlank c || c == '\n' || c == '\r' then findRemark left (i + 1)
    else if c == '#' then return some i
    else
      if isBreak c then let _ ← attempt (i + 2)
      return none

/-- Where the next remark starts after the end of this line. -/
def findNextRemark : Reading (Option Nat) := do
  let c ← peek 0
  if c == '\n' || c == '\r' then findRemark (remarkReach - 1) 1
  else
    let _ ← attempt 2
    return none

/-- Reads a remark that starts after the next `i` characters, and those after it. -/
def pastRemarks (i : Nat) : Nat → Reading Unit
  | 0 => exhausted
  | fuel + 1 => do
    pastRemark i
    match ← findNextRemark with
    | some j => pastRemarks j fuel
    | none => return

/-- Where a remark starts on this line, if there are only blanks before it. -/
def findLineRemark : (left i : Nat) → Reading (Option Nat)
  | 0, _ => return none
  | left + 1, i => do
    if !(← attempt (i + 1)) then return none
    let c ← peek i
    if isBlank c then findLineRemark left (i + 1)
    else return if c == '#' then some i else none

/-- Reads a remark on the line that was read last, if that has not ended yet. -/
def lineRemark : Reading Unit := do
  if (← get).newlines = 0 then
    match ← findLineRemark remarkReach 0 with
    | some i => pastRemark i
    | none => return

end Lox.Yaml.Reading
