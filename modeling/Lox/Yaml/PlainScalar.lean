import Lox.Yaml.Gap
/-!
# Scalars without quotes
-/

namespace Lox.Yaml

/-- Characters that end a plain scalar within brackets or braces. -/
def isFlowMark (c : Char) : Bool :=
  c == ',' || c == '?' || c == '[' || c == ']' || c == '\x7b' || c == '\x7d'

namespace Reading

/-- Reads up to white space or a mark that ends the scalar. What a gap before the word counts as
comes first. -/
def plainWord (flow : Bool) (acc : List Char) (gap : Gap) : Nat → Reading (List Char × Gap)
  | 0 => exhausted
  | fuel + 1 => do
    let c ← peek 0
    if isGap c || (c == ':' && isGap (← peek 1)) || (flow && isFlowMark c) then return (acc, gap)
    else
      skip
      ensure 2
      plainWord flow (c :: gap.fill acc) .none fuel

/-- Reads a plain scalar; lines after its first one must be indented by `indent`, except within
brackets or braces. Also gives the gap after its last word. -/
def plainFrom (indent : Int) (flow : Bool) (start : Mark) (acc : List Char) (gap : Gap) :
    Nat → Reading (List Char × Gap)
  | 0 => exhausted
  | fuel + 1 => do
    ensure 4
    if (← get).atDocument || (← peek 0) == '#' then return (acc, gap)
    let (acc, gap) ← plainWord flow acc gap (← size)
    let c ← peek 0
    if !(isBlank c || isBreak c) then return (acc, gap)
    let gap ← Reading.gap start (fun column => indent ≤ column) gap (← size)
    if !flow && ((← mark).column : Int) < indent then return (acc, gap)
    plainFrom indent flow start acc gap fuel

/-- Reads a plain scalar; tells whether a line end was read after its last word. -/
def plain (indent : Int) (flow : Bool) : Reading (Bytes × Bool) := do
  let (acc, gap) ← plainFrom indent flow (← mark) [] .none (← size)
  return (bytesOfReversed acc, gap.hasBreak)

end Reading

end Lox.Yaml
