import Lox.Yaml.Source
/-!
# White space within scalars

White space between the words of a scalar is kept back until it is known how it counts: blanks
count as they are, a line end counts as one blank, and further line ends count as line ends.
-/

namespace Lox.Yaml

/-- White space that was read but does not count yet. -/
inductive Gap where
  | none
  | blanks (text : List Char)
  | breaks (first : Option Char) (more : List Char)

namespace Gap

def addBlank (c : Char) : Gap → Gap
  | none => blanks [c]
  | blanks text => blanks (c :: text)
  | breaks first more => breaks first more

def addBreak (c : Char) : Gap → Gap
  | breaks first more => breaks first (c :: more)
  | _ => breaks (some c) []

def hasBreak : Gap → Bool
  | breaks _ _ => true
  | _ => false

/-- Adds what a gap counts as to characters collected last one first. -/
def fill (acc : List Char) : Gap → List Char
  | none => acc
  | blanks text => text ++ acc
  | breaks (some '\n') [] => ' ' :: acc
  | breaks (some '\n') more => more ++ acc
  | breaks first more => more ++ (first.toList ++ acc)

end Gap

/-- Reads white space onto a gap. After a line end, a tab must not fail the test `tabFits`, which
gets its column. -/
def Reading.gap (start : Mark) (tabFits : Nat → Bool) (gap : Gap) : Nat → Reading Gap
  | 0 => exhausted
  | fuel + 1 => do
    ensure 1
    let c ← peek 0
    if isBlank c then
      if c == '\t' && gap.hasBreak && !tabFits (← mark).column then fail start .tabInPlain
      skip
      Reading.gap start tabFits (gap.addBlank c) fuel
    else if isBreak c then
      let _ ← readLine []
      Reading.gap start tabFits (gap.addBreak (evenBreak c)) fuel
    else return gap

end Lox.Yaml
