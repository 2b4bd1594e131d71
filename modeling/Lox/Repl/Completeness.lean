import Lox.Parse.Program
import Lox.Token.Scan
/-!
# Finished input

While lines are being typed, a source may simply not be finished: a string, statement or block
is still open at its end. Then more lines are asked for. Any other error is final.
-/

namespace Lox

inductive Completeness where
  | complete
  | incomplete
  | wrong (message : Bytes)
deriving DecidableEq

namespace Completeness

/-- Whether an error says that the input ended too early. -/
def isUnfinished (e : SyntaxError) : Bool :=
  match e.site with
  | .endOfInput _ => true
  | .token _ => false

/-- What the errors of a source say about it. An open string comes before all else, then the
first error of the scan, then an early end, then the first error of the parse. -/
def judge (scanErrors : List ScanError) (syntaxErrors : List SyntaxError) : Completeness :=
  if scanErrors.any (·.fault == .unterminatedString) then .incomplete
  else match scanErrors with
    | e :: _ => .wrong e.toBytes
    | [] =>
      if syntaxErrors.any isUnfinished then .incomplete
      else match syntaxErrors with
        | e :: _ => .wrong e.toBytes
        | [] => .complete

def ofSource (source : Bytes) : Completeness :=
  let scan := Scan.ofBytes source
  judge scan.errors (Program.ofTokens scan.tokens scan.endLine).errors

end Completeness

end Lox
