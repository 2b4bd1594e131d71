import Lox.Parse.Fault
import Lox.RuntimeError
import Lox.Scope.Resolver
import Lox.Token.Scan
/-!
# Reports

Diagnostics of all stages go through one reporter, which remembers what kind of failure there
was, so that the exit code can tell.
-/

namespace Lox

/-- Something to report: a problem of the source, or an error while running. -/
inductive Diagnostic where
  | static (text : Bytes)
  | runtime (line : Int) (message : Bytes)

namespace Diagnostic

def ofScanError (e : ScanError) : Diagnostic := .static e.toBytes

def ofSyntaxError (e : SyntaxError) : Diagnostic := .static e.toBytes

def ofStaticError (e : StaticError) : Diagnostic := .static e.toBytes

def ofRuntimeError (e : RuntimeError) : Diagnostic := .runtime e.line e.message

/-- What is written for a diagnostic. -/
def toBytes : Diagnostic → Bytes
  | static text => text ++ [Bytes.newline]
  | runtime line message => message ++ utf8 "\n[line " ++ Bytes.ofInt line ++ utf8 "]\n"

end Diagnostic

/-- Whether there was a problem of the source, and whether there was a runtime error. -/
structure Reporter where
  hadError : Bool
  hadRuntimeError : Bool
deriving DecidableEq, Repr

namespace Reporter

def clear : Reporter := ⟨false, false⟩

def note (r : Reporter) : Diagnostic → Reporter
  | .static _ => { r with hadError := true }
  | .runtime _ _ => { r with hadRuntimeError := true }

def exitUsage : Nat := 64

def exitStatic : Nat := 65

def exitRuntime : Nat := 70

/-- The exit code; a problem of the source counts for more than a runtime error. -/
def exitCode (r : Reporter) : Nat :=
  if r.hadError then exitStatic
  else if r.hadRuntimeError then exitRuntime
  else 0

end Reporter

end Lox
