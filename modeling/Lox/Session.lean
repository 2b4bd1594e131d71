import Lox.Machine.Step
import Lox.Parse.Program
import Lox.Report
/-!
# Sessions

A session runs one piece of source after another. The global variables stay; a piece with an
error in its source does not run at all, and a runtime error ends only the piece it is in.
-/

namespace Lox

/-- How running a piece of source ended. -/
inductive Outcome where
  | finished
  | rejected
  | failed (e : RuntimeError)
  /-- The steps allowed were used up. -/
  | unfinished

structure Session where
  reporter : Reporter
  state : State

/-- What a piece of source brought forth. -/
structure Report where
  outcome : Outcome
  /-- The lines printed. -/
  output : List Bytes
  diagnostics : List Diagnostic
  trace : List TraceEvent

namespace Report

def outputText (r : Report) : Bytes := r.output.flatten

def errorText (r : Report) : Bytes := r.diagnostics.flatMap Diagnostic.toBytes

end Report

/-- Scans, parses and resolves a source; the statements, or what is wrong with it. Resolving
waits until scanning and parsing have no complaint. -/
def analyse (source : Bytes) : Except (List Diagnostic) (List Stmt) :=
  let scan := Scan.ofBytes source
  let program := Program.ofTokens scan.tokens scan.endLine
  match scan.errors.map .ofScanError ++ program.errors.map .ofSyntaxError with
  | [] =>
    let resolution := Resolution.ofStatements program.statements
    match resolution.errors.map .ofStaticError with
    | [] => .ok resolution.statements
    | problems => .error problems
  | problems => .error problems

/-- How a machine has ended, if it has, and the state it has left. -/
def Machine.ending (m : Machine) : Outcome × State :=
  match m.focus with
  | .raised e => if m.halted then (.failed e, m.state) else (.unfinished, m.state)
  | _ => if m.halted then (.finished, m.state) else (.unfinished, m.state)

namespace Session

def new : Session := ⟨.clear, .initial⟩

/-- The machine on which a session runs a program. -/
def machine (session : Session) (program : List Stmt) : Machine :=
  Machine.start program { session.state with output := #[], trace := #[] }

/-- Runs statements for at most `fuel` steps. -/
def interpret (fuel : Nat) (program : List Stmt) (s : State) : Outcome × State :=
  (Machine.run fuel (Machine.start program { s with output := #[], trace := #[] })).ending

/-- The report on a source that is not run, and the session after it. -/
def reject (problems : List Diagnostic) (session : Session) : Report × Session :=
  (⟨.rejected, [], problems, []⟩,
    { session with reporter := problems.foldl Reporter.note session.reporter })

/-- The report on a source whose statements have come to an ending, and the session after it. -/
def conclude (ending : Outcome × State) (session : Session) : Report × Session :=
  let (outcome, state) := ending
  let diagnostics := match outcome with
    | .failed e => [.ofRuntimeError e]
    | _ => []
  (⟨outcome, state.output.toList, diagnostics, state.trace.toList⟩,
    ⟨diagnostics.foldl Reporter.note session.reporter, state⟩)

/-- Runs a source for at most `fuel` steps. -/
def run (fuel : Nat) (source : Bytes) (session : Session) : Report × Session :=
  match analyse source with
  | .error problems => session.reject problems
  | .ok program => session.conclude (interpret fuel program session.state)

/-- Forgets earlier failures. -/
def reset (session : Session) : Session := { session with reporter := .clear }

end Session

end Lox
