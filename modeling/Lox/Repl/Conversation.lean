import Lox.Repl.Completeness
import Lox.Repl.History
import Lox.Session
import Lox.Text.Blank
/-!
# Conversations

A conversation reads lines until they make a finished entry, runs the entry, and goes on with
the next one. An entry that starts with a colon is a command to the conversation itself.
-/

namespace Lox

/-- The state of a conversation: its session, the lines of an entry that is not finished, and
the history. -/
structure Conversation where
  session : Session
  pending : Bytes
  history : History

/-- What happens after a line. -/
structure Turn where
  output : Bytes
  errors : Bytes
  quits : Bool

/-- What a conversation does about a line: it answers at once, or it has an entry to run. -/
inductive Move where
  | answer (turn : Turn) (c : Conversation)
  | run (entry : Bytes) (c : Conversation)

namespace Conversation

def banner (version : String) : Bytes :=
  utf8 ("Lox " ++ version ++ " REPL. Type :quit to exit.\n")

def start (state : State) (history : History) : Conversation :=
  { session := ⟨.clear, state⟩, pending := [], history := history }

/-- What is shown before a line is read. -/
def prompt (own : Bytes) (c : Conversation) : Bytes :=
  if c.pending.isEmpty then own else utf8 "... "

def silence : Turn := ⟨[], [], false⟩

/-- A letter in lower case, as far as the name of a command can hold it. -/
def lower (c : Char) : Char := if c == 'İ' then 'i' else c.toLower

/-- Whether an entry asks to end the conversation. -/
def isQuit (entry : Bytes) : Bool :=
  let name := (Utf8.units entry).map fun
    | .char c => lower c
    | .stray _ => '\x00'
  name == ":quit".toList || name == ":q".toList

/-- Everything that a run wrote to the diagnostics. -/
def errorsOf (report : Report) : Bytes :=
  report.trace.flatMap (fun e => e.toBytes ++ [Bytes.newline]) ++ report.errorText

/-- Takes a finished entry. -/
def enter (entry : Bytes) (c : Conversation) : Move :=
  let trimmed := entry.trimSpace
  if trimmed.isEmpty then .answer silence c
  else if trimmed.head? == some ':'.toUInt8 then
    if isQuit trimmed then .answer { silence with quits := true } c
    else .answer { silence with output := utf8 "unknown command. Type :quit to exit.\n" } c
  else
    let line := entry.map fun b => if b == Bytes.newline then ' '.toUInt8 else b
    .run entry { c with session := c.session.reset, history := c.history.add line }

/-- Takes one more line. -/
def take (line : Bytes) (c : Conversation) : Move :=
  let entry := if c.pending.isEmpty then line else c.pending ++ Bytes.newline :: line
  match Completeness.ofSource entry with
  | .incomplete => .answer silence { c with pending := entry }
  | _ => enter entry { c with pending := [] }

/-- Goes on after an entry has been run. -/
def resume (report : Report) (session : Session) (c : Conversation) : Turn × Conversation :=
  (⟨report.outputText, errorsOf report, false⟩, { c with session := session })

/-- Takes one more line and runs the entry that it finishes. -/
def feed (fuel : Nat) (line : Bytes) (c : Conversation) : Turn × Conversation :=
  match c.take line with
  | .answer turn c => (turn, c)
  | .run entry c =>
    let (report, session) := c.session.run fuel entry
    c.resume report session

/-- Takes lines until they or the conversation end, and gives all that was written. When the
input ends, the pending lines are dropped. -/
def feedAll (fuel : Nat) (own : Bytes) :
    List InputLine → Conversation → Bytes × Bytes × Conversation
  | [], c => (c.prompt own ++ [Bytes.newline], [], c)
  | line :: rest, c =>
    let (turn, next) := c.feed fuel line.text
    let shown := c.prompt own ++ turn.output
    if turn.quits then (shown, turn.errors, next)
    else
      let (output, errors, last) := feedAll fuel own rest next
      (shown ++ output, turn.errors ++ errors, last)

end Conversation

end Lox
