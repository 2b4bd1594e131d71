import Lox.Command.Plan
/-!
# The command line

The outermost layer: it reads what a command is carried out with, writes what comes of it, and
runs programs with the time of day on their clock.
-/

namespace Lox.Command

/-- How many steps a program may take. -/
def stepLimit : Nat := Nat.pow 10 18

def bytesOfArray (a : ByteArray) : Bytes := a.data.toList

/-- Writes text and shows it at once. -/
def put (stream : IO.FS.Stream) (s : Bytes) : IO Unit := do
  stream.write ⟨s.toArray⟩
  stream.flush

/-- The content of a file, if it can be read. -/
def fileAt? (name : String) : IO (Option Bytes) := do
  try
    return some (bytesOfArray (← IO.FS.readBinFile name))
  catch _ => return none

/-- The files of the given names that can be read. -/
def filesAt (names : List String) : IO Files := do
  let found ← names.filterMapM fun name => do
    return (← fileAt? name).map fun content => (utf8 name, content)
  return Files.ofList found

/-- The variables that settings may come from. -/
def variableNames : List String :=
  ["LOX_LOG_LEVEL", "LOX_PROMPT", "LOX_HISTORY_FILE", "LOX_SERVER_ADDR", "LOX_JWT_SECRET",
    "LOX_PASSWORD_HASH", "LOX_TOKEN_TTL", "SMTP_HOST", "SMTP_PORT", "SMTP_USER", "SMTP_PASS",
    "SMTP_FROM"]

def environment : IO Variables :=
  variableNames.filterMapM fun name => do
    return (← IO.getEnv name).map fun value => (utf8 name, utf8 value)

/-! ## Running in time -/

/-- Seconds since the beginning of 1970, by the date of a new file. -/
def dateOfNewFile : IO Float := do
  let (_, path) ← IO.FS.createTempFile
  let date := (← path.metadata).modified
  IO.FS.removeFile path
  return Float.ofInt date.sec + date.nsec.toNat.toFloat / 1e9

def secondsCounted : IO Float := return (← IO.monoNanosNow).toFloat / 1e9

/-- The time of day, in seconds since the beginning of 1970. Its date is looked up once; without
it the seconds count from another beginning. -/
def timeOfDay : IO (IO Float) := do
  let beginning ← try pure ((← dateOfNewFile) - (← secondsCounted)) catch _ => pure 0
  return return beginning + (← secondsCounted)

/-- At most `fuel` steps, each with the time at which it is made on the clock. -/
def runMachine (time : IO Float) : Nat → Machine → IO Machine
  | 0, m => return m
  | fuel + 1, m => do
    if m.halted then return m
    let now ← time
    runMachine time fuel { m with state := { m.state with now } }.step

/-- Runs a source while time passes. -/
def runInTime (time : IO Float) (fuel : Nat) (source : Bytes) (session : Session) :
    IO (Report × Session) := do
  match analyse source with
  | .error problems => return session.reject problems
  | .ok program =>
    return session.conclude (← runMachine time fuel (session.machine program)).ending

/-! ## Commands -/

/-- Reads lines and runs them until the input or the conversation ends. -/
partial def talk (time : IO Float) (fuel : Nat) (own : Bytes) (c : Conversation) :
    IO Conversation := do
  let output ← IO.getStdout
  put output (c.prompt own)
  let line ← (← IO.getStdin).getLine
  if line.isEmpty then
    put output [Bytes.newline]
    return c
  let text := (InputLine.next (utf8 line)).1.text
  let (turn, c) ← match c.take text with
    | .answer turn c => pure (turn, c)
    | .run entry c => do
      let (report, session) ← runInTime time fuel entry c.session
      pure (c.resume report session)
  put output turn.output
  put (← IO.getStderr) turn.errors
  if turn.quits then return c else talk time fuel own c

/-- Holds a conversation and saves its history. -/
def hold (time : IO Float) (w : Surroundings) (settings : Settings) : IO Unit := do
  put (← IO.getStdout) (Conversation.banner version)
  let name := String.fromUTF8? ⟨settings.historyFile.toArray⟩ |>.getD ""
  let old ← fileAt? name
  let earlier := (old.map History.ofBytes).getD []
  let c ← talk time w.fuel settings.prompt (Conversation.start (initialState w settings) earlier)
  try
    IO.FS.writeBinFile name ⟨c.history.toBytes.toArray⟩
  catch _ => return

def finish (r : Result) : IO UInt32 := do
  put (← IO.getStdout) r.output
  put (← IO.getStderr) r.errors
  return r.exitCode.toUInt32

/-- Carries out a command line. Serving and sending mail need a network, which is not there. -/
def carryOut (args : List String) : IO UInt32 := do
  let time ← timeOfDay
  let w : Surroundings :=
    { files := ← filesAt (".env" :: "lox.yaml" :: args)
      environment := ← environment
      fuel := stepLimit
      now := .still (← time)
      salt := bytesOfArray (← IO.getRandomBytes 16) }
  let plan ← match errand w (args.map utf8) with
    | .plan plan => pure plan
    | .run session source next => do
      let (report, session) ← runInTime time w.fuel source session
      pure (next report session)
  match plan with
  | .finish r => finish r
  | .converse settings =>
    hold time w settings
    return 0
  | .serve settings =>
    finish ⟨utf8 "Starting lox server on " ++ settings.server.address ++ [Bytes.newline],
      utf8 "server error: no network\n", exitFailure⟩
  | .send _ r =>
    finish ⟨r.output, r.errors ++ Mail.sendFault (utf8 "no network") ++ [Bytes.newline],
      exitFailure⟩

end Lox.Command

def main (args : List String) : IO UInt32 := Lox.Command.carryOut args
