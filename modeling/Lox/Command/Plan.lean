import Lox.Access.Password
import Lox.Command.Files
import Lox.Command.Flags
import Lox.Command.Texts
import Lox.Config.Load
import Lox.Mail.Transcript
import Lox.Repl.Conversation
import Lox.Tree.Insight
import Lox.Tree.Printer
/-!
# Commands

What the command line asks for, and what comes of it. Whatever needs no more input than the
files at hand is carried out; a conversation, a server and a mail are left to the caller. So is
the run of a program, if the caller wants to make it (`Errand`).
-/

namespace Lox.Command

/-- What a command is carried out with: the files at hand, the environment, how many steps a
program may take, its clock, and the salt of new password hashes. -/
structure Surroundings where
  files : Files
  environment : Variables
  fuel : Nat
  now : Clock
  salt : Bytes

/-- What a command writes, and its exit code. -/
structure Result where
  output : Bytes
  errors : Bytes
  exitCode : Nat

/-- What comes of a command line. -/
inductive Plan where
  | finish (r : Result)
  | converse (settings : Settings)
  | serve (settings : Settings)
  /-- A script was run, and a mail is to be sent about it. -/
  | send (mail : Mail) (r : Result)

/-- What a command line asks for: something to do, or a source to run first. -/
inductive Errand where
  | plan (p : Plan)
  | run (session : Session) (source : Bytes) (next : Report → Session → Plan)

/-- The plan after the run that an errand asks for. -/
def Errand.settle (fuel : Nat) : Errand → Plan
  | .plan p => p
  | .run session source next =>
    let (report, session) := session.run fuel source
    next report session

/-- A command that comes to its end without a run. -/
def Errand.finish (r : Result) : Errand := .plan (.finish r)

def exitFailure : Nat := 1

/-- A failure that is told in one line. -/
def failure (text : Bytes) : Result := ⟨[], text ++ [Bytes.newline], exitFailure⟩

def unreadable (cause : Bytes) : Result := failure (utf8 "Error reading file: " ++ cause)

/-- A command line that is not understood. -/
def misuse (output : Bytes) : Result := ⟨output, [], Reporter.exitUsage⟩

/-! ## Running -/

/-- Whether the steps of a program are logged. -/
def isTracing (settings : Settings) : Bool :=
  match LogLevel.read? settings.logLevel with
  | some level => level ≤ -4
  | none => false

/-- The state that a program starts in. -/
def initialState (w : Surroundings) (settings : Settings) : State :=
  { State.initial with tracing := isTracing settings, now := w.now }

/-- Runs a source in a new session. -/
def runSource (w : Surroundings) (settings : Settings) (source : Bytes)
    (next : Report → Session → Plan) : Errand :=
  .run ⟨.clear, initialState w settings⟩ source next

def resultOf (report : Report) (session : Session) : Result :=
  ⟨report.outputText, Conversation.errorsOf report, session.reporter.exitCode⟩

def execute (w : Surroundings) (settings : Settings) (source : Bytes) : Errand :=
  runSource w settings source fun report session => .finish (resultOf report session)

/-- Runs a script, and reports on it by mail if there is a recipient. -/
def runFile (w : Surroundings) (settings : Settings) (name recipient : Bytes) : Errand :=
  if !recipient.isEmpty && !settings.mailIssues.isEmpty then
    .finish (failure (Settings.issuesText settings.mailIssues))
  else match w.files.read name with
    | .error fault =>
      .finish (unreadable (utf8 "lox: read " ++ name ++ utf8 ": " ++ fault.message))
    | .ok source =>
      runSource w settings source fun report session =>
        let r := resultOf report session
        if recipient.isEmpty then .finish r
        else
          .send (Mail.transcript settings.mail recipient name report.outputText report.errorText) r

def runFlags : FlagSet :=
  ⟨"run", [⟨"mail-to", "mail the output and errors of the run to this address", []⟩]⟩

def run (w : Surroundings) (settings : Settings) (arguments : List Bytes) : Errand :=
  match runFlags.parse [] arguments with
  | .error fault => .finish ⟨[], runFlags.explain fault, Reporter.exitUsage⟩
  | .ok (_, []) => .finish (misuse (utf8 "Usage: lox run [-mail-to addr] <file>\n"))
  | .ok (values, name :: _) => runFile w settings name (runFlags.value values "mail-to")

/-! ## Looking at a source -/

def tokens (w : Surroundings) (name : Bytes) : Result :=
  match w.files.read name with
  | .error fault => unreadable fault.message
  | .ok source =>
    let scan := Scan.ofBytes source
    let problems := scan.errors.map Diagnostic.ofScanError
    ⟨scan.listing.flatMap (· ++ [Bytes.newline]), problems.flatMap Diagnostic.toBytes,
      (problems.foldl Reporter.note .clear).exitCode⟩

/-- Shows something about the statements of a source that has no errors. -/
def showProgram (w : Surroundings) (name : Bytes) (text : List Stmt → Bytes) : Result :=
  match w.files.read name with
  | .error fault => unreadable fault.message
  | .ok source =>
    match analyse source with
    | .ok program => ⟨text program, [], 0⟩
    | .error problems =>
      ⟨[], problems.flatMap Diagnostic.toBytes,
        (problems.foldl Reporter.note .clear).exitCode⟩

def programText (program : List Stmt) : Bytes :=
  Bytes.join [Bytes.newline] (program.map Stmt.toBytes) ++ [Bytes.newline]

/-! ## Other commands -/

def serveFlags (settings : Settings) : FlagSet :=
  ⟨"serve", [⟨"addr", "listen address", settings.server.address⟩]⟩

def serve (settings : Settings) (arguments : List Bytes) : Errand :=
  let flags := serveFlags settings
  match flags.parse [] arguments with
  | .error fault => .finish ⟨[], flags.explain fault, Reporter.exitUsage⟩
  | .ok (values, _) =>
    let settings :=
      { settings with server := { settings.server with address := flags.value values "addr" } }
    match settings.serverIssues with
    | [] => .plan (.serve settings)
    | found => .finish (failure (Settings.issuesText found))

def hash (w : Surroundings) (password : Bytes) : Result :=
  match Password.hash password w.salt with
  | .ok hash => ⟨hash ++ [Bytes.newline], [], 0⟩
  | .error e => failure (utf8 e.message)

/-- Carries a command with one argument out; more arguments do not count. -/
def withArgument (arguments : List Bytes) (usage : String) (f : Bytes → Errand) : Errand :=
  match arguments with
  | [] => .finish (misuse (utf8 (usage ++ "\n")))
  | a :: _ => f a

def variablesFile : Bytes := utf8 ".env"

def documentFile : Bytes := utf8 "lox.yaml"

/-- A file that may be absent. -/
def sourceFile (files : Files) (name : Bytes) : Settings.SourceFile :=
  ⟨name, match files.read name with
    | .ok text => .text text
    | .error fault => if fault.cause = .missing then .absent else .unreadable fault.message⟩

def loadSettings (w : Surroundings) : Except LoadFault Settings :=
  Settings.load (sourceFile w.files variablesFile) (sourceFile w.files documentFile)
    w.environment

/-- Carries out a command that depends on the settings. -/
def dispatch (w : Surroundings) (settings : Settings) (name : Bytes) (arguments : List Bytes) :
    Errand :=
  if Bytes.endsWith (utf8 ".lox") name then runFile w settings name []
  else if name == utf8 "repl" then .plan (.converse settings)
  else if name == utf8 "run" then run w settings arguments
  else if name == utf8 "eval" then
    withArgument arguments "Usage: lox eval '<code>'" (execute w settings)
  else if name == utf8 "tokens" then
    withArgument arguments "Usage: lox tokens <file>" fun file => .finish (tokens w file)
  else if name == utf8 "ast" then
    withArgument arguments "Usage: lox ast <file>" fun file =>
      .finish (showProgram w file programText)
  else if name == utf8 "inspect" then
    withArgument arguments "Usage: lox inspect <file>" fun file =>
      .finish (showProgram w file fun program => (Insights.ofProgram program).toBytes)
  else if name == utf8 "serve" then serve settings arguments
  else if name == utf8 "hash" then
    withArgument arguments "Usage: lox hash <password>" fun password =>
      .finish (hash w password)
  else .finish (misuse (utf8 "Unknown command: " ++ name ++ utf8 "\n\n" ++ help))

/-- What a command line asks for, carried out as far as that needs neither a run nor further
input. -/
def errand (w : Surroundings) : List Bytes → Errand
  | [] => .finish (misuse shortHelp)
  | name :: arguments =>
    if [utf8 "--version", utf8 "-v", utf8 "version"].contains name then
      .finish ⟨versionText, [], 0⟩
    else if [utf8 "--help", utf8 "-h", utf8 "help"].contains name then .finish ⟨help, [], 0⟩
    else match loadSettings w with
      | .error fault => .finish (failure fault.message)
      | .ok settings => dispatch w settings name arguments

/-- Carries out a command line, as far as that needs no further input. -/
def plan (w : Surroundings) (arguments : List Bytes) : Plan := (errand w arguments).settle w.fuel

/-! ## Conversations -/

/-- The history of earlier conversations, as far as it can be read. -/
def history (files : Files) (settings : Settings) : History :=
  match files.read settings.historyFile with
  | .ok file => History.ofBytes file
  | .error _ => []

/-- A whole conversation over a given input, and the files after it. -/
def converse (w : Surroundings) (settings : Settings) (input : Bytes) : Result × Files :=
  let c := Conversation.start (initialState w settings) (history w.files settings)
  let (output, errors, c) := Conversation.feedAll w.fuel settings.prompt (InputLine.all input) c
  let files := match w.files.write settings.historyFile c.history.toBytes with
    | .ok files => files
    | .error _ => w.files
  (⟨Conversation.banner version ++ output, errors, 0⟩, files)

end Lox.Command
