import Lox.Bindings
import Lox.Config.Document
import Lox.Config.Dotenv
/-!
# Loading settings

Settings come, each over the one before, from the defaults, a document, and the environment. A
file of variables adds to the environment, but never replaces what is there.
-/

namespace Lox

/-- Why settings cannot be loaded. -/
inductive LoadFault where
  | document (file : Bytes) (fault : DocumentFault)
  | variableFile (file : Bytes) (fault : Dotenv.Fault)
  | unreadable (file : Bytes) (cause : Bytes)
  | tokenLifetime (text : Bytes) (cause : Duration.Cause)
  | port (text : Bytes) (fault : Whole.Fault)
  | invalid (issues : List Settings.Issue)

namespace LoadFault

def wholeFault : Whole.Fault → String
  | .malformed => "invalid syntax"
  | .outOfRange => "value out of range"

def message : LoadFault → Bytes
  | document file fault => utf8 "config: parse " ++ file ++ utf8 ": " ++ fault.message
  | variableFile file fault => utf8 "config: load " ++ file ++ utf8 ": " ++ fault.message
  | unreadable file cause => utf8 "config: load " ++ file ++ utf8 ": " ++ cause
  | tokenLifetime text cause => utf8 "config: LOX_TOKEN_TTL: " ++ cause.message text
  | port text fault =>
    utf8 "config: SMTP_PORT must be an integer: strconv.Atoi: parsing " ++ Quoted.encode text ++
      utf8 (": " ++ wholeFault fault)
  | invalid issues => Settings.issuesText issues

/-- Whether settings were read but are not good. -/
def isInvalid : LoadFault → Bool
  | invalid _ => true
  | _ => false

end LoadFault

/-- Variables and their values. -/
abbrev Variables := Bindings Bytes

namespace Settings

/-- Adds the variables of a file that are not there yet. A variable has a name, and neither name
nor value has a zero byte. -/
def addVariables (vars more : Variables) : Variables :=
  more.foldl (fun acc (name, value) =>
    if vars.has name || name.isEmpty || name.contains 0 || value.contains 0 then acc
    else acc.insert name value) vars

/-- Settings changed by variables. -/
def withVariables (vars : Variables) (s : Settings) : Except LoadFault Settings := do
  let get (name : String) (old : Bytes) : Bytes := (vars.get? (utf8 name)).getD old
  let s : Settings :=
    { s with
      logLevel := get "LOX_LOG_LEVEL" s.logLevel
      prompt := get "LOX_PROMPT" s.prompt
      historyFile := get "LOX_HISTORY_FILE" s.historyFile
      server := { s.server with
        address := get "LOX_SERVER_ADDR" s.server.address
        secret := get "LOX_JWT_SECRET" s.server.secret
        passwordHash := get "LOX_PASSWORD_HASH" s.server.passwordHash }
      mail := { s.mail with
        host := get "SMTP_HOST" s.mail.host
        user := get "SMTP_USER" s.mail.user
        password := get "SMTP_PASS" s.mail.password
        sender := get "SMTP_FROM" s.mail.sender } }
  let lifetime ← match vars.get? (utf8 "LOX_TOKEN_TTL") with
    | none => .ok s.server.tokenLifetime
    | some text => (Duration.read text).mapError (.tokenLifetime text)
  let port ← match vars.get? (utf8 "SMTP_PORT") with
    | none => .ok s.mail.port
    | some text => (Whole.read text).mapError (.port text)
  return { s with
    server := { s.server with tokenLifetime := lifetime }
    mail := { s.mail with port := port } }

/-- What there is of a file. -/
inductive Content where
  | absent
  | unreadable (cause : Bytes)
  | text (s : Bytes)

/-- A file by its name. -/
structure SourceFile where
  name : Bytes
  content : Content

/-- Loads settings from a document, a file of variables and the environment, and checks them. -/
def load (variablesFile documentFile : SourceFile) (environment : Variables) :
    Except LoadFault Settings := do
  let s ← match documentFile.content with
    | .absent => .ok Settings.default
    | .unreadable cause =>
      .error (.document documentFile.name (.yaml (.general (.unreadable cause))))
    | .text text =>
      (Settings.default.withDocument text).mapError (.document documentFile.name)
  let vars ← match variablesFile.content with
    | .absent => .ok environment
    | .unreadable cause => .error (.unreadable variablesFile.name cause)
    | .text text =>
      match Dotenv.read text with
      | .error fault => .error (.variableFile variablesFile.name fault)
      | .ok more => .ok (addVariables environment more)
  let s ← s.withVariables vars
  match s.issues with
  | [] => return s
  | found => throw (.invalid found)

end Settings

end Lox
