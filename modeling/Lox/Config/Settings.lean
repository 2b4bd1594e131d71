import Lox.Config.Duration
import Lox.Config.LogLevel
import Lox.Text.Quoted
/-!
# Settings

The settings of the tools, their defaults, and what must hold of them: some of it always, some
only for the server or for mail.
-/

namespace Lox

/-- The settings of the server. -/
structure ServerSettings where
  address : Bytes
  secret : Bytes
  tokenLifetime : Duration
  passwordHash : Bytes
deriving DecidableEq, Repr

/-- The settings for sending mail. -/
structure MailSettings where
  host : Bytes
  port : Int
  user : Bytes
  password : Bytes
  sender : Bytes
deriving DecidableEq, Repr

structure Settings where
  logLevel : Bytes
  prompt : Bytes
  historyFile : Bytes
  server : ServerSettings
  mail : MailSettings
deriving DecidableEq, Repr

namespace Settings

def default : Settings :=
  { logLevel := utf8 "warn", prompt := utf8 "> ", historyFile := utf8 ".lox_history",
    server := {
      address := utf8 ":8080", secret := [], tokenLifetime := Duration.hour, passwordHash := [] },
    mail := { host := [], port := 587, user := [], password := [], sender := [] } }

/-- What a setting can be wrong about. -/
inductive Issue where
  | logLevel (text : Bytes)
  | tokenLifetime
  | port (n : Int)
  | missing (what remark : String)
deriving DecidableEq, Repr

def Issue.message : Issue → Bytes
  | logLevel text =>
    utf8 "log_level " ++ Quoted.encode text ++ utf8 " is not one of debug, info, warn, error"
  | tokenLifetime => utf8 "server.token_ttl must be positive"
  | port n => utf8 "smtp.port " ++ Bytes.ofInt n ++ utf8 " is out of range"
  | missing what remark => utf8 (what ++ " must be provided" ++ remark)

/-- One line for all issues together, then one for each. -/
def issuesText (issues : List Issue) : Bytes :=
  utf8 "config validation failed:" ++ issues.flatMap fun i => utf8 "\n- " ++ i.message

/-- The issues of settings that every tool depends on. -/
def issues (s : Settings) : List Issue :=
  (if (LogLevel.read? s.logLevel).isSome then [] else [.logLevel s.logLevel]) ++
    (if s.server.tokenLifetime ≤ 0 then [.tokenLifetime] else []) ++
    (if s.mail.port < 0 || 65535 < s.mail.port then [.port s.mail.port] else [])

/-- The issues that keep the server from starting. -/
def serverIssues (s : Settings) : List Issue :=
  (if s.server.address.isEmpty then [.missing "server.addr" ""] else []) ++
    (if s.server.secret.isEmpty then
      [.missing "server.jwt_secret (LOX_JWT_SECRET)" ""] else []) ++
    (if s.server.passwordHash.isEmpty then
      [.missing "server.password_hash (LOX_PASSWORD_HASH)" "; see 'lox hash'"] else [])

/-- The issues that keep mail from being sent. -/
def mailIssues (s : Settings) : List Issue :=
  (if s.mail.host.isEmpty then [.missing "smtp.host (SMTP_HOST)" ""] else []) ++
    (if s.mail.port = 0 then [.missing "smtp.port (SMTP_PORT)" ""] else [])

end Settings

end Lox
