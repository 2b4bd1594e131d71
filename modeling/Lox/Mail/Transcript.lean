import Lox.Config.Settings
import Lox.Mail.HeaderText
/-!
# Transcripts

The mail that reports on a run: what the script printed, and its diagnostics after it.
-/

namespace Lox

/-- A mail with its headers and its body as they are written. -/
structure Mail where
  sender : Bytes
  recipient : Bytes
  subject : Bytes
  body : Bytes
deriving DecidableEq, Repr

namespace Mail

def compose (sender recipient subject body : Bytes) : Mail :=
  { sender := HeaderText.encode sender
    recipient := HeaderText.encode recipient
    subject := HeaderText.encode subject
    body := QuotedPrintable.encode body }

/-- The sender's address: the one that is set, or else the mail user. -/
def senderOf (s : MailSettings) : Bytes :=
  if !s.sender.isEmpty then s.sender
  else if !s.user.isEmpty then s.user
  else utf8 "noreply@example.com"

/-- The mail about a run. -/
def transcript (s : MailSettings) (recipient script output diagnostics : Bytes) : Mail :=
  let body := if diagnostics.isEmpty then output
    else output ++ utf8 "\n--- errors ---\n" ++ diagnostics
  compose (senderOf s) recipient (utf8 "lox run: " ++ script) body

/-- What is said if a mail could not be handed over. -/
def sendFault (cause : Bytes) : Bytes := utf8 "failed to send email: " ++ cause

end Mail

end Lox
