import Lox.Server.Request
import Lox.Text.Base64
/-!
# Opening a WebSocket

What a request must say to become a WebSocket connection.
-/

namespace Lox.Handshake

def isBlank (b : UInt8) : Bool := b == ' '.toUInt8 || b == '\t'.toUInt8

/-- Bytes of a word in a header. -/
def isWordByte (b : UInt8) : Bool :=
  Bytes.isLetter b || Bytes.isDigit b || (utf8 "!#$%&'*+-.^`|~").contains b

/-- Whether a header's list of words, divided by commas, holds a given word in any case. The
list ends where it is malformed. -/
def listHas (word : Bytes) : List Bytes → Bool
  | [] => false
  | piece :: rest =>
    let piece := piece.dropWhile isBlank
    let found := piece.takeWhile isWordByte
    let tail := (piece.dropWhile isWordByte).dropWhile isBlank
    !found.isEmpty && tail.isEmpty &&
      (found.map Bytes.toLower == word || listHas word rest)

def headerHas (r : Request) (name word : String) : Bool :=
  listHas (utf8 word) (Bytes.splitOn ','.toUInt8 (r.header name))

/-- A key stands for sixteen bytes. -/
def isKey (s : Bytes) : Bool := (Base64.decodePadded? Base64.standard s).any (·.length == 16)

/-- The answer to a request that cannot become a connection. -/
def refusal? (r : Request) : Option Response :=
  let bad := Response.failure 400 "Bad Request"
  if !headerHas r "Connection" "upgrade" then some bad
  else if !headerHas r "Upgrade" "websocket" then some bad
  else if r.method != utf8 "GET" then some (.failure 405 "Method Not Allowed")
  else if !headerHas r "Sec-Websocket-Version" "13" then some bad
  else if !isKey (r.header "Sec-Websocket-Key") then some bad
  else none

end Lox.Handshake
