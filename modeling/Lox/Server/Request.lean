import Lox.Text.Blank
import Lox.Text.Path
/-!
# Requests and responses

A request names its target as a path and a query, or as a whole address. Both may hold bytes
written as a percent sign and two hexadecimal digits.
-/

namespace Lox

/-- A request as it arrives. -/
structure Request where
  method : Bytes
  target : Bytes
  headers : List (Bytes × Bytes)
  body : Bytes
deriving DecidableEq, Repr

/-- A response, with the headers that matter; an empty one is absent. -/
structure Response where
  status : Nat
  contentType : Bytes
  allow : Bytes
  body : Bytes
deriving DecidableEq, Repr

namespace Request

def isQueryMark (b : UInt8) : Bool := b == '?'.toUInt8

/-- What follows the scheme of an address, such as `http:`, if the text starts with one. -/
def afterScheme? (s : Bytes) : Option Bytes :=
  let isLetter (b : UInt8) : Bool := Bytes.isLetter b && b != '_'.toUInt8
  let inScheme (b : UInt8) : Bool := isLetter b || Bytes.isDigit b || (utf8 "+-.").contains b
  match s.dropWhile inScheme with
  | b :: rest => if b == ':'.toUInt8 && s.head?.any isLetter then some rest else none
  | [] => none

/-- What follows the host that a text starts with. -/
def afterHost (s : Bytes) : Bytes := s.dropWhile fun b => b != Path.slash

def isConnect (r : Request) : Bool := r.method == utf8 "CONNECT"

/-- The path that is asked for. In a whole address it follows the host, and there is none without a
slash after the scheme. `CONNECT` may name a host without a scheme. -/
def path (r : Request) : Bytes :=
  let place := r.target.takeWhile fun b => !isQueryMark b
  if r.isConnect && !Path.isRooted r.target then afterHost place
  else match afterScheme? place with
    | none => place
    | some rest =>
      match Bytes.dropStart? (utf8 "//") rest with
      | some address => afterHost address
      | none => if Path.isRooted rest then rest else []

def query (r : Request) : Bytes := (r.target.dropWhile fun b => !isQueryMark b).drop 1

/-- The value of a header, or an empty text. Case does not matter in a header's name. -/
def header (r : Request) (name : String) : Bytes :=
  let wanted := (utf8 name).map Bytes.toLower
  match r.headers.find? fun h => h.1.map Bytes.toLower == wanted with
  | some h => h.2
  | none => []

/-! ## Escapes -/

def hexDigit? (b : UInt8) : Option Nat :=
  let c := Bytes.toLower b
  if Bytes.isDigit c then some (Bytes.digitValue c)
  else if 'a'.toUInt8 ≤ c && c ≤ 'f'.toUInt8 then some (c.toNat - 'a'.toNat + 10)
  else none

/-- Reads escaped bytes, and in a query a plus sign as a blank. -/
def unescape? (inQuery : Bool) : Bytes → Option Bytes
  | [] => some []
  | b :: rest =>
    if b == '%'.toUInt8 then
      match rest with
      | high :: low :: rest =>
        match hexDigit? high, hexDigit? low, unescape? inQuery rest with
        | some h, some l, some s => some (UInt8.ofNat (16 * h + l) :: s)
        | _, _, _ => none
      | _ => none
    else
      (unescape? inQuery rest).map
        ((if inQuery && b == '+'.toUInt8 then ' '.toUInt8 else b) :: ·)

/-- Bytes that stand for themselves in a path. -/
def isPathByte (b : UInt8) : Bool :=
  Bytes.isLetter b || Bytes.isDigit b || (utf8 "-.~$&+,/:;=@").contains b

def escapePath (s : Bytes) : Bytes :=
  s.flatMap fun b =>
    if isPathByte b then [b]
    else '%'.toUInt8 :: (Bytes.hex 2 b.toNat).map Bytes.toUpper

/-- Bytes that may stand in a path as it was sent. -/
def isSentByte (b : UInt8) : Bool := isPathByte b || (utf8 "!'()*[]%").contains b

/-- The path with its escapes as they were sent, if they are all in order. -/
def escapedPath (r : Request) : Bytes :=
  if r.path.all isSentByte then r.path
  else escapePath ((unescape? false r.path).getD r.path)

/-! ## The query -/

/-- A pair of a query, unless its escapes are out of order. -/
def pair? (piece : Bytes) : Option (Bytes × Bytes) :=
  if piece.isEmpty || piece.contains ';'.toUInt8 then none
  else
    let equals (b : UInt8) : Bool := b == '='.toUInt8
    let name := piece.takeWhile fun b => !equals b
    let value := (piece.dropWhile fun b => !equals b).drop 1
    match unescape? true name, unescape? true value with
    | some n, some v => some (n, v)
    | _, _ => none

/-- The first value of a name in the query, or an empty text. -/
def queryValue (r : Request) (name : String) : Bytes :=
  let pairs := (Bytes.splitOn '&'.toUInt8 r.query).filterMap pair?
  match pairs.find? fun p => p.1 == utf8 name with
  | some p => p.2
  | none => []

/-! ## Paths -/

/-- The shortest path with the same meaning; a slash at the end stays. -/
def cleanPath (path : Bytes) : Bytes :=
  let rooted := if Path.isRooted path then path else Path.slash :: path
  let clean := Path.clean rooted
  if Bytes.endsWith [Path.slash] rooted && clean != [Path.slash] then clean ++ [Path.slash]
  else clean

end Request

namespace Response

def plainType : Bytes := utf8 "text/plain; charset=utf-8"

/-- A response that says in one line what went wrong. -/
def failure (status : Nat) (text : String) : Response :=
  { status := status, contentType := plainType, allow := [], body := utf8 (text ++ "\n") }

def escapeHtml (s : Bytes) : Bytes :=
  s.flatMap fun b =>
    match Char.ofUInt8 b with
    | '&' => utf8 "&amp;"
    | '<' => utf8 "&lt;"
    | '>' => utf8 "&gt;"
    | '"' => utf8 "&#34;"
    | '\'' => utf8 "&#39;"
    | _ => [b]

/-- Sends a client to another place. Only an answer to `GET` has a body. -/
def redirect (method place : Bytes) : Response :=
  let isGet := method == utf8 "GET"
  { status := 307
    contentType := if isGet || method == utf8 "HEAD" then utf8 "text/html; charset=utf-8" else []
    allow := []
    body := if isGet then
        utf8 "<a href=\"" ++ escapeHtml place ++ utf8 "\">Temporary Redirect</a>.\n\n"
      else [] }

end Response

end Lox
