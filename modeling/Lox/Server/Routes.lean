import Lox.Access.Password
import Lox.Access.Token
import Lox.Config.Settings
import Lox.Server.Handshake
/-!
# The server

A client trades the password for an access token at `/token` and then opens `/repl`.
-/

namespace Lox.Server

/-- The answer to a request: a response, or a connection. -/
inductive Answer where
  | response (r : Response)
  | connection

/-! ## Routes -/

inductive Route where
  | health
  | token
  | repl
deriving DecidableEq, Repr

def Route.methods : Route → List String
  | health => ["GET", "HEAD"]
  | token => ["POST"]
  | repl => ["GET", "HEAD"]

/-- The route of a path. A segment is compared without its escapes. -/
def route? (path : Bytes) : Option Route :=
  match Bytes.splitOn '/'.toUInt8 path with
  | [[], segment] =>
    let name := (Request.unescape? false segment).getD segment
    if name == utf8 "healthz" then some .health
    else if name == utf8 "token" then some .token
    else if name == utf8 "repl" then some .repl
    else none
  | _ => none

/-! ## Tokens -/

/-- How much of a body is read. -/
def maxBody : Nat := 4096

/-- A name with case put aside; the long s counts as an s. -/
def foldName (name : Bytes) : List Char :=
  (Utf8.units name).map fun
    | .char c => if c == 'ſ' then 's' else c.toLower
    | .stray _ => '\x00'

/-- The password of a token request; an absent one is empty, and the last one counts. -/
def passwordOf (members : List (Bytes × Json)) : Option Bytes :=
  members.foldl (fun found (name, value) =>
    if foldName name == "password".toList then
      match found, value with
      | some _, .string s => some s
      | some old, .null => some old
      | _, _ => none
    else found) (some [])

/-- Reads a token request. What follows the first value does not matter. -/
def readPassword (body : Bytes) : Option Bytes :=
  match Json.readStart (body.take maxBody) with
  | .ok (.object members, _) => passwordOf members
  | .ok (.null, _) => some []
  | _ => none

def issueToken (settings : ServerSettings) (now : Int) (r : Request) : Response :=
  match readPassword r.body with
  | none => .failure 400 "invalid JSON body"
  | some password =>
    if !Password.verify settings.passwordHash password then .failure 401 "invalid credentials"
    else match AccessToken.sign (utf8 "lox") settings.secret settings.tokenLifetime now with
      | .error _ => .failure 500 "could not issue token"
      | .ok token =>
        { status := 200
          contentType := utf8 "application/json"
          allow := []
          body := (Json.object [(utf8 "token", .string token)]).toBytes ++ [Bytes.newline] }

/-- The token that a request carries: in its authorization, or else in its query. -/
def bearerToken (r : Request) : Bytes :=
  match Bytes.dropStart? (utf8 "Bearer ") (r.header "Authorization") with
  | some token => token.trimSpace
  | none => r.queryValue "token"

/-! ## Answers -/

def health : Response :=
  { status := 200, contentType := utf8 "text/plain", allow := [], body := utf8 "ok" }

/-- Opens a connection for a client with a good token. `canConnect` tells whether the transport
can become a connection at all. -/
def openRepl (settings : ServerSettings) (now : Int) (canConnect : Bool) (r : Request) : Answer :=
  match AccessToken.verify (bearerToken r) settings.secret now with
  | .error _ => .response (.failure 401 "unauthorized")
  | .ok _ =>
    match Handshake.refusal? r with
    | some refusal => .response refusal
    | none =>
      if canConnect then .connection else .response (.failure 500 "Internal Server Error")

def methodNotAllowed (route : Route) : Response :=
  { Response.failure 405 "Method Not Allowed" with
    allow := utf8 (", ".intercalate route.methods) }

/-- The answer to a request. A path that can be shortened is answered with the shorter one. -/
def answer (settings : ServerSettings) (now : Int) (canConnect : Bool) (r : Request) : Answer :=
  let path := r.escapedPath
  let clean := Request.cleanPath path
  if r.target == utf8 "*" then .response ⟨400, [], [], []⟩
  else if !r.isConnect && clean != path then
    let query := if r.query.isEmpty then [] else '?'.toUInt8 :: r.query
    .response (.redirect r.method (clean ++ query))
  else match route? path with
    | none => .response (.failure 404 "404 page not found")
    | some route =>
      if !route.methods.any (fun m => utf8 m == r.method) then .response (methodNotAllowed route)
      else match route with
        | .health => .response health
        | .token => .response (issueToken settings now r)
        | .repl => openRepl settings now canConnect r

end Lox.Server
