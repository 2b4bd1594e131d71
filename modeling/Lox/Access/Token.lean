import Lox.Config.Duration
import Lox.Hash.Sha2
import Lox.Json
import Lox.Text.Base64
/-!
# Access tokens

A token has three parts, joined by dots: a header that names the signing method, the claims, and
a signature over both, which only someone who knows the secret can make. A token must say when
it expires.
-/

namespace Lox.AccessToken

/-! ## Faults -/

/-- The parts of a token that are JSON objects. -/
inductive Part where
  | header
  | claims
deriving DecidableEq, Repr

namespace Part

def label : Part → String
  | header => "header"
  | claims => "claim"

def typeName : Part → String
  | header => "map[string]interface \x7b\x7d"
  | claims => "jwt.MapClaims"

/-- What the path to a value within a part starts with. -/
def root : Part → String
  | header => ""
  | claims => "MapClaims"

end Part

/-- Why a part of a token cannot be read as a JSON object. -/
inductive PartFault where
  | notJson (fault : Json.Fault)
  | notAnObject (found : String)
  /-- A number too large for a double, and the names and positions that lead to it. -/
  | numberTooLarge (path : List Bytes) (text : Bytes)

def PartFault.message (part : Part) : PartFault → Bytes
  | notJson fault => fault.message
  | notAnObject found =>
    utf8 ("json: cannot unmarshal " ++ found ++ " into Go value of type " ++ part.typeName)
  | numberTooLarge path text =>
    let place := Bytes.join (utf8 ".") path
    utf8 "json: cannot unmarshal number " ++ text ++
      (if part.root.isEmpty && place.isEmpty then utf8 " into Go value"
        else utf8 (" into Go struct field " ++ part.root ++ ".") ++ place) ++
      utf8 " of type float64"

/-- What is wrong with the claims of a token. -/
inductive ClaimFault where
  | expired
  | notYetValid
  | missing (name : String)
  | wrongType (name : String)

def ClaimFault.message : ClaimFault → String
  | expired => "token is expired"
  | notYetValid => "token is not valid yet"
  | missing name => "token is missing required claim: " ++ name ++ " claim is required"
  | wrongType name => "invalid type for claim: " ++ name ++ " is invalid"

/-- Why a token is not accepted. -/
inductive Fault where
  | segments
  | encoding (part : String) (offset : Nat)
  | unreadable (part : Part) (fault : PartFault)
  | methodUnspecified
  | methodUnavailable
  | methodUnexpected (name : Bytes)
  | signature
  | claims (faults : List ClaimFault)

def Fault.message : Fault → Bytes
  | segments => utf8 "token is malformed: token contains an invalid number of segments"
  | encoding part offset =>
    utf8 ("token is malformed: could not base64 decode " ++ part ++
      ": illegal base64 data at input byte ") ++ Bytes.ofNat offset
  | unreadable part fault =>
    utf8 ("token is malformed: could not JSON decode " ++ part.label ++ ": ") ++ fault.message part
  | methodUnspecified => utf8 "token is unverifiable: signing method (alg) is unspecified"
  | methodUnavailable => utf8 "token is unverifiable: signing method (alg) is unavailable"
  | methodUnexpected name =>
    utf8 "token is unverifiable: error while executing keyfunc: unexpected signing method: " ++ name
  | signature => utf8 "token signature is invalid: signature is invalid"
  | claims faults =>
    utf8 "token has invalid claims: " ++ Bytes.join (utf8 ", ") (faults.map (utf8 ·.message))

/-! ## Signing methods -/

/-- The methods that sign with a shared secret. -/
inductive Method where
  | hs256 | hs384 | hs512
deriving DecidableEq, Repr

namespace Method

def hash : Method → Sha2.Variant
  | hs256 => Sha2.sha256
  | hs384 => Sha2.sha384
  | hs512 => Sha2.sha512

def ofName? (name : Bytes) : Option Method :=
  if name = utf8 "HS256" then some .hs256
  else if name = utf8 "HS384" then some .hs384
  else if name = utf8 "HS512" then some .hs512
  else none

/-- Methods that are known but need a key pair, or no key at all. -/
def otherNames : List String :=
  ["RS256", "RS384", "RS512", "PS256", "PS384", "PS512", "ES256", "ES384", "ES512", "EdDSA",
    "none"]

def sign (m : Method) (secret text : Bytes) : Bytes := m.hash.hmac secret text

end Method

/-! ## Reading -/

/-- A name as it stands in a path. -/
def pathName (name : Bytes) : Bytes :=
  name.flatMap fun b =>
    if b == '~'.toUInt8 then utf8 "~0" else if b == '/'.toUInt8 then utf8 "~1" else [b]

mutual

/-- The first number that is too large for a double, after the path to it. -/
def hugeNumber? : Json → Option (List Bytes × Bytes)
  | .number text => if (Json.numberValue text).isInf then some ([], text) else none
  | .array items => hugeItem? 0 items
  | .object members => hugeMember? members
  | _ => none

/-- The same among the items of an array from position `i` on. -/
def hugeItem? (i : Nat) : List Json → Option (List Bytes × Bytes)
  | [] => none
  | item :: more =>
    match hugeNumber? item with
    | some (path, text) => some (Bytes.ofNat i :: path, text)
    | none => hugeItem? (i + 1) more

/-- The same among the members of an object. -/
def hugeMember? : List (Bytes × Json) → Option (List Bytes × Bytes)
  | [] => none
  | (name, value) :: more =>
    match hugeNumber? value with
    | some (path, text) => some (pathName name :: path, text)
    | none => hugeMember? more

end

abbrev Members := List (Bytes × Json)

/-- The members of a JSON object; `null` counts as an object without any. -/
def readObject (text : Bytes) : Except PartFault Members :=
  match Json.read text with
  | .error fault => .error (.notJson fault)
  | .ok (.object members) =>
    match hugeMember? members with
    | some (path, number) => .error (.numberTooLarge path number)
    | none => .ok members
  | .ok .null => .ok []
  | .ok (.array _) => .error (.notAnObject "array")
  | .ok (.string _) => .error (.notAnObject "string")
  | .ok (.number _) => .error (.notAnObject "number")
  | .ok (.bool _) => .error (.notAnObject "bool")

def decodePart (part : String) (text : Bytes) : Except Fault Bytes :=
  match Base64.decode Base64.url text with
  | .ok bytes => .ok bytes
  | .error offset => .error (.encoding part offset)

def readPart (part : Part) (text : Bytes) : Except Fault Members := do
  match readObject (← decodePart part.label text) with
  | .ok members => return members
  | .error fault => .error (.unreadable part fault)

/-- The signing method that a header names. -/
def methodOf (header : Members) : Except Fault (Bytes × Option Method) :=
  match Json.member? (utf8 "alg") header with
  | some (.string name) =>
    match Method.ofName? name with
    | some m => .ok (name, some m)
    | none =>
      if Method.otherNames.any (utf8 · == name) then .ok (name, none)
      else .error .methodUnavailable
  | _ => .error .methodUnspecified

/-- Whole seconds of a time; times that are out of all proportion count as long past. -/
def wholeSeconds (x : Float) : Int :=
  match Decimal.parts x with
  | .finite negative b =>
    let whole := b.mantissa * Nat.pow 2 b.exponent.toNat / Nat.pow 2 (-b.exponent).toNat
    let exact := b.mantissa * Nat.pow 2 b.exponent.toNat == whole * Nat.pow 2 (-b.exponent).toNat
    if Nat.pow 2 63 ≤ whole then -(Nat.pow 2 63 : Int)
    else if negative then (if exact then -(whole : Int) else -(whole : Int) - 1)
    else whole
  | _ => 0

/-- Seconds from the start of the year 1 to the start of 1970. -/
def epoch : Int := 62135596800

/-- A time as it is compared. Its seconds are counted from the year 1 in 64 bits, so that a time
too far ahead wraps around to one long past. -/
def wrapped (seconds : Int) : Int := (seconds + epoch).bmod (Nat.pow 2 64) - epoch

/-- A claim that is a time. Zero counts as absent. -/
def timeClaim (claims : Members) (name : String) : Except ClaimFault (Option Int) :=
  match Json.member? (utf8 name) claims with
  | none => .ok none
  | some (.number text) =>
    let x := Json.numberValue text
    if x == 0 then .ok none else .ok (some (wrapped (wholeSeconds x)))
  | some _ => .error (.wrongType name)

def expiryFaults (claims : Members) (now : Int) : List ClaimFault :=
  match timeClaim claims "exp" with
  | .error fault => [fault]
  | .ok none => [.missing "exp"]
  | .ok (some exp) => if now < exp then [] else [.expired]

def startFaults (claims : Members) (now : Int) : List ClaimFault :=
  match timeClaim claims "nbf" with
  | .error fault => [fault]
  | .ok none => []
  | .ok (some nbf) => if now < nbf then [.notYetValid] else []

/-- The claims of a token, if it is well-formed, signed with the secret and valid at the time
`now`, in seconds. -/
def verify (token secret : Bytes) (now : Int) : Except Fault Members :=
  match Bytes.splitOn '.'.toUInt8 token with
  | [headerText, claimsText, signatureText] => do
    let header ← readPart .header headerText
    let claims ← readPart .claims claimsText
    let (name, method) ← methodOf header
    let signature ← decodePart "signature" signatureText
    match method with
    | none => .error (.methodUnexpected name)
    | some m =>
      if m.sign secret (headerText ++ '.'.toUInt8 :: claimsText) != signature then
        .error .signature
      else match expiryFaults claims now ++ startFaults claims now with
        | [] => .ok claims
        | faults => .error (.claims faults)
  | _ => .error .segments

/-! ## Signing -/

/-- The secret must not be empty. -/
inductive SignError where
  | emptySecret

def SignError.message : SignError → String
  | emptySecret => "empty signing secret"

def header : Json := .object [(utf8 "alg", .string (utf8 "HS256")), (utf8 "typ", .string (utf8 "JWT"))]

/-- A token for a subject, made at the time `now` in seconds, that expires after `lifetime`. -/
def sign (subject secret : Bytes) (lifetime : Duration) (now : Int) : Except SignError Bytes :=
  if secret.isEmpty then .error .emptySecret
  else
    let expiry := now + lifetime.fdiv Duration.second
    let claims : Json := .object [(utf8 "exp", .number (Bytes.ofInt expiry)),
      (utf8 "iat", .number (Bytes.ofInt now)), (utf8 "sub", .string subject)]
    let text := Base64.encode Base64.url header.toBytes ++
      '.'.toUInt8 :: Base64.encode Base64.url claims.toBytes
    .ok (text ++ '.'.toUInt8 :: Base64.encode Base64.url (Method.hs256.sign secret text))

end Lox.AccessToken
