import Lox.Hash.Blowfish
import Lox.Text.Base64
/-!
# Password hashes

A password is kept as a hash of the form `$2a$10$` followed by a salt of 22 letters and a digest
of 31. The number between the dollar signs is the cost: hashing works the password and the salt
into a cipher `2 ^ cost` times and then encrypts a fixed text.
-/

namespace Lox.Password

def alphabet : Base64.Alphabet :=
  ⟨utf8 "./ABCDEFGHIJKLMNOPQRSTUVWXYZabcdefghijklmnopqrstuvwxyz0123456789"⟩

/-- The text that the cipher encrypts. -/
def magic : Bytes := utf8 "OrpheanBeholderScryDoubt"

def saltLetters : Nat := 22

def digestLetters : Nat := 31

def minCost : Nat := 4

def maxCost : Nat := 31

def defaultCost : Nat := 10

/-- The longest password that can be hashed. -/
def maxLength : Nat := 72

def wordBytes (w : UInt32) : Bytes :=
  [(w >>> 24).toUInt8, (w >>> 16).toUInt8, (w >>> 8).toUInt8, w.toUInt8]

/-- The digest of a password. The byte zero marks the end of the password. -/
def digest (password salt : Bytes) (cost : Nat) : Bytes :=
  let keyWords := Blowfish.cyclicWords (password ++ [0]).toArray 18
  let saltArray := salt.toArray
  let table := Blowfish.expand keyWords
    (Blowfish.cyclicWords saltArray Blowfish.tableSize) Blowfish.piTable
  let table :=
    Blowfish.expandTimes keyWords (Blowfish.cyclicWords saltArray 18) (Nat.pow 2 cost) table
  let words := Blowfish.cyclicWords magic.toArray 6
  let block (i : Nat) : Bytes :=
    let (l, r) := Blowfish.encryptTimes table 64 (words.getD (2 * i) 0, words.getD (2 * i + 1) 0)
    wordBytes l ++ wordBytes r
  Base64.encode alphabet ((block 0 ++ block 1 ++ block 2).take 23)

/-- A stored hash, taken apart. -/
structure Stored where
  cost : Nat
  salt : Bytes
  digest : Bytes

/-- Reads two bytes as a cost: two digits, or a plus sign and a digit. -/
def readCost : Bytes → Option Nat
  | [a, b] =>
    if Bytes.isDigit b && (Bytes.isDigit a || a == '+'.toUInt8) then
      some (Bytes.readNat (if Bytes.isDigit a then [a, b] else [b]))
    else none
  | _ => none

/-- Takes a stored hash apart. The letter after the version number may be any, or missing. -/
def Stored.ofBytes? (hash : Bytes) : Option Stored :=
  match hash with
  | dollar :: version :: minor :: rest =>
    if hash.length < 59 || dollar != '$'.toUInt8 || '2'.toUInt8 < version then none
    else
      let rest := if minor == '$'.toUInt8 then rest else rest.drop 1
      match readCost (rest.take 2) with
      | none => none
      | some cost =>
        if cost < minCost || maxCost < cost then none
        else
          let rest := rest.drop 3
          some ⟨cost, rest.take saltLetters, (rest.drop saltLetters).take digestLetters⟩
  | _ => none

/-- Whether a password is the one that was hashed. -/
def verify (hash password : Bytes) : Bool :=
  match Stored.ofBytes? hash with
  | none => false
  | some stored =>
    match Base64.decodePadded? alphabet (stored.salt ++ utf8 "==") with
    | some salt => digest password salt stored.cost == stored.digest
    | none => false

/-- A password that is too long to be hashed. -/
inductive HashError where
  | tooLong

def HashError.message : HashError → String
  | tooLong => "bcrypt: password length exceeds 72 bytes"

/-- The hash of a password with a salt of sixteen bytes. -/
def hash (password salt : Bytes) : Except HashError Bytes :=
  if maxLength < password.length then .error .tooLong
  else .ok (utf8 "$2a$10$" ++ Base64.encode alphabet salt ++ digest password salt defaultCost)

end Lox.Password
