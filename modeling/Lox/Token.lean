import Lox.Decimal.Layout
import Lox.Text.Quoted
/-!
# Tokens

A token is a kind, the bytes it was written with and the line it ends on. The end of the input
is not a token: it is where the tokens stop.
-/

namespace Lox

/-- The kinds of token. -/
inductive Kind where
  | ident | number | string
  | assign | plus | minus | bang | star | slash
  | less | greater | equal | notEqual | lessEqual | greaterEqual
  | comma | semicolon | leftParen | rightParen | leftBrace | rightBrace | dot
  | kwAnd | kwClass | kwElse | kwFalse | kwFor | kwFun | kwIf | kwNil | kwOr | kwPrint
  | kwReturn | kwSuper | kwThis | kwTrue | kwVar | kwWhile
deriving DecidableEq, Repr, Inhabited

namespace Kind

/-- The reserved words. -/
def keywords : List (String × Kind) :=
  [("and", .kwAnd), ("class", .kwClass), ("else", .kwElse), ("false", .kwFalse),
    ("for", .kwFor), ("fun", .kwFun), ("if", .kwIf), ("nil", .kwNil), ("or", .kwOr),
    ("print", .kwPrint), ("return", .kwReturn), ("super", .kwSuper), ("this", .kwThis),
    ("true", .kwTrue), ("var", .kwVar), ("while", .kwWhile)]

/-- The kind of a word: reserved words have their own, all others are identifiers. -/
def ofWord (word : Bytes) : Kind :=
  match keywords.find? fun (text, _) => utf8 text == word with
  | some (_, kind) => kind
  | none => .ident

/-- The name under which a kind is listed. -/
def label : Kind → String
  | .ident => "IDENT"
  | .number => "NUMBER"
  | .string => "STRING"
  | .assign => "="
  | .plus => "+"
  | .minus => "-"
  | .bang => "!"
  | .star => "*"
  | .slash => "/"
  | .less => "<"
  | .greater => ">"
  | .equal => "=="
  | .notEqual => "!="
  | .lessEqual => "<="
  | .greaterEqual => ">="
  | .comma => ","
  | .semicolon => ";"
  | .leftParen => "("
  | .rightParen => ")"
  | .leftBrace => "\x7b"
  | .rightBrace => "\x7d"
  | .dot => "."
  | .kwAnd => "AND"
  | .kwClass => "CLASS"
  | .kwElse => "ELSE"
  | .kwFalse => "FALSE"
  | .kwFor => "FOR"
  | .kwFun => "FUN"
  | .kwIf => "IF"
  | .kwNil => "NIL"
  | .kwOr => "OR"
  | .kwPrint => "PRINT"
  | .kwReturn => "RETURN"
  | .kwSuper => "SUPER"
  | .kwThis => "THIS"
  | .kwTrue => "TRUE"
  | .kwVar => "VAR"
  | .kwWhile => "WHILE"

end Kind

/-- A constant written in the source. -/
inductive Literal where
  | nil
  | bool (b : Bool)
  | number (x : Float)
  | string (s : Bytes)
deriving DecidableEq, Inhabited

structure Token where
  kind : Kind
  lexeme : Bytes
  line : Nat
deriving DecidableEq, Inhabited

namespace Token

/-- The double nearest to the decimal that a number lexeme writes. -/
def numberValue (lexeme : Bytes) : Float :=
  let point := '.'.toUInt8
  Decimal.read (lexeme.takeWhile (· != point)) ((lexeme.dropWhile (· != point)).drop 1)

/-- What stands between the quotes of a string lexeme. -/
def stringValue (lexeme : Bytes) : Bytes := lexeme.tail.dropLast

/-- The constant that a number or string token writes. -/
def literal? (t : Token) : Option Literal :=
  match t.kind with
  | .number => some (.number (numberValue t.lexeme))
  | .string => some (.string (stringValue t.lexeme))
  | _ => none

/-- Numbers in token listings: an exponent below `0.0001` and from `1e+06` on. -/
def numberLayout : Decimal.Layout := ⟨some (-4, 6), "+Inf", "-Inf", "NaN"⟩

def showLiteral : Literal → Bytes
  | .nil => utf8 "nil"
  | .bool b => utf8 (if b then "true" else "false")
  | .number x => numberLayout.write x
  | .string s => s

/-- One line of a token listing. -/
def listing (label : String) (lexeme : Bytes) (literal : Option Literal) (line : Nat) : Bytes :=
  utf8 "Token(" ++ utf8 label ++ utf8 ", " ++ Quoted.encode lexeme ++
    (match literal with
      | some v => utf8 ", " ++ showLiteral v
      | none => []) ++
    utf8 ", line " ++ Bytes.ofNat line ++ utf8 ")"

def toBytes (t : Token) : Bytes := listing t.kind.label t.lexeme t.literal? t.line

end Token

/-- The listing of the end of the input. -/
def endListing (line : Nat) : Bytes := Token.listing "EOF" [] none line

end Lox
