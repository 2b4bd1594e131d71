import Lox.Bindings
import Lox.Tree
/-!
# Values

The values of the language. Functions, classes and instances have an identity, a number that
tells them apart; everything that can change about them lives in the store of the machine.
-/

namespace Lox

/-- The number of a frame. -/
abbrev FrameId := Nat

/-- A scope chain: the frames it can see, innermost first. -/
abbrev Chain := List FrameId

/-- A function or method body with the scope chain it was declared in. -/
structure Closure where
  decl : FunDecl
  chain : Chain
  isInit : Bool

structure Function where
  id : Nat
  closure : Closure

/-- What a class declares itself. -/
structure ClassEntry where
  id : Nat
  name : Bytes
  methods : Bindings Closure

/-- A class and the classes it inherits from, nearest first. -/
structure Class where
  entry : ClassEntry
  ancestors : List ClassEntry

/-- An object of a class; `id` is where its fields are kept. -/
structure Instance where
  id : Nat
  cls : Class

/-- The functions that need no declaration. -/
inductive Builtin where
  | clock
deriving DecidableEq, Repr

inductive Value where
  | nil
  | bool (b : Bool)
  | number (x : Float)
  | string (s : Bytes)
  | function (f : Function)
  | builtin (b : Builtin)
  | cls (c : Class)
  | obj (o : Instance)

instance : Inhabited Value := ⟨.nil⟩

/-- The kinds of value. -/
inductive ValueKind where
  | nil | boolean | number | string | function | builtin | cls | obj
deriving DecidableEq, Repr

namespace ValueKind

def label : ValueKind → String
  | nil => "NIL"
  | boolean => "BOOLEAN"
  | number => "NUMBER"
  | string => "STRING"
  | function => "FUNCTION"
  | builtin => "BUILTIN"
  | cls => "CLASS"
  | obj => "INSTANCE"

/-- The kinds in the order of their numbers, which start at one. -/
def all : List ValueKind := [nil, boolean, number, string, function, builtin, cls, obj]

/-- The name of the kind with a number. -/
def labelOfNumber : Nat → String
  | 0 => "INVALID"
  | n + 1 => ((all[n]?).map label).getD "INVALID"

end ValueKind

namespace Closure

def arity (c : Closure) : Nat := c.decl.params.length

def name (c : Closure) : Bytes := c.decl.name.lexeme

end Closure

namespace Class

/-- The class itself, then its ancestors. -/
def lineage (c : Class) : List ClassEntry := c.entry :: c.ancestors

/-- The nearest method of a name in the lineage. -/
def findMethod (c : Class) (name : Bytes) : Option Closure :=
  c.lineage.findSome? fun e => e.methods.get? name

def initializer? (c : Class) : Option Closure := c.findMethod (utf8 "init")

/-- A class is called with the arguments of its initializer. -/
def arity (c : Class) : Nat :=
  match c.initializer? with
  | some init => init.arity
  | none => 0

end Class

namespace Value

def kind : Value → ValueKind
  | nil => .nil
  | bool _ => .boolean
  | number _ => .number
  | string _ => .string
  | function _ => .function
  | builtin _ => .builtin
  | cls _ => .cls
  | obj _ => .obj

/-- Numbers are printed in full, whole ones without a fraction. -/
def numberLayout : Decimal.Layout := ⟨none, "inf", "-inf", "nan"⟩

/-- The text that `print` writes for a value. -/
def inspect : Value → Bytes
  | nil => utf8 "nil"
  | bool b => utf8 (if b then "true" else "false")
  | number x => numberLayout.write x
  | string s => s
  | function f => utf8 "<fn " ++ f.closure.name ++ utf8 ">"
  | builtin _ => utf8 "<native fn>"
  | cls c => c.entry.name
  | obj o => o.cls.entry.name ++ utf8 " instance"

def ofLiteral : Literal → Value
  | .nil => .nil
  | .bool b => .bool b
  | .number x => .number x
  | .string s => .string s

/-- Only `nil` and `false` count as false. -/
def isTruthy : Value → Bool
  | nil => false
  | bool b => b
  | _ => true

/-- Plain values are equal by content, all others by identity. -/
def isEqual : Value → Value → Bool
  | nil, nil => true
  | bool a, bool b => a == b
  | number x, number y => x == y
  | string s, string t => s == t
  | function f, function g => f.id == g.id
  | builtin a, builtin b => a == b
  | cls c, cls d => c.entry.id == d.entry.id
  | obj o, obj p => o.id == p.id
  | _, _ => false

end Value

end Lox
