import Lox.Token
/-!
# Runtime errors

What can go wrong while a program runs, and the token that it is blamed on.
-/

namespace Lox

/-- Classes of runtime error. -/
inductive ErrorKind where
  | undefinedVariable | typeError | notCallable | arityMismatch | notAnInstance
  | undefinedProperty | invalidSuperclass | stackOverflow
deriving DecidableEq, Repr

namespace ErrorKind

def label : ErrorKind → String
  | undefinedVariable => "UndefinedVariable"
  | typeError => "TypeError"
  | notCallable => "NotCallable"
  | arityMismatch => "ArityMismatch"
  | notAnInstance => "NotAnInstance"
  | undefinedProperty => "UndefinedProperty"
  | invalidSuperclass => "InvalidSuperclass"
  | stackOverflow => "StackOverflow"

/-- The kinds in the order of their numbers, which start at one. -/
def all : List ErrorKind :=
  [undefinedVariable, typeError, notCallable, arityMismatch, notAnInstance, undefinedProperty,
    invalidSuperclass, stackOverflow]

/-- The name of the kind with a number. -/
def labelOfNumber : Nat → String
  | 0 => "Unknown"
  | n + 1 => ((all[n]?).map label).getD "Unknown"

end ErrorKind

inductive RuntimeFault where
  | undefinedVariable (name : Bytes)
  | operandNotNumber
  | operandsNotNumbers
  | operandsNotAddable
  | notCallable
  | arity (expected got : Nat)
  | noProperties
  | noFields
  | undefinedProperty (name : Bytes)
  | superclassNotClass
  | stackOverflow
deriving DecidableEq

namespace RuntimeFault

def kind : RuntimeFault → ErrorKind
  | undefinedVariable _ => .undefinedVariable
  | operandNotNumber | operandsNotNumbers | operandsNotAddable => .typeError
  | notCallable => .notCallable
  | arity _ _ => .arityMismatch
  | noProperties | noFields => .notAnInstance
  | undefinedProperty _ => .undefinedProperty
  | superclassNotClass => .invalidSuperclass
  | stackOverflow => .stackOverflow

def message : RuntimeFault → Bytes
  | undefinedVariable name => utf8 "Undefined variable '" ++ name ++ utf8 "'."
  | operandNotNumber => utf8 "Operand must be a number."
  | operandsNotNumbers => utf8 "Operands must be numbers."
  | operandsNotAddable => utf8 "Operands must be two numbers or two strings."
  | notCallable => utf8 "Can only call functions and classes."
  | arity expected got =>
    utf8 "Expected " ++ Bytes.ofNat expected ++ utf8 " arguments but got " ++
      Bytes.ofNat got ++ utf8 "."
  | noProperties => utf8 "Only instances have properties."
  | noFields => utf8 "Only instances have fields."
  | undefinedProperty name => utf8 "Undefined property '" ++ name ++ utf8 "'."
  | superclassNotClass => utf8 "Superclass must be a class."
  | stackOverflow => utf8 "Stack overflow."

end RuntimeFault

structure RuntimeError where
  token : Token
  fault : RuntimeFault
deriving DecidableEq

namespace RuntimeError

def line (e : RuntimeError) : Nat := e.token.line

def message (e : RuntimeError) : Bytes := e.fault.message

/-- A name that no frame binds. -/
def undefinedVariable (name : Token) : RuntimeError := ⟨name, .undefinedVariable name.lexeme⟩

end RuntimeError

end Lox
