import Lox.Bindings
import Lox.Parse.Fault
import Lox.Tree
/-!
# Resolving references

A pass over a program finds, for every reference to a local variable, to `this` and to `super`,
how many scopes lie between it and the scope that declares it. References that no scope
declares stay open and mean global variables. On the way it reports what is grammatical but
makes no sense: a `return` outside a function, `this` outside a class, and the like.
-/

namespace Lox

/-- The function around a statement. -/
inductive FunctionContext where
  | none | function | initializer | method
deriving DecidableEq, Repr

/-- The class around a statement. -/
inductive ClassContext where
  | none | plain | subclass
deriving DecidableEq, Repr

inductive StaticFault where
  | topLevelReturn
  | initializerReturn
  | thisOutsideClass
  | superOutsideClass
  | superWithoutSuperclass
  | ownInitializer
  | selfInheritance
deriving DecidableEq, Repr

def StaticFault.message : StaticFault → String
  | topLevelReturn => "Can't return from top-level code."
  | initializerReturn => "Can't return a value from an initializer."
  | thisOutsideClass => "Can't use 'this' outside of a class."
  | superOutsideClass => "Can't use 'super' outside of a class."
  | superWithoutSuperclass => "Can't use 'super' in a class with no superclass."
  | ownInitializer => "Can't read local variable in its own initializer."
  | selfInheritance => "A class can't inherit from itself."

structure StaticError where
  token : Token
  fault : StaticFault
deriving DecidableEq

def StaticError.toBytes (e : StaticError) : Bytes := (Site.token e.token).format e.fault.message

/-- The names that a scope declares, each with whether its initializer has finished. -/
abbrev Scope := Bindings Bool

/-- The open scopes, innermost first, and the errors so far, newest first. -/
structure Resolver where
  scopes : List Scope
  errors : List StaticError

namespace Resolver

abbrev Resolve (α : Type) := StateM Resolver α

def report (token : Token) (fault : StaticFault) : Resolve Unit :=
  modify fun r => { r with errors := ⟨token, fault⟩ :: r.errors }

def openScope (scope : Scope) : Resolve Unit :=
  modify fun r => { r with scopes := scope :: r.scopes }

def closeScope : Resolve Unit := modify fun r => { r with scopes := r.scopes.tail }

/-- Sets a name of the innermost scope; at the top level there is none. -/
def mark (name : Token) (ready : Bool) : Resolve Unit :=
  modify fun r =>
    match r.scopes with
    | [] => r
    | scope :: outer => { r with scopes := scope.insert name.lexeme ready :: outer }

def declare (name : Token) : Resolve Unit := mark name false

def define (name : Token) : Resolve Unit := mark name true

/-- How many scopes out a name is declared. -/
def hopsTo (scopes : List Scope) (name : Bytes) : Option Nat :=
  scopes.findIdx? (Bindings.has name)

/-- Pins a reference to the scope that declares it. -/
def pin (ref : Ref) (name : Bytes) : Resolve Ref := do
  let r ← get
  return match hopsTo r.scopes name with
    | some d => { ref with hops := some d }
    | none => ref

/-- Whether the innermost scope has declared the name but not finished its initializer. -/
def inOwnInitializer (scopes : List Scope) (name : Bytes) : Bool :=
  match scopes with
  | [] => false
  | scope :: _ => scope.get? name == some false

/-- Pins a variable that is read. -/
def variableRef (ref : Ref) : Resolve Ref := do
  if inOwnInitializer (← get).scopes ref.name.lexeme then report ref.name .ownInitializer
  pin ref ref.name.lexeme

mutual

def expression (cls : ClassContext) : Expr → Resolve Expr
  | .literal token value => return .literal token value
  | .grouping paren inner => return .grouping paren (← expression cls inner)
  | .unary op token operand => return .unary op token (← expression cls operand)
  | .binary op token left right => do
    let left ← expression cls left
    let right ← expression cls right
    return .binary op token left right
  | .logical op token left right => do
    let left ← expression cls left
    let right ← expression cls right
    return .logical op token left right
  | .var ref => return .var (← variableRef ref)
  | .assign ref value => do
    let value ← expression cls value
    return .assign (← pin ref ref.name.lexeme) value
  | .call paren callee args => do
    let callee ← expression cls callee
    let args ← expressions cls args
    return .call paren callee args
  | .get object name => return .get (← expression cls object) name
  | .set object name value => do
    let value ← expression cls value
    let object ← expression cls object
    return .set object name value
  | .this ref => do
    if cls = .none then do
      report ref.name .thisOutsideClass
      return .this ref
    else return .this (← pin ref (utf8 "this"))
  | .super ref method => do
    match cls with
    | .none => report ref.name .superOutsideClass
    | .plain => report ref.name .superWithoutSuperclass
    | .subclass => pure ()
    return .super (← pin ref (utf8 "super")) method

def expressions (cls : ClassContext) : List Expr → Resolve (List Expr)
  | [] => return []
  | e :: rest => do
    let e ← expression cls e
    let rest ← expressions cls rest
    return e :: rest

end

/-- Declares the parameters of a function. -/
def parameters : List Token → Resolve Unit
  | [] => return ()
  | p :: rest => do
    declare p
    define p
    parameters rest

/-- The context that a method's body stands in. -/
def methodContext (name : Token) : FunctionContext :=
  if name.lexeme = utf8 "init" then .initializer else .method

mutual

def statement (fn : FunctionContext) (cls : ClassContext) : Stmt → Resolve Stmt
  | .expr first value => return .expr first (← expression cls value)
  | .print keyword value => return .print keyword (← expression cls value)
  | .varDecl keyword name none => do
    declare name
    define name
    return .varDecl keyword name none
  | .varDecl keyword name (some init) => do
    declare name
    let init ← expression cls init
    define name
    return .varDecl keyword name (some init)
  | .block brace body => do
    openScope []
    let body ← statements fn cls body
    closeScope
    return .block brace body
  | .ifElse keyword cond yes none => do
    let cond ← expression cls cond
    let yes ← statement fn cls yes
    return .ifElse keyword cond yes none
  | .ifElse keyword cond yes (some no) => do
    let cond ← expression cls cond
    let yes ← statement fn cls yes
    let no ← statement fn cls no
    return .ifElse keyword cond yes (some no)
  | .loop keyword cond body => do
    let cond ← expression cls cond
    let body ← statement fn cls body
    return .loop keyword cond body
  | .funDecl (.mk name params body) => do
    declare name
    define name
    return .funDecl (← function .function cls (.mk name params body))
  | .ret keyword none => do
    if fn = .none then report keyword .topLevelReturn
    return .ret keyword none
  | .ret keyword (some value) => do
    if fn = .none then report keyword .topLevelReturn
    if fn = .initializer then report keyword .initializerReturn
    return .ret keyword (some (← expression cls value))
  | .classDecl keyword name none ms => do
    declare name
    define name
    openScope [(utf8 "this", true)]
    let ms ← methods .plain ms
    closeScope
    return .classDecl keyword name none ms
  | .classDecl keyword name (some ref) ms => do
    declare name
    define name
    if ref.name.lexeme = name.lexeme then report ref.name .selfInheritance
    let ref ← variableRef ref
    openScope [(utf8 "super", true)]
    openScope [(utf8 "this", true)]
    let ms ← methods .subclass ms
    closeScope
    closeScope
    return .classDecl keyword name (some ref) ms

def statements (fn : FunctionContext) (cls : ClassContext) : List Stmt → Resolve (List Stmt)
  | [] => return []
  | s :: rest => do
    let s ← statement fn cls s
    let rest ← statements fn cls rest
    return s :: rest

/-- Parameters and body share one scope. -/
def function (fn : FunctionContext) (cls : ClassContext) : FunDecl → Resolve FunDecl
  | .mk name params body => do
    openScope []
    parameters params
    let body ← statements fn cls body
    closeScope
    return .mk name params body

def methods (cls : ClassContext) : List FunDecl → Resolve (List FunDecl)
  | [] => return []
  | .mk name params body :: rest => do
    let method ← function (methodContext name) cls (.mk name params body)
    let rest ← methods cls rest
    return method :: rest

end

end Resolver

/-- A program with its references pinned, and the errors found, in visiting order. -/
structure Resolution where
  statements : List Stmt
  errors : List StaticError

def Resolution.ofStatements (program : List Stmt) : Resolution :=
  let (statements, r) := Resolver.statements .none .none program ⟨[], []⟩
  ⟨statements, r.errors.reverse⟩

end Lox
