import Lox.Token
/-!
# Trees

Expressions, statements and function declarations. A reference to a variable carries the number
of scopes between it and the scope that declares the variable, once that is known; a reference
without that number means a global variable.
-/

namespace Lox

inductive UnaryOp where
  | neg | not
deriving DecidableEq, Repr, Inhabited

inductive BinaryOp where
  | add | sub | mul | div | eq | ne | lt | le | gt | ge
deriving DecidableEq, Repr, Inhabited

inductive LogicalOp where
  | and | or
deriving DecidableEq, Repr, Inhabited

/-- A name used in the source, and how many scopes out it was declared. -/
structure Ref where
  name : Token
  hops : Option Nat
deriving DecidableEq, Inhabited

inductive Expr where
  | literal (token : Token) (value : Literal)
  | grouping (paren : Token) (inner : Expr)
  | unary (op : UnaryOp) (token : Token) (operand : Expr)
  | binary (op : BinaryOp) (token : Token) (left right : Expr)
  | logical (op : LogicalOp) (token : Token) (left right : Expr)
  | var (ref : Ref)
  | assign (ref : Ref) (value : Expr)
  /-- `paren` is the closing parenthesis. -/
  | call (paren : Token) (callee : Expr) (args : List Expr)
  | get (object : Expr) (name : Token)
  | set (object : Expr) (name : Token) (value : Expr)
  | this (ref : Ref)
  /-- `ref` is the keyword. -/
  | super (ref : Ref) (method : Token)
deriving Inhabited

mutual

inductive Stmt where
  /-- `first` is the first token of the expression. -/
  | expr (first : Token) (value : Expr)
  | print (keyword : Token) (value : Expr)
  | varDecl (keyword name : Token) (init : Option Expr)
  /-- `brace` is the closing brace. -/
  | block (brace : Token) (body : List Stmt)
  | ifElse (keyword : Token) (cond : Expr) (yes : Stmt) (no : Option Stmt)
  | loop (keyword : Token) (cond : Expr) (body : Stmt)
  | funDecl (decl : FunDecl)
  | ret (keyword : Token) (value : Option Expr)
  | classDecl (keyword name : Token) (superclass : Option Ref) (methods : List FunDecl)

inductive FunDecl where
  | mk (name : Token) (params : List Token) (body : List Stmt)

end

instance : Inhabited Stmt := ⟨.expr default default⟩

instance : Inhabited FunDecl := ⟨.mk default [] []⟩

namespace FunDecl

def name : FunDecl → Token
  | mk name _ _ => name

def params : FunDecl → List Token
  | mk _ params _ => params

def body : FunDecl → List Stmt
  | mk _ _ body => body

end FunDecl

/-- The token that an expression is known by. -/
def Expr.token : Expr → Token
  | literal token _ => token
  | grouping paren _ => paren
  | unary _ token _ => token
  | binary _ token _ _ => token
  | logical _ token _ _ => token
  | var ref => ref.name
  | assign ref _ => ref.name
  | call paren _ _ => paren
  | get _ name => name
  | set _ name _ => name
  | this ref => ref.name
  | super ref _ => ref.name

/-- The token that a statement is known by. -/
def Stmt.token : Stmt → Token
  | expr first _ => first
  | print keyword _ => keyword
  | varDecl keyword _ _ => keyword
  | block brace _ => brace
  | ifElse keyword _ _ _ => keyword
  | loop keyword _ _ => keyword
  | funDecl decl => decl.name
  | ret keyword _ => keyword
  | classDecl keyword _ _ _ => keyword

/-- A `for` loop as a `while` loop. Body and increment share a block of their own, a missing
condition is `true`, and an initializer gets a block around the loop. -/
def Stmt.forLoop (keyword : Token) (init : Option Stmt) (cond increment : Option Expr)
    (body : Stmt) : Stmt :=
  let body := match increment with
    | some e => .block keyword [body, .expr keyword e]
    | none => body
  let whileLoop := .loop keyword (cond.getD (.literal keyword (.bool true))) body
  match init with
  | some s => .block keyword [s, whileLoop]
  | none => whileLoop

end Lox
