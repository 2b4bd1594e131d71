import Lox.Tree
/-!
# The references of a program

All references of a program, a node before its parts, with the distances they are pinned to.
-/

namespace Lox

/-- How a name is used. -/
inductive RefForm where
  | read | write | this | super
deriving DecidableEq, Repr

structure Reference where
  form : RefForm
  ref : Ref

mutual

def Expr.references : Expr → List Reference
  | .literal .. => []
  | .grouping _ inner => inner.references
  | .unary _ _ operand => operand.references
  | .binary _ _ left right => left.references ++ right.references
  | .logical _ _ left right => left.references ++ right.references
  | .var ref => [⟨.read, ref⟩]
  | .assign ref value => ⟨.write, ref⟩ :: value.references
  | .call _ callee args => callee.references ++ Expr.listReferences args
  | .get object _ => object.references
  | .set object _ value => object.references ++ value.references
  | .this ref => [⟨.this, ref⟩]
  | .super ref _ => [⟨.super, ref⟩]

def Expr.listReferences : List Expr → List Reference
  | [] => []
  | e :: rest => e.references ++ Expr.listReferences rest

end

mutual

def Stmt.references : Stmt → List Reference
  | .expr _ value => value.references
  | .print _ value => value.references
  | .varDecl _ _ none => []
  | .varDecl _ _ (some init) => init.references
  | .block _ body => Stmt.listReferences body
  | .ifElse _ cond yes none => cond.references ++ yes.references
  | .ifElse _ cond yes (some no) => cond.references ++ (yes.references ++ no.references)
  | .loop _ cond body => cond.references ++ body.references
  | .funDecl decl => decl.references
  | .ret _ none => []
  | .ret _ (some value) => value.references
  | .classDecl _ _ superclass methods =>
    superclass.toList.map (Reference.mk .read) ++ FunDecl.listReferences methods

def Stmt.listReferences : List Stmt → List Reference
  | [] => []
  | s :: rest => s.references ++ Stmt.listReferences rest

def FunDecl.references : FunDecl → List Reference
  | .mk _ _ body => Stmt.listReferences body

def FunDecl.listReferences : List FunDecl → List Reference
  | [] => []
  | f :: rest => f.references ++ FunDecl.listReferences rest

end

end Lox
