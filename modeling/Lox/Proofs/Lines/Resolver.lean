import Lox.Proofs.Lines.Tree
import Lox.Proofs.Scope.Resolving
/-!
# Resolving does not look at lines

A program whose tokens stand on other lines is resolved in the same way, and what the resolver
complains about stands on those lines. At the top level no scope is open between two statements,
so a program that follows another one is resolved as if it stood alone.
-/

namespace Lox

def StaticError.reline (g : Nat → Nat) (e : StaticError) : StaticError :=
  { e with token := e.token.reline g }

namespace Resolver

def reline (g : Nat → Nat) (r : Resolver) : Resolver :=
  { r with errors := r.errors.map (StaticError.reline g) }

variable {α β : Type} {g : Nat → Nat} {φ : α → α} {ψ : β → β} {cls : ClassContext}

/-- The second pass does on other lines what the first one does. -/
def Moved (g : Nat → Nat) (φ : α → α) (p p' : Resolve α) : Prop :=
  ∀ r, p' (r.reline g) = (φ (p r).1, (p r).2.reline g)

theorem moved_pure (a : α) : Moved g φ (Pure.pure a) (Pure.pure (φ a)) := fun _ => rfl

theorem moved_bind {p p' : Resolve α} {f f' : α → Resolve β} (hp : Moved g φ p p')
    (hf : ∀ a, Moved g ψ (f a) (f' (φ a))) : Moved g ψ (p >>= f) (p' >>= f') := by
  intro r
  show f' (p' (r.reline g)).1 (p' (r.reline g)).2 = _
  rw [hp r]
  exact hf _ _

theorem moved_report (t : Token) (fault : StaticFault) :
    Moved g id (report t fault) (report (t.reline g) fault) := fun _ => rfl

theorem moved_openScope (scope : Scope) : Moved g id (openScope scope) (openScope scope) :=
  fun _ => rfl

theorem moved_closeScope : Moved g id closeScope closeScope := fun _ => rfl

theorem moved_mark (name : Token) (ready : Bool) :
    Moved g id (mark name ready) (mark (name.reline g) ready) := by
  intro r
  rw [mark_run, mark_run]
  rfl

/-- The reference as `pin` gives it, when the scope that declares it is known. -/
theorem pin_of_hopsTo {ref : Ref} {name : Bytes} {r : Resolver} {hops : Option Nat}
    (h : hopsTo r.scopes name = hops) :
    pin ref name r = ({ ref with hops := hops.or ref.hops }, r) := by
  subst h
  rw [pin]
  show (_, r) = _
  cases hopsTo r.scopes name <;> rfl

theorem moved_pin (ref : Ref) (name : Bytes) :
    Moved g (Ref.reline g) (pin ref name) (pin (ref.reline g) name) := by
  intro r
  rw [pin_of_hopsTo (r := r.reline g) rfl, pin_of_hopsTo (r := r) rfl]
  rfl

theorem moved_check (c : Prop) [Decidable c] (t : Token) (fault : StaticFault) :
    Moved g id (check c t fault) (check c (t.reline g) fault) := by
  unfold check
  split
  · exact moved_report t fault
  · exact moved_pure ()

theorem moved_checkSuper (t : Token) : ∀ cls,
    Moved g id (checkSuper cls t) (checkSuper cls (t.reline g))
  | .none => moved_report _ _
  | .plain => moved_report _ _
  | .subclass => moved_pure ()

theorem moved_variableRef (ref : Ref) :
    Moved g (Ref.reline g) (variableRef ref) (variableRef (ref.reline g)) := by
  intro r
  rw [variableRef_run, variableRef_run]
  exact moved_bind (moved_check _ _ _) (fun _ => moved_pin _ _) r

/-! ## Expressions -/

mutual

theorem moved_expression : ∀ cls e,
    Moved g (Expr.reline g) (expression cls e) (expression cls (e.reline g))
  | _, .literal _ _ => by simp only [Expr.reline, expression]; exact moved_pure _
  | _, .grouping _ e => by
    simp only [Expr.reline, expression]
    exact moved_bind (moved_expression _ e) fun _ => moved_pure _
  | _, .unary _ _ e => by
    simp only [Expr.reline, expression]
    exact moved_bind (moved_expression _ e) fun _ => moved_pure _
  | _, .binary _ _ a b => by
    simp only [Expr.reline, expression]
    exact moved_bind (moved_expression _ a) fun _ =>
      moved_bind (moved_expression _ b) fun _ => moved_pure _
  | _, .logical _ _ a b => by
    simp only [Expr.reline, expression]
    exact moved_bind (moved_expression _ a) fun _ =>
      moved_bind (moved_expression _ b) fun _ => moved_pure _
  | _, .var ref => by
    simp only [Expr.reline, expression]
    exact moved_bind (moved_variableRef ref) fun _ => moved_pure _
  | _, .assign ref v => by
    simp only [Expr.reline, expression]
    exact moved_bind (moved_expression _ v) fun _ =>
      moved_bind (moved_pin ref _) fun _ => moved_pure _
  | _, .call _ f args => by
    simp only [Expr.reline, expression]
    exact moved_bind (moved_expression _ f) fun _ =>
      moved_bind (moved_expressions _ args) fun _ => moved_pure _
  | _, .get o _ => by
    simp only [Expr.reline, expression]
    exact moved_bind (moved_expression _ o) fun _ => moved_pure _
  | _, .set o _ v => by
    simp only [Expr.reline, expression]
    exact moved_bind (moved_expression _ v) fun _ =>
      moved_bind (moved_expression _ o) fun _ => moved_pure _
  | _, .this ref => by
    simp only [Expr.reline, expression]
    split
    · exact moved_bind (moved_report _ _) fun _ => moved_pure _
    · exact moved_bind (moved_pin ref _) fun _ => moved_pure _
  | _, .super ref _ => by
    simp only [Expr.reline, expression_super]
    exact moved_bind (moved_checkSuper _ _) fun _ =>
      moved_bind (moved_pin ref _) fun _ => moved_pure _

theorem moved_expressions : ∀ cls es,
    Moved g (Expr.relineAll g) (expressions cls es) (expressions cls (Expr.relineAll g es))
  | _, [] => by simp only [Expr.relineAll, expressions]; exact moved_pure _
  | _, e :: es => by
    simp only [Expr.relineAll, expressions]
    exact moved_bind (moved_expression _ e) fun _ =>
      moved_bind (moved_expressions _ es) fun _ => moved_pure _

end

/-! ## Statements -/

theorem moved_parameters : ∀ params,
    Moved g id (parameters params) (parameters (params.map (Token.reline g)))
  | [] => moved_pure ()
  | p :: rest => moved_bind (moved_mark p false) fun _ => moved_bind (moved_mark p true) fun _ =>
      moved_parameters rest

mutual

theorem moved_statement : ∀ fn cls s,
    Moved g (Stmt.reline g) (statement fn cls s) (statement fn cls (s.reline g))
  | _, _, .expr _ e => by
    simp only [Stmt.reline, statement]
    exact moved_bind (moved_expression _ e) fun _ => moved_pure _
  | _, _, .print _ e => by
    simp only [Stmt.reline, statement]
    exact moved_bind (moved_expression _ e) fun _ => moved_pure _
  | _, _, .varDecl _ name none => by
    simp only [Stmt.reline, Option.map_none, statement]
    exact moved_bind (moved_mark _ _) fun _ => moved_bind (moved_mark _ _) fun _ => moved_pure _
  | _, _, .varDecl _ name (some e) => by
    simp only [Stmt.reline, Option.map_some, statement]
    exact moved_bind (moved_mark _ _) fun _ => moved_bind (moved_expression _ e) fun _ =>
      moved_bind (moved_mark _ _) fun _ => moved_pure _
  | _, _, .block _ body => by
    simp only [Stmt.reline, statement]
    exact moved_bind (moved_openScope _) fun _ => moved_bind (moved_statements _ _ body) fun _ =>
      moved_bind moved_closeScope fun _ => moved_pure _
  | _, _, .ifElse _ c yes none => by
    simp only [Stmt.reline, statement]
    exact moved_bind (moved_expression _ c) fun _ =>
      moved_bind (moved_statement _ _ yes) fun _ => moved_pure _
  | _, _, .ifElse _ c yes (some no) => by
    simp only [Stmt.reline, statement]
    exact moved_bind (moved_expression _ c) fun _ => moved_bind (moved_statement _ _ yes) fun _ =>
      moved_bind (moved_statement _ _ no) fun _ => moved_pure _
  | _, _, .loop _ c body => by
    simp only [Stmt.reline, statement]
    exact moved_bind (moved_expression _ c) fun _ =>
      moved_bind (moved_statement _ _ body) fun _ => moved_pure _
  | _, _, .funDecl (.mk name params body) => by
    simp only [Stmt.reline, FunDecl.reline, statement]
    exact moved_bind (moved_mark _ _) fun _ => moved_bind (moved_mark _ _) fun _ =>
      moved_bind (moved_function _ _ (.mk name params body)) fun _ => moved_pure _
  | _, _, .ret _ none => by
    simp only [Stmt.reline, Option.map_none, statement_ret_none]
    exact moved_bind (moved_check _ _ _) fun _ => moved_pure _
  | _, _, .ret _ (some e) => by
    simp only [Stmt.reline, Option.map_some, statement_ret_some]
    exact moved_bind (moved_check _ _ _) fun _ => moved_bind (moved_check _ _ _) fun _ =>
      moved_bind (moved_expression _ e) fun _ => moved_pure _
  | _, _, .classDecl _ name none ms => by
    simp only [Stmt.reline, Option.map_none, statement]
    exact moved_bind (moved_mark _ _) fun _ => moved_bind (moved_mark _ _) fun _ =>
      moved_bind (moved_openScope _) fun _ => moved_bind (moved_methods _ ms) fun _ =>
      moved_bind moved_closeScope fun _ => moved_pure _
  | _, _, .classDecl _ name (some ref) ms => by
    simp only [Stmt.reline, Option.map_some, statement_subclass]
    exact moved_bind (moved_mark _ _) fun _ => moved_bind (moved_mark _ _) fun _ =>
      moved_bind (moved_check _ _ _) fun _ => moved_bind (moved_variableRef ref) fun _ =>
      moved_bind (moved_openScope _) fun _ => moved_bind (moved_openScope _) fun _ =>
      moved_bind (moved_methods _ ms) fun _ => moved_bind moved_closeScope fun _ =>
      moved_bind moved_closeScope fun _ => moved_pure _

theorem moved_statements : ∀ fn cls ss,
    Moved g (Stmt.relineAll g) (statements fn cls ss) (statements fn cls (Stmt.relineAll g ss))
  | _, _, [] => by simp only [Stmt.relineAll, statements]; exact moved_pure _
  | _, _, s :: ss => by
    simp only [Stmt.relineAll, statements]
    exact moved_bind (moved_statement _ _ s) fun _ =>
      moved_bind (moved_statements _ _ ss) fun _ => moved_pure _

theorem moved_function : ∀ fn cls f,
    Moved g (FunDecl.reline g) (function fn cls f) (function fn cls (f.reline g))
  | _, _, .mk name params body => by
    simp only [FunDecl.reline, function]
    exact moved_bind (moved_openScope _) fun _ => moved_bind (moved_parameters params) fun _ =>
      moved_bind (moved_statements _ _ body) fun _ =>
      moved_bind moved_closeScope fun _ => moved_pure _

theorem moved_methods : ∀ cls fs,
    Moved g (FunDecl.relineAll g) (methods cls fs) (methods cls (FunDecl.relineAll g fs))
  | _, [] => by simp only [FunDecl.relineAll, methods]; exact moved_pure _
  | _, .mk name params body :: fs => by
    simp only [FunDecl.relineAll, FunDecl.reline, methods]
    exact moved_bind (moved_function _ _ (.mk name params body)) fun _ =>
      moved_bind (moved_methods _ fs) fun _ => moved_pure _

end

/-! ## One program after another -/

theorem statements_append (fn : FunctionContext) (ss ss' : List Stmt) (r : Resolver) :
    statements fn cls (ss ++ ss') r =
      ((statements fn cls ss r).1 ++ (statements fn cls ss' (statements fn cls ss r).2).1,
        (statements fn cls ss' (statements fn cls ss r).2).2) := by
  induction ss generalizing r with
  | nil => rw [statements]; rfl
  | cons s ss ih =>
    rw [List.cons_append, statements, statements]
    show (_ :: (statements fn cls (ss ++ ss') _).1, (statements fn cls (ss ++ ss') _).2) = _
    rw [ih]
    rfl

/-- No scope is open at the top level. -/
theorem afterStmts_nil (ss : List Stmt) : afterStmts ss [] = [] := by
  have hstep : ∀ s, afterStmt s [] = [] := by
    intro s
    unfold afterStmt
    cases s.declared? <;> rfl
  induction ss with
  | nil => rfl
  | cons s ss ih =>
    rw [afterStmts, List.foldl_cons, hstep]
    exact ih

end Resolver

end Lox
