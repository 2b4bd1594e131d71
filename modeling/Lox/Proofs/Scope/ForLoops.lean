import Lox.Proofs.Parse.Completeness
import Lox.Proofs.Scope.Positions
import Lox.Proofs.Scope.Tidy
/-!
# The trees of `for` loops

A `for` loop is a `while` loop and up to two blocks, which carry its keyword: one around the
initializer and the loop, one around the body and the increment. Resolving keeps this shape
(`ForLoop.exists_resolved`). Since the body of a loop is never a declaration, the second block
declares nothing (`StmtAt.body_declares_nothing`), and so the scopes at the condition and at the
increment are known (`ForLoop.tree_parts`): they have the variable of the initializer and what is
visible around the loop, and no more.
-/

namespace Lox

structure ForLoop where
  keyword : Token
  init : Option Stmt
  cond : Option Expr
  increment : Option Expr
  body : Stmt

namespace ForLoop

variable (l : ForLoop)

/-- What the parser makes of a loop. -/
def tree : Stmt := .forLoop l.keyword l.init l.cond l.increment l.body

/-- The condition; a missing one is `true`. -/
def test : Expr := l.cond.getD (.literal l.keyword (.bool true))

/-- The body, in a block with the increment if there is one. -/
def round : Stmt :=
  match l.increment with
  | some e => .block l.keyword [l.body, .expr l.keyword e]
  | none => l.body

/-- The loop without its initializer. -/
def whileLoop : Stmt := .loop l.keyword l.test l.round

variable {l}

theorem tree_of_none (h : l.init = none) : l.tree = l.whileLoop := by
  unfold tree Stmt.forLoop
  rw [h]
  rfl

theorem tree_of_some {i : Stmt} (h : l.init = some i) :
    l.tree = .block l.keyword [i, l.whileLoop] := by
  unfold tree Stmt.forLoop
  rw [h]
  rfl

theorem round_of_none (h : l.increment = none) : l.round = l.body := by
  unfold round
  rw [h]

theorem round_of_some {e : Expr} (h : l.increment = some e) :
    l.round = .block l.keyword [l.body, .expr l.keyword e] := by
  unfold round
  rw [h]

end ForLoop

/-! ## Loops in the source -/

namespace Grammar

/-- The text of a loop has its clauses in their order. -/
inductive ForText (short : Bool) (l : ForLoop) : List Token → Prop
  | clauses {opening semicolon closing : Token} {is cs us bs : List Token} :
    opening.kind = .leftParen → ForInit l.init is → Optional l.cond cs →
    semicolon.kind = .semicolon → Optional l.increment us → closing.kind = .rightParen →
    Forms (.stmt short l.body) bs →
    ForText short l (l.keyword :: opening :: (is ++ (cs ++ semicolon :: (us ++ closing :: bs))))

/-- What starts with `for` is the text of a loop and makes its tree. -/
theorem exists_forLoop {short : Bool} {s : Stmt} {kw : Token} {ts : List Token}
    (h : Forms (.stmt short s) (kw :: ts)) (hk : kw.kind = .kwFor) :
    ∃ l : ForLoop, ForText short l (kw :: ts) ∧ s = l.tree := by
  generalize hall : kw :: ts = all at h
  have other : ∀ {t : Token} {rest : List Token} {kind : Kind}, kw :: ts = t :: rest →
      t.kind = kind → kind = .kwFor := by
    rintro t rest kind ⟨⟩ rfl
    exact hk
  cases h with
  | expr he =>
    obtain ⟨t, more, rfl, hstart⟩ := Parser.exprStmt_starts he
    rw [other hall rfl] at hstart
    cases hstart
  | print hk' _ _ => cases other hall hk'
  | ret hk' _ _ => cases other hall hk'
  | block hk' _ _ => cases other hall hk'
  | ifShort hk' _ _ _ _ => cases other hall hk'
  | ifElse hk' _ _ _ _ _ _ => cases other hall hk'
  | loop hk' _ _ _ _ => cases other hall hk'
  | @forLoop kw' _ _ _ init cond step body _ _ _ _ _ _ _ hopen hinit hcond hsemi hstep hclose
      hbody hform =>
    exact ⟨⟨kw', init, cond, step, body⟩, .clauses hopen hinit hcond hsemi hstep hclose hbody,
      whileForm_iff.1 hform⟩

end Grammar

/-! ## The shape of resolved statements -/

/-- The token of a block. -/
def Stmt.blockToken? : Stmt → Option Token
  | .block token _ => some token
  | _ => none

/-- The token of an expression that is a statement. -/
def Stmt.exprToken? : Stmt → Option Token
  | .expr token _ => some token
  | _ => none

namespace Resolver

section

variable (fn : FunctionContext) (cls : ClassContext) (r : Resolver)

theorem statement_block (token : Token) (body : List Stmt) :
    (statement fn cls (.block token body) r).1 =
      .block token (statements fn cls body ⟨[] :: r.scopes, r.errors⟩).1 := by
  rw [statement]
  rfl

theorem statements_pair (first second : Stmt) :
    (statements fn cls [first, second] r).1 =
      [(statement fn cls first r).1, (statement fn cls second (statement fn cls first r).2).1] := by
  rw [statements, statements, statements]
  rfl

/-- Resolving makes no blocks and no expressions of other statements. -/
theorem statement_tokens (s : Stmt) :
    (statement fn cls s r).1.blockToken? = s.blockToken? ∧
      (statement fn cls s r).1.exprToken? = s.exprToken? := by
  match s with
  | .expr _ _ | .print _ _ | .varDecl _ _ none | .varDecl _ _ (some _) | .block _ _
  | .ifElse _ _ _ none | .ifElse _ _ _ (some _) | .loop _ _ _ | .classDecl _ _ none _ =>
    rw [statement]; exact ⟨rfl, rfl⟩
  | .funDecl (.mk _ _ _) => rw [statement]; exact ⟨rfl, rfl⟩
  | .ret _ none => rw [statement_ret_none]; exact ⟨rfl, rfl⟩
  | .ret _ (some _) => rw [statement_ret_some]; exact ⟨rfl, rfl⟩
  | .classDecl _ _ (some _) _ => rw [statement_subclass]; exact ⟨rfl, rfl⟩

end

variable {fn : FunctionContext} {cls : ClassContext} {r : Resolver} {s : Stmt} {ss : List Stmt}

theorem eq_block {token : Token} {body : List Stmt}
    (h : (statement fn cls s r).1 = .block token body) :
    ∃ body₀, s = .block token body₀ ∧
      (statements fn cls body₀ ⟨[] :: r.scopes, r.errors⟩).1 = body := by
  have htoken := (statement_tokens fn cls r s).1
  rw [h] at htoken
  cases s with
  | block token' body₀ =>
    cases htoken
    rw [statement_block] at h
    exact ⟨body₀, rfl, (Stmt.block.inj h).2⟩
  | _ => cases htoken

theorem eq_expr {token : Token} {e : Expr} (h : (statement fn cls s r).1 = .expr token e) :
    ∃ e₀, s = .expr token e₀ := by
  have htoken := (statement_tokens fn cls r s).2
  rw [h] at htoken
  cases s with
  | expr token' e₀ =>
    cases htoken
    exact ⟨e₀, rfl⟩
  | _ => cases htoken

theorem eq_cons {first : Stmt} {rest : List Stmt} (h : (statements fn cls ss r).1 = first :: rest) :
    ∃ first₀ rest₀, ss = first₀ :: rest₀ ∧ (statement fn cls first₀ r).1 = first ∧
      (statements fn cls rest₀ (statement fn cls first₀ r).2).1 = rest := by
  cases ss with
  | nil => rw [statements] at h; cases h
  | cons first₀ rest₀ =>
    rw [statements] at h
    exact ⟨first₀, rest₀, rfl, List.cons.inj h⟩

theorem eq_nil (h : (statements fn cls ss r).1 = []) : ss = [] := by
  cases ss with
  | nil => rfl
  | cons first₀ rest₀ => rw [statements] at h; cases h

end Resolver

namespace ForLoop

open Resolver

variable (l : ForLoop) (fn : FunctionContext) (cls : ClassContext) (r : Resolver)

theorem exists_resolved_test : ∃ cond : Option Expr, cond.isSome = l.cond.isSome ∧
    (expression cls l.test r).1 = cond.getD (.literal l.keyword (.bool true)) := by
  unfold test
  cases l.cond with
  | none =>
    refine ⟨none, rfl, ?_⟩
    rw [Option.getD_none, expression]
    rfl
  | some e => exact ⟨some (expression cls e r).1, rfl, rfl⟩

theorem exists_resolved_round : ∃ (increment : Option Expr) (body : Stmt),
    increment.isSome = l.increment.isSome ∧
      (statement fn cls l.round r).1 = (ForLoop.mk l.keyword none none increment body).round := by
  unfold round
  cases l.increment with
  | none => exact ⟨none, (statement fn cls l.body r).1, rfl, rfl⟩
  | some e =>
    let first := statement fn cls l.body ⟨[] :: r.scopes, r.errors⟩
    refine ⟨some (expression cls e first.2).1, first.1, rfl, ?_⟩
    simp only [statement_block, statements_pair]
    rw [statement]
    rfl

/-- A resolved loop is a loop with the same clauses. -/
theorem exists_resolved : ∃ l' : ForLoop, (statement fn cls l.tree r).1 = l'.tree ∧
    l'.keyword = l.keyword ∧ l'.init.isSome = l.init.isSome ∧ l'.cond.isSome = l.cond.isSome ∧
    l'.increment.isSome = l.increment.isSome := by
  have hloop : ∀ r, ∃ cond increment body, (statement fn cls l.whileLoop r).1 =
      (ForLoop.mk l.keyword none cond increment body).whileLoop ∧
      cond.isSome = l.cond.isSome ∧ increment.isSome = l.increment.isSome := by
    intro r
    obtain ⟨cond, hcond, htest⟩ := l.exists_resolved_test cls r
    obtain ⟨increment, body, hincrement, hround⟩ :=
      l.exists_resolved_round fn cls (expression cls l.test r).2
    refine ⟨cond, increment, body, ?_, hcond, hincrement⟩
    unfold whileLoop
    rw [statement]
    show Stmt.loop l.keyword (expression cls l.test r).1 (statement fn cls l.round _).1 = _
    rw [htest, hround]
    rfl
  cases hinit : l.init with
  | none =>
    rw [tree_of_none hinit]
    obtain ⟨cond, increment, body, hstmt, hcond, hincrement⟩ := hloop r
    exact ⟨⟨l.keyword, none, cond, increment, body⟩, hstmt, rfl, rfl, hcond, hincrement⟩
  | some i =>
    obtain ⟨cond, increment, body, hstmt, hcond, hincrement⟩ :=
      hloop (statement fn cls i ⟨[] :: r.scopes, r.errors⟩).2
    refine ⟨⟨l.keyword, some (statement fn cls i ⟨[] :: r.scopes, r.errors⟩).1, cond, increment,
      body⟩, ?_, rfl, rfl, hcond, hincrement⟩
    rw [tree_of_some hinit, statement_block, statements_pair, hstmt]
    rfl

end ForLoop

/-! ## The block around body and increment -/

mutual

/-- No block that a `for` loop puts around its body and increment declares a name. -/
def Stmt.Tight : Stmt → Prop
  | .block token body =>
    (token.kind = .kwFor → ∀ first e, body = [first, .expr token e] → first.declared? = none) ∧
      Stmt.AllTight body
  | .ifElse _ _ yes none => yes.Tight
  | .ifElse _ _ yes (some no) => yes.Tight ∧ no.Tight
  | .loop _ _ body => body.Tight
  | .funDecl decl => decl.Tight
  | .classDecl _ _ _ methods => FunDecl.AllTight methods
  | _ => True

def Stmt.AllTight : List Stmt → Prop
  | [] => True
  | s :: rest => s.Tight ∧ Stmt.AllTight rest

def FunDecl.Tight : FunDecl → Prop
  | .mk _ _ body => Stmt.AllTight body

def FunDecl.AllTight : List FunDecl → Prop
  | [] => True
  | f :: rest => f.Tight ∧ FunDecl.AllTight rest

end

namespace Grammar

variable {ts : List Token}

theorem forLoop_tight {l : ForLoop} (hi : ∀ i, l.init = some i → i.Tight) (hb : l.body.Tight)
    (hd : l.body.declared? = none) : l.tree.Tight := by
  have hround : l.round.Tight := by
    cases he : l.increment with
    | none => rwa [ForLoop.round_of_none he]
    | some e =>
      rw [ForLoop.round_of_some he]
      refine ⟨fun _ first e' heq => ?_, hb, trivial, trivial⟩
      obtain ⟨rfl, -⟩ := List.cons.inj heq
      exact hd
  cases hinit : l.init with
  | none => rwa [ForLoop.tree_of_none hinit]
  | some i =>
    rw [ForLoop.tree_of_some hinit]
    exact ⟨nofun, hi i hinit, hround, trivial⟩

theorem forInit_tight {init : Option Stmt} (h : ForInit init ts) :
    ∀ i, init = some i → i.Tight := by
  rintro i rfl
  cases h with
  | var hv => cases hv <;> trivial
  | expr he => cases he; trivial

def Phrase.Tight : Phrase → Prop
  | .stmt _ s => s.Tight ∧ s.declared? = none
  | .decl s => s.Tight
  | .decls ss => Stmt.AllTight ss
  | .function f => f.Tight
  | .methods fs => FunDecl.AllTight fs

theorem forms_tight {p : Phrase} (h : Forms p ts) : p.Tight := by
  induction h with
  | expr he => cases he; exact ⟨trivial, rfl⟩
  | print _ _ _ => exact ⟨trivial, rfl⟩
  | ret _ _ _ => exact ⟨trivial, rfl⟩
  | block _ _ hk ih => exact ⟨⟨fun hfor => (by rw [hk] at hfor; cases hfor), ih⟩, rfl⟩
  | ifShort _ _ _ _ _ ih => exact ⟨ih.1, rfl⟩
  | ifElse _ _ _ _ _ _ _ ihy ihn => exact ⟨⟨ihy.1, ihn.1⟩, rfl⟩
  | loop _ _ _ _ _ ih => exact ⟨ih.1, rfl⟩
  | @forLoop kw _ _ _ init cond step body _ _ _ _ _ _ _ _ hi _ _ _ _ _ hform ih =>
    rw [whileForm_iff.1 hform]
    refine ⟨forLoop_tight (l := ⟨kw, init, cond, step, body⟩) (forInit_tight hi) ih.1 ih.2, ?_⟩
    cases init <;> rfl
  | stmtDecl _ ih => exact ih.1
  | varDecl hv => cases hv <;> trivial
  | funDecl _ _ ih => exact ih
  | classDecl _ _ _ _ _ ih => exact ih
  | subclassDecl _ _ _ _ _ _ _ ih => exact ih
  | noDecls => trivial
  | decls _ _ ih ihs => exact ⟨ih, ihs⟩
  | function _ _ _ _ _ _ _ ih => exact ih
  | noMethods => trivial
  | methods _ _ ih ihs => exact ⟨ih, ihs⟩

end Grammar

namespace Position

def Node.Tight : Position.Node → Prop
  | .expr _ _ | .exprs _ _ => True
  | .stmt _ _ s => s.Tight
  | .stmts _ _ ss => Stmt.AllTight ss
  | .function _ _ f => f.Tight
  | .methods _ fs => FunDecl.AllTight fs

theorem exprCalls_tight {cls : ClassContext} {layers : List Layer} {r : Resolver} {e : Expr}
    {q : Position} (hq : q ∈ exprCalls cls layers r e) : q.node.Tight := by
  cases e <;> simp only [exprCalls, List.mem_cons, List.not_mem_nil, or_false] at hq <;>
    first | (subst hq; trivial) | (rcases hq with rfl | rfl <;> trivial)

theorem stmtCalls_tight {fn : FunctionContext} {cls : ClassContext} {layers : List Layer}
    {r : Resolver} {q : Position} : ∀ {s : Stmt}, s.Tight → q ∈ stmtCalls fn cls layers r s →
    q.node.Tight
  | .expr _ _, _, hq | .print _ _, _, hq => by cases List.mem_singleton.1 hq; trivial
  | .varDecl _ _ none, _, hq => by cases hq
  | .varDecl _ _ (some _), _, hq => by cases List.mem_singleton.1 hq; trivial
  | .block _ _, h, hq => by cases List.mem_singleton.1 hq; exact h.2
  | .ifElse _ _ _ none, h, hq => by
    rcases mem_pair hq with rfl | rfl
    · trivial
    · exact h
  | .ifElse _ _ _ (some _), h, hq => by
    simp only [stmtCalls, List.mem_cons, List.not_mem_nil, or_false] at hq
    rcases hq with rfl | rfl | rfl
    · trivial
    · exact h.1
    · exact h.2
  | .loop _ _ _, h, hq => by
    rcases mem_pair hq with rfl | rfl
    · trivial
    · exact h
  | .funDecl (.mk _ _ _), h, hq => by cases List.mem_singleton.1 hq; exact h
  | .ret _ none, _, hq => by cases hq
  | .ret _ (some _), _, hq => by cases List.mem_singleton.1 hq; trivial
  | .classDecl _ _ none _, h, hq => by cases List.mem_singleton.1 hq; exact h
  | .classDecl _ _ (some _) _, h, hq => by
    rcases mem_pair hq with rfl | rfl
    · trivial
    · exact h

theorem calls_tight {p q : Position} (h : p.node.Tight) (hq : q ∈ p.calls) : q.node.Tight := by
  match p with
  | ⟨.expr _ _, _, _⟩ => exact exprCalls_tight hq
  | ⟨.exprs _ [], _, _⟩ => cases hq
  | ⟨.exprs _ (_ :: _), _, _⟩ => rcases mem_pair hq with rfl | rfl <;> trivial
  | ⟨.stmt _ _ _, _, _⟩ => exact stmtCalls_tight h hq
  | ⟨.stmts _ _ [], _, _⟩ => cases hq
  | ⟨.stmts _ _ (_ :: _), _, _⟩ =>
    rcases mem_pair hq with rfl | rfl
    · exact h.1
    · exact h.2
  | ⟨.function _ _ (.mk _ _ _), _, _⟩ => cases List.mem_singleton.1 hq; exact h
  | ⟨.methods _ [], _, _⟩ => cases hq
  | ⟨.methods _ (.mk _ _ _ :: _), _, _⟩ =>
    rcases mem_pair hq with rfl | rfl
    · exact h.1
    · exact h.2

end Position

/-- The program of some source that is accepted. -/
def Acceptable (program : List Stmt) : Prop :=
  ∃ source, (∃ resolved, analyse source = .ok resolved) ∧ program = sourceTree source

theorem Acceptable.admissible : ∀ program, Acceptable program → Admissible program := by
  rintro _ ⟨source, ⟨resolved, h⟩, rfl⟩
  exact (analyse_ok h).1

theorem Acceptable.tight : ∀ program, Acceptable program → Stmt.AllTight program := by
  rintro _ ⟨source, ⟨resolved, h⟩, rfl⟩
  exact Grammar.forms_tight (analyse_grammatical h)

theorem Visits.tight {p : Position} (h : Visits Acceptable p) : p.node.Tight := by
  induction h with
  | root hp => exact Acceptable.tight _ hp
  | call _ hq ih => exact Position.calls_tight ih hq

/-! ## Scopes in a loop -/

section

open Resolver

variable {ls : List Layer} {ss ss' : List Scope}

theorem StmtAt.scopes_eq {s : Stmt} (h : StmtAt Acceptable ls ss ss' s) : ss' = afterStmt s ss := by
  obtain ⟨fn, cls, s₀, r, hv, rfl, rfl, rfl⟩ := h
  rw [statement_scopes fn cls s₀ (hv.sound Acceptable.admissible).proper, afterStmt, afterStmt,
    Position.declared_statement]

/-- The layer of a block has the names that the block declares. -/
theorem StmtAt.block {token : Token} {body : List Stmt}
    (h : StmtAt Acceptable ls ss ss' (.block token body)) :
    ∃ inner, StmtsAt Acceptable (.body (declaredNames body) :: ls) ([] :: ss) inner body := by
  obtain ⟨fn, cls, s₀, r, hv, rfl, hs, -⟩ := h
  obtain ⟨body₀, rfl, rfl⟩ := eq_block hs
  rw [Position.declaredNames_statements]
  exact ⟨_, fn, cls, body₀, _, hv.call (.head _), rfl, rfl, rfl⟩

/-- The body of a loop is no declaration, so the block around it and the increment declares
nothing. -/
theorem StmtAt.body_declares_nothing {token : Token} {body : Stmt} {e : Expr}
    (h : StmtAt Acceptable ls ss ss' (.block token [body, .expr token e]))
    (hfor : token.kind = .kwFor) : body.declared? = none := by
  obtain ⟨fn, cls, s₀, r, hv, rfl, hs, -⟩ := h
  obtain ⟨body₀, rfl, hbody⟩ := eq_block hs
  have htight : (Stmt.block token body₀).Tight := hv.tight
  obtain ⟨first, rest, rfl, rfl, hrest⟩ := eq_cons hbody
  obtain ⟨second, rest, rfl, hsecond, hrest⟩ := eq_cons hrest
  obtain ⟨e₀, rfl⟩ := eq_expr hsecond
  obtain rfl := eq_nil hrest
  rw [Position.declared_statement]
  exact htight.1 hfor first e₀ rfl

namespace ForLoop

variable {l : ForLoop}

/-- The scopes at the condition of a loop, in which the initializer has declared its name. -/
def scopes (l : ForLoop) (ss : List Scope) : List Scope :=
  match l.init with
  | some i => afterStmt i ([] :: ss)
  | none => ss

theorem whileLoop_parts (hfor : l.keyword.kind = .kwFor)
    (h : StmtAt Acceptable ls ss ss' l.whileLoop) :
    ExprAt Acceptable ls ss l.test ∧
      ∀ e, l.increment = some e → ∃ ls', ExprAt Acceptable ls' ([] :: ss) e := by
  obtain ⟨-, htest, hround⟩ := h.parts Acceptable.admissible
  refine ⟨htest, fun e he => ?_⟩
  rw [round_of_some he] at hround
  have hnone := hround.body_declares_nothing hfor
  obtain ⟨inner, hbody⟩ := hround.block
  obtain ⟨sc, hfirst, hrest⟩ := hbody.parts
  obtain ⟨_, hexpr, -⟩ := hrest.parts
  have hsc := hfirst.scopes_eq
  rw [afterStmt, hnone] at hsc
  subst hsc
  exact ⟨_, (hexpr.parts Acceptable.admissible).1⟩

/-- The condition and the increment of a loop stand in scopes with the name of the initializer
and what is declared around the loop. -/
theorem tree_parts (hfor : l.keyword.kind = .kwFor) (h : StmtAt Acceptable ls ss ss' l.tree) :
    (∃ ls', ExprAt Acceptable ls' (l.scopes ss) l.test) ∧
      ∀ e, l.increment = some e → ∃ ls', ExprAt Acceptable ls' ([] :: l.scopes ss) e := by
  unfold scopes
  cases hinit : l.init with
  | none =>
    rw [tree_of_none hinit] at h
    obtain ⟨htest, hincrement⟩ := whileLoop_parts hfor h
    exact ⟨⟨ls, htest⟩, hincrement⟩
  | some i =>
    rw [tree_of_some hinit] at h
    obtain ⟨inner, hbody⟩ := h.block
    obtain ⟨sc, hi, hrest⟩ := hbody.parts
    obtain ⟨_, hloop, -⟩ := hrest.parts
    rw [hi.scopes_eq] at hloop
    obtain ⟨htest, hincrement⟩ := whileLoop_parts hfor hloop
    exact ⟨⟨_, htest⟩, hincrement⟩

end ForLoop

/-! ## Variables in a loop -/

mutual

/-- Each variable of an expression is pinned to the scopes around the expression. -/
theorem ExprAt.pinned {form : RefForm} {ref : Ref} (hform : form = .read ∨ form = .write) :
    ∀ {e : Expr}, ExprAt Acceptable ls ss e → ⟨form, ref⟩ ∈ e.references → Pinned ss ref
  | .literal _ _, _, hr => by cases hr
  | .grouping _ _, h, hr => ExprAt.pinned hform (h.parts Acceptable.admissible) hr
  | .unary _ _ _, h, hr => ExprAt.pinned hform (h.parts Acceptable.admissible) hr
  | .get _ _, h, hr => ExprAt.pinned hform (h.parts Acceptable.admissible) hr
  | .binary _ _ _ _, h, hr => (List.mem_append.1 hr).elim
    (ExprAt.pinned hform (h.parts Acceptable.admissible).1)
    (ExprAt.pinned hform (h.parts Acceptable.admissible).2)
  | .logical _ _ _ _, h, hr => (List.mem_append.1 hr).elim
    (ExprAt.pinned hform (h.parts Acceptable.admissible).1)
    (ExprAt.pinned hform (h.parts Acceptable.admissible).2)
  | .set _ _ _, h, hr => (List.mem_append.1 hr).elim
    (ExprAt.pinned hform (h.parts Acceptable.admissible).1)
    (ExprAt.pinned hform (h.parts Acceptable.admissible).2)
  | .call _ _ _, h, hr => (List.mem_append.1 hr).elim
    (ExprAt.pinned hform (h.parts Acceptable.admissible).1)
    (ExprsAt.pinned hform (h.parts Acceptable.admissible).2)
  | .var _, h, hr => by
    cases List.mem_singleton.1 hr
    exact (h.parts Acceptable.admissible).toPinned
  | .assign _ _, h, hr => by
    rcases List.mem_cons.1 hr with heq | hr
    · cases heq
      exact (h.parts Acceptable.admissible).1
    · exact ExprAt.pinned hform (h.parts Acceptable.admissible).2 hr
  | .this _, _, hr => by
    cases List.mem_singleton.1 hr
    rcases hform with hform | hform <;> cases hform
  | .super _ _, _, hr => by
    cases List.mem_singleton.1 hr
    rcases hform with hform | hform <;> cases hform

theorem ExprsAt.pinned {form : RefForm} {ref : Ref} (hform : form = .read ∨ form = .write) :
    ∀ {es : List Expr}, ExprsAt Acceptable ls ss es → ⟨form, ref⟩ ∈ Expr.listReferences es →
      Pinned ss ref
  | [], _, hr => by cases hr
  | _ :: _, h, hr => (List.mem_append.1 hr).elim
    (ExprAt.pinned hform h.parts.1) (ExprsAt.pinned hform h.parts.2)

end

end

end Lox
