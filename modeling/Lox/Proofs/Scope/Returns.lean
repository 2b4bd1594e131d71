import Lox.Proofs.Scope.Positions
/-!
# Which returns are let through

A return belongs to the body it stands in: it may be nested in blocks, branches and loops
(`Stmt.Within`), but functions and classes inside the body have bodies of their own. Such nesting
keeps the kind of function that the resolver is in, so an accepted program has no return at its
top level, and an initializer none with a value.
-/

namespace Lox

open Resolver

/-- A statement of a body: one of its own, or one in its blocks, branches and loops. -/
inductive Stmt.Within (body : List Stmt) : Stmt → Prop
  | here {s : Stmt} : s ∈ body → Within body s
  | block {ending : Token} {inner : List Stmt} {s : Stmt} :
    Within body (.block ending inner) → s ∈ inner → Within body s
  | yes {keyword : Token} {cond : Expr} {yes : Stmt} {no : Option Stmt} :
    Within body (.ifElse keyword cond yes no) → Within body yes
  | no {keyword : Token} {cond : Expr} {yes no : Stmt} :
    Within body (.ifElse keyword cond yes (some no)) → Within body no
  | loop {keyword : Token} {cond : Expr} {s : Stmt} :
    Within body (.loop keyword cond s) → Within body s

variable {programs : List Stmt → Prop} {fn : FunctionContext}

/-- A resolved statement in a function of the given kind. -/
def StmtIn (programs : List Stmt → Prop) (fn : FunctionContext) (s : Stmt) : Prop :=
  ∃ cls s₀ layers r, Visits programs ⟨.stmt fn cls s₀, layers, r⟩ ∧ (statement fn cls s₀ r).1 = s

/-- Statements that are resolved one after the other are in the same function. -/
theorem stmtIn_of_mem {cls : ClassContext} {layers : List Layer} {s : Stmt} :
    ∀ {ss : List Stmt} {r : Resolver}, Visits programs ⟨.stmts fn cls ss, layers, r⟩ →
    s ∈ (statements fn cls ss r).1 → StmtIn programs fn s
  | [], r, _, hs => by rw [statements] at hs; cases hs
  | s₀ :: ss, r, hv, hs => by
    rw [statements] at hs
    rcases List.mem_cons.1 hs with rfl | hs
    · exact ⟨cls, s₀, layers, r, hv.call (.head _), rfl⟩
    · exact stmtIn_of_mem (hv.call (.tail _ (.head _))) hs

/-- What the kind of function means for the parts of a statement. -/
def Stmt.Belongs (programs : List Stmt → Prop) (fn : FunctionContext) : Stmt → Prop
  | .block _ body => ∀ s ∈ body, StmtIn programs fn s
  | .ifElse _ _ yes no => StmtIn programs fn yes ∧ ∀ s, no = some s → StmtIn programs fn s
  | .loop _ _ body => StmtIn programs fn body
  | .ret _ value => fn ≠ .none ∧ (fn = .initializer → value = none)
  | _ => True

variable (hprograms : ∀ program, programs program → Admissible program)
include hprograms

theorem StmtIn.belongs {s : Stmt} (h : StmtIn programs fn s) : s.Belongs programs fn := by
  obtain ⟨cls, s₀, layers, r, hv, rfl⟩ := h
  have hclean : (statement fn cls s₀ r).2.errors = [] := (hv.sound hprograms).clean
  match s₀ with
  | .expr _ _ => rw [statement]; trivial
  | .print _ _ => rw [statement]; trivial
  | .varDecl _ _ none => rw [statement]; trivial
  | .varDecl _ _ (some _) => rw [statement]; trivial
  | .block _ body =>
    rw [statement]
    exact fun s hs => stmtIn_of_mem (hv.call (.head _)) hs
  | .ifElse _ cond yes none =>
    rw [statement]
    exact ⟨⟨cls, yes, layers, _, hv.call (.tail _ (.head _)), rfl⟩, fun s hs => by cases hs⟩
  | .ifElse _ cond yes (some no) =>
    rw [statement]
    refine ⟨⟨cls, yes, layers, _, hv.call (.tail _ (.head _)), rfl⟩, fun s hs => ?_⟩
    cases hs
    exact ⟨cls, no, layers, _, hv.call (.tail _ (.tail _ (.head _))), rfl⟩
  | .loop _ cond body =>
    rw [statement]
    exact ⟨cls, body, layers, _, hv.call (.tail _ (.head _)), rfl⟩
  | .funDecl (.mk _ _ _) => rw [statement]; trivial
  | .ret keyword none =>
    rw [statement_ret_none] at hclean ⊢
    exact ⟨check_clean hclean, fun _ => rfl⟩
  | .ret keyword (some e) =>
    rw [statement_ret_some] at hclean ⊢
    -- errors are never taken back, so neither check has reported one
    have hinit : (check (fn = .initializer) keyword .initializerReturn
        (check (fn = .none) keyword .topLevelReturn r).2).2.errors = [] :=
      (keeps_expression cls e _).2 hclean
    exact ⟨check_clean ((keeps_check _ _ _ _).2 hinit), fun h => absurd h (check_clean hinit)⟩
  | .classDecl _ _ none _ => rw [statement]; trivial
  | .classDecl _ _ (some _) _ => rw [statement_subclass]; trivial

theorem StmtIn.within {body : List Stmt} {s : Stmt} (hs : s.Within body)
    (h : ∀ s ∈ body, StmtIn programs fn s) : StmtIn programs fn s := by
  induction hs with
  | here hmem => exact h _ hmem
  | block _ hmem ih => exact ih.belongs hprograms _ hmem
  | yes _ ih => exact (ih.belongs hprograms).1
  | no _ ih => exact (ih.belongs hprograms).2 _ rfl
  | loop _ ih => exact ih.belongs hprograms

/-- A function keeps to what its kind allows. -/
theorem FunAt.returns {layers : List Layer} {scopes : List Scope} {f : FunDecl} {keyword : Token}
    {value : Option Expr} (h : FunAt programs fn layers scopes f)
    (hs : Stmt.Within f.body (.ret keyword value)) : fn = .initializer → value = none := by
  obtain ⟨cls, ⟨name, params, body⟩, r, hv, -, rfl⟩ := h
  rw [function] at hs
  refine ((StmtIn.within hprograms hs fun s hmem => ?_).belongs hprograms).2
  exact stmtIn_of_mem (hv.call (.head _)) hmem

/-- There is no return at the top level of a program. -/
theorem no_return_at_top {program : List Stmt} (hp : programs program) (keyword : Token)
    (value : Option Expr) :
    ¬ Stmt.Within (statements .none .none program ⟨[], []⟩).1 (.ret keyword value) := by
  intro hs
  refine absurd rfl ((StmtIn.within hprograms hs fun s hmem => ?_).belongs hprograms).1
  exact stmtIn_of_mem (.root hp) hmem

end Lox
