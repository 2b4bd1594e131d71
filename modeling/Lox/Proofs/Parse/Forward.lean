import Lox.Proofs.Parse.Equations
/-!
# Parsers move forward

Whatever a parser does, the tokens that it leaves are the end of the tokens that it was given, also
when it fails. `Parser.Forward` is closed under everything that parsers are put together from, so
each parser has it by its own definition; main statements: `exprForward`, `stmtForward`.
-/

namespace Lox

/-- What is left is the end of `tokens`. -/
def Parsed.Forward {α : Type} (tokens : List Token) : Parsed α → Prop
  | .ok _ c | .failed c => c.rest <:+ tokens
  | .exhausted => True

theorem Parsed.Forward.mono {α : Type} {r : Parsed α} {tokens more : List Token}
    (h : r.Forward tokens) (hs : tokens <:+ more) : r.Forward more := by
  cases r with
  | ok a c => exact List.IsSuffix.trans h hs
  | failed c => exact List.IsSuffix.trans h hs
  | exhausted => trivial

namespace Parser

/-- The parser never goes back. -/
def Forward {α : Type} (p : Parser α) : Prop := ∀ c, (p c).Forward c.rest

variable {α β : Type} {fuel : Nat}

theorem Forward.ok {p : Parser α} (h : p.Forward) {c c' : Cursor} {a : α} (hp : p c = .ok a c') :
    c'.rest <:+ c.rest := by
  have hc := h c
  rwa [hp] at hc

theorem forward_pure (a : α) : (pure a : Parser α).Forward := fun _ => List.suffix_rfl

theorem forward_exhausted : (exhausted : Parser α).Forward := fun _ => trivial

theorem forward_bind {p : Parser α} {f : α → Parser β} (hp : p.Forward)
    (hf : ∀ a, (f a).Forward) : (p >>= f).Forward := by
  intro c
  have hc := hp c
  rw [bind_apply]
  cases h : p c with
  | ok a c' =>
    rw [h] at hc
    exact (hf a c').mono hc
  | failed c' => rw [h] at hc; exact hc
  | exhausted => trivial

theorem forward_cursor : cursor.Forward := fun _ => List.suffix_rfl

theorem forward_advance : advance.Forward := fun c => List.tail_suffix c.rest

theorem forward_report (site : Site) (fault : SyntaxFault) : (report site fault).Forward :=
  fun _ => List.suffix_rfl

theorem forward_failHere (fault : SyntaxFault) : (failHere fault : Parser α).Forward :=
  fun _ => List.suffix_rfl

theorem forward_nextIs (kind : Kind) : (nextIs kind).Forward := fun _ => List.suffix_rfl

theorem forward_currentIs (kind : Kind) : (currentIs kind).Forward := fun _ => List.suffix_rfl

theorem forward_expect (kind : Kind) (fault : SyntaxFault) : (expect kind fault).Forward := by
  intro c
  unfold expect
  split
  · split
    · exact List.tail_suffix c.rest
    · exact List.suffix_rfl
  · exact List.suffix_rfl

theorem forward_ite {b : Bool} {p q : Parser α} (hp : p.Forward) (hq : q.Forward) :
    (if b then p else q).Forward := by
  split
  · exact hp
  · exact hq

/-! ## Expressions -/

structure ExprForward (fuel : Nat) : Prop where
  expression : ∀ level, (expression fuel level).Forward
  operand : (operand fuel).Forward
  operators : ∀ level left, (operators fuel level left).Forward
  unary : ∀ op token, (unary fuel op token).Forward
  apply : ∀ op token left, (apply fuel op token left).Forward
  arguments : ∀ count, (arguments fuel count).Forward

theorem expression_forward (ih : ExprForward fuel) (level : Precedence) :
    (expression (fuel + 1) level).Forward := by
  rw [expression]
  exact forward_bind ih.operand (ih.operators level)

theorem operand_forward (ih : ExprForward fuel) : (operand (fuel + 1)).Forward := by
  rw [operand]
  refine forward_bind forward_cursor fun c => ?_
  split
  · exact forward_failHere _
  · split <;> try exact forward_pure _
    · exact ih.unary _ _
    · exact ih.unary _ _
    · exact forward_bind forward_advance fun _ => forward_bind (ih.expression _) fun _ =>
        forward_bind (forward_expect _ _) fun _ => forward_pure _
    · exact forward_bind (forward_expect _ _) fun _ => forward_bind (forward_expect _ _) fun _ =>
        forward_pure _
    · exact forward_failHere _

theorem unary_forward (ih : ExprForward fuel) (op : UnaryOp) (token : Token) :
    (unary (fuel + 1) op token).Forward := by
  rw [unary]
  exact forward_bind forward_advance fun _ => forward_bind (ih.expression _) fun _ =>
    forward_pure _

theorem operators_forward (ih : ExprForward fuel) (level : Precedence) (left : Expr) :
    (operators (fuel + 1) level left).Forward := by
  rw [operators]
  refine forward_bind forward_cursor fun c => ?_
  split
  · exact forward_pure _
  · split
    · exact forward_pure _
    · split
      · exact forward_bind forward_advance fun _ => forward_bind (ih.apply _ _ _) fun left =>
          ih.operators level left
      · exact forward_pure _

theorem apply_forward (ih : ExprForward fuel) (op : Operator) (token : Token) (left : Expr) :
    (apply (fuel + 1) op token left).Forward := by
  cases op with
  | binary b =>
    rw [apply]
    exact forward_bind forward_advance fun _ => forward_bind (ih.expression _) fun _ =>
      forward_pure _
  | logical l =>
    rw [apply]
    exact forward_bind forward_advance fun _ => forward_bind (ih.expression _) fun _ =>
      forward_pure _
  | assign =>
    rw [apply]
    refine forward_bind forward_advance fun _ => forward_bind (ih.expression _) fun value => ?_
    split
    · exact forward_pure _
    · exact forward_pure _
    · exact forward_bind (forward_report _ _) fun _ => forward_pure _
  | call =>
    rw [apply]
    refine forward_bind (forward_nextIs _) fun closes => ?_
    dsimp only
    split
    · exact forward_bind (forward_pure _) fun _ => forward_bind (forward_expect _ _) fun _ =>
        forward_pure _
    · exact forward_bind (ih.arguments 0) fun _ => forward_bind (forward_expect _ _) fun _ =>
        forward_pure _
  | get =>
    rw [apply]
    exact forward_bind (forward_expect _ _) fun _ => forward_pure _

theorem arguments_forward (ih : ExprForward fuel) (count : Nat) :
    (arguments (fuel + 1) count).Forward := by
  rw [arguments]
  refine forward_bind forward_advance fun _ => forward_bind (ih.expression _) fun arg => ?_
  dsimp only
  have hmore : (nextIs .comma >>= fun comma => if comma = true then
      advance >>= fun _ => arguments fuel (count + 1) >>= fun more => Pure.pure (arg :: more)
      else Pure.pure [arg] : Parser (List Expr)).Forward :=
    forward_bind (forward_nextIs _) fun _ => forward_ite (forward_bind forward_advance fun _ =>
      forward_bind (ih.arguments _) fun _ => forward_pure _) (forward_pure _)
  split
  · exact forward_bind forward_cursor fun _ => forward_bind (forward_report _ _) fun _ => hmore
  · exact hmore

theorem exprForward : ∀ fuel, ExprForward fuel
  | 0 => by
    constructor <;> intros <;>
      simp only [expression, operand, operators, unary, apply, arguments] <;>
      exact forward_exhausted
  | fuel + 1 =>
    have ih := exprForward fuel
    ⟨expression_forward ih, operand_forward ih, operators_forward ih, unary_forward ih,
      apply_forward ih, arguments_forward ih⟩

theorem expression_forward_all (fuel : Nat) (level : Precedence) :
    (expression fuel level).Forward := (exprForward fuel).expression level

/-! ## Pieces of statements -/

theorem parameters_forward : ∀ fuel count, (parameters fuel count).Forward
  | 0, _ => forward_exhausted
  | fuel + 1, count => by
    rw [parameters]
    refine forward_bind (forward_expect _ _) fun param => ?_
    dsimp only
    have hmore : (nextIs .comma >>= fun comma => if comma = true then
        advance >>= fun _ => parameters fuel (count + 1) >>= fun more => Pure.pure (param :: more)
        else Pure.pure [param] : Parser (List Token)).Forward :=
      forward_bind (forward_nextIs _) fun _ => forward_ite (forward_bind forward_advance fun _ =>
        forward_bind (parameters_forward fuel _) fun _ => forward_pure _) (forward_pure _)
    split
    · exact forward_bind (forward_report _ _) fun _ => hmore
    · exact hmore

theorem varDecl_forward (fuel : Nat) (keyword : Token) : (varDecl fuel keyword).Forward := by
  rw [varDecl]
  refine forward_bind (forward_expect _ _) fun name => forward_bind (forward_nextIs _) fun _ => ?_
  have hend : ∀ init, (expect .semicolon .variableEnd >>= fun _ =>
      Pure.pure (.varDecl keyword name init) : Parser Stmt).Forward := fun init =>
    forward_bind (forward_expect _ _) fun _ => forward_pure _
  refine forward_ite ?_ (forward_bind (forward_pure _) hend)
  exact forward_bind forward_advance fun _ => forward_bind forward_advance fun _ =>
    forward_bind (expression_forward_all fuel _) fun _ => forward_bind (forward_pure _) hend

theorem exprStmt_forward (fuel : Nat) : (exprStmt fuel).Forward :=
  forward_bind forward_cursor fun _ => forward_bind (expression_forward_all fuel _) fun _ =>
    forward_bind (forward_expect _ _) fun _ => forward_pure _

theorem printStmt_forward (fuel : Nat) (keyword : Token) : (printStmt fuel keyword).Forward :=
  forward_bind forward_advance fun _ => forward_bind (expression_forward_all fuel _) fun _ =>
    forward_bind (forward_expect _ _) fun _ => forward_pure _

theorem returnStmt_forward (fuel : Nat) (keyword : Token) : (returnStmt fuel keyword).Forward := by
  have hend : ∀ value, (expect .semicolon .returnEnd >>= fun _ =>
      Pure.pure (.ret keyword value) : Parser Stmt).Forward := fun value =>
    forward_bind (forward_expect _ _) fun _ => forward_pure _
  refine forward_bind (forward_nextIs _) fun _ => forward_ite
    (forward_bind (forward_pure _) hend) ?_
  exact forward_bind forward_advance fun _ => forward_bind (expression_forward_all fuel _) fun _ =>
    forward_bind (forward_pure _) hend

theorem condition_forward (fuel : Nat) (opening closing : SyntaxFault) :
    (condition fuel opening closing).Forward :=
  forward_bind (forward_expect _ _) fun _ => forward_bind forward_advance fun _ =>
    forward_bind (expression_forward_all fuel _) fun _ => forward_bind (forward_expect _ _) fun _ =>
      forward_pure _

theorem forInitializer_forward (fuel : Nat) : (forInitializer fuel).Forward := by
  have hexpr : (exprStmt fuel >>= fun s => Pure.pure (some s) : Parser (Option Stmt)).Forward :=
    forward_bind (exprStmt_forward fuel) fun _ => forward_pure _
  refine forward_bind forward_cursor fun c => ?_
  split
  · split
    · exact forward_pure _
    · exact forward_bind (varDecl_forward fuel _) fun _ => forward_pure _
    · exact hexpr
  · exact hexpr

theorem forClause_forward (fuel : Nat) (ending : Kind) (fault : SyntaxFault) :
    (forClause fuel ending fault).Forward :=
  forward_bind (forward_currentIs _) fun _ => forward_ite (forward_pure _)
    (forward_bind (expression_forward_all fuel _) fun _ =>
      forward_bind (forward_expect _ _) fun _ => forward_pure _)

/-! ## Statements and declarations -/

theorem skipStatement_suffix : ∀ ts : List Token, skipStatement ts <:+ ts
  | [] => List.suffix_rfl
  | [_] => List.suffix_rfl
  | t :: u :: rest => by
    unfold skipStatement
    split
    · exact List.suffix_rfl
    · exact (skipStatement_suffix (u :: rest)).trans (List.suffix_cons t _)

theorem recover_forward {p : Parser Stmt} (hp : p.Forward) : (recover p).Forward := by
  intro c
  have hc := hp c
  unfold recover
  cases h : p c with
  | ok s c' =>
    rw [h] at hc
    simp only
    split
    · exact (skipStatement_suffix _).trans hc
    · exact hc
  | failed c' => rw [h] at hc; exact (skipStatement_suffix _).trans hc
  | exhausted => trivial

structure StmtForward (fuel : Nat) : Prop where
  declaration : (declaration fuel).Forward
  statement : (statement fuel).Forward
  block : (block fuel).Forward
  declarations : (declarations fuel).Forward
  function : ∀ kind name, (function fuel kind name).Forward
  classDecl : ∀ keyword, (classDecl fuel keyword).Forward
  methods : (methods fuel).Forward

theorem declared_forward (ih : StmtForward fuel) : (declared fuel).Forward := by
  have hfun : (expect .ident .functionName >>= fun name => function fuel .function name >>= fun f =>
      pure (.funDecl f) : Parser Stmt).Forward :=
    forward_bind (forward_expect _ _) fun _ => forward_bind (ih.function _ _) fun _ =>
      forward_pure _
  intro c
  unfold declared
  split
  · split
    · exact ih.classDecl _ c
    · exact hfun c
    · exact varDecl_forward fuel _ c
    · exact ih.statement c
  · exact ih.statement c

theorem declaration_forward (ih : StmtForward fuel) : (declaration (fuel + 1)).Forward := by
  intro c
  rw [declaration_eq]
  exact recover_forward (declared_forward ih) c

theorem statement_forward (ih : StmtForward fuel) : (statement (fuel + 1)).Forward := by
  rw [statement]
  refine forward_bind forward_cursor fun c => ?_
  split
  · exact exprStmt_forward fuel
  · split
    · exact forward_bind (forward_expect _ _) fun _ => forward_bind forward_advance fun _ =>
        forward_bind (forInitializer_forward fuel) fun _ => forward_bind forward_advance fun _ =>
        forward_bind (forClause_forward fuel _ _) fun _ => forward_bind forward_advance fun _ =>
        forward_bind (forClause_forward fuel _ _) fun _ => forward_bind forward_advance fun _ =>
        forward_bind ih.statement fun _ => forward_pure _
    · refine forward_bind (condition_forward fuel _ _) fun _ =>
        forward_bind forward_advance fun _ =>
        forward_bind ih.statement fun _ => forward_bind (forward_nextIs _) fun _ =>
        forward_ite ?_ (forward_pure _)
      exact forward_bind forward_advance fun _ => forward_bind forward_advance fun _ =>
        forward_bind ih.statement fun _ => forward_pure _
    · exact printStmt_forward fuel _
    · exact returnStmt_forward fuel _
    · exact forward_bind (condition_forward fuel _ _) fun _ => forward_bind forward_advance fun _ =>
        forward_bind ih.statement fun _ => forward_pure _
    · exact forward_bind ih.block fun _ => forward_bind forward_cursor fun _ => forward_pure _
    · exact exprStmt_forward fuel

theorem block_forward (ih : StmtForward fuel) : (block (fuel + 1)).Forward := by
  rw [block]
  exact forward_bind forward_advance fun _ => forward_bind ih.declarations fun _ =>
    forward_bind (forward_currentIs _) fun _ => forward_ite (forward_pure _) fun _ =>
      List.suffix_rfl

theorem declarations_forward (ih : StmtForward fuel) : (declarations (fuel + 1)).Forward := by
  rw [declarations]
  refine forward_bind forward_cursor fun c => ?_
  split
  · exact forward_pure _
  · exact forward_ite (forward_pure _) (forward_bind ih.declaration fun _ =>
      forward_bind forward_advance fun _ => forward_bind ih.declarations fun _ => forward_pure _)

theorem function_forward (ih : StmtForward fuel) (kind : Callee) (name : Token) :
    (function (fuel + 1) kind name).Forward := by
  have hbody : ∀ params, (expect .rightParen .parametersClose >>= fun _ =>
      expect .leftBrace (.bodyOpen kind) >>= fun _ => block fuel >>= fun body =>
        Pure.pure (.mk name params body) : Parser FunDecl).Forward := fun params =>
    forward_bind (forward_expect _ _) fun _ => forward_bind (forward_expect _ _) fun _ =>
      forward_bind ih.block fun _ => forward_pure _
  rw [function]
  exact forward_bind (forward_expect _ _) fun _ => forward_bind (forward_nextIs _) fun _ =>
    forward_ite (forward_bind (forward_pure _) hbody)
      (forward_bind (parameters_forward fuel 0) hbody)

theorem afterClassName_forward (ih : StmtForward fuel) (keyword name : Token) :
    (afterClassName fuel keyword name).Forward := by
  have hbody : ∀ superclass, (classBody fuel keyword name superclass).Forward := fun superclass =>
    forward_bind (forward_expect _ _) fun _ => forward_bind forward_advance fun _ =>
      forward_bind ih.methods fun ms c => by
        unfold closeClass
        split <;> exact List.suffix_rfl
  intro c
  unfold afterClassName
  split
  · have hsuper := forward_bind (forward_expect .ident .superclassName) fun t =>
      hbody (some ⟨t, none⟩)
    exact (hsuper c.advance).mono (List.tail_suffix _)
  · exact hbody none c

theorem classDecl_forward (ih : StmtForward fuel) (keyword : Token) :
    (classDecl (fuel + 1) keyword).Forward := by
  intro c
  rw [classDecl_eq]
  exact forward_bind (forward_expect _ _) (afterClassName_forward ih keyword) c

theorem methods_forward (ih : StmtForward fuel) : (methods (fuel + 1)).Forward := by
  rw [methods]
  refine forward_bind forward_cursor fun c => ?_
  split
  · exact forward_pure _
  · split
    · exact forward_pure _
    · exact forward_bind (ih.function _ _) fun _ => forward_bind forward_advance fun _ =>
        forward_bind ih.methods fun _ => forward_pure _
    · exact forward_failHere _

theorem stmtForward : ∀ fuel, StmtForward fuel
  | 0 => by
    constructor <;> intros <;>
      simp only [declaration, statement, block, declarations, function, classDecl, methods] <;>
      exact forward_exhausted
  | fuel + 1 =>
    have ih := stmtForward fuel
    ⟨declaration_forward ih, statement_forward ih, block_forward ih, declarations_forward ih,
      function_forward ih, classDecl_forward ih, methods_forward ih⟩

end Parser

end Lox
