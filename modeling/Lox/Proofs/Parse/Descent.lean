import Lox.Proofs.Parse.Carrying
import Lox.Proofs.Parse.Forward
import Lox.Proofs.Scan.Tiles
/-!
# Loops and recursion of the parser

A loop of the parser is a parser that calls itself, so its loops and its recursion are told by the
calls that parsers make of each other. `Activation.calls` lists them, and a parser runs out of fuel
exactly if one of those that it calls does, with one unit less (`Activation.exhausts_succ`). Along
calls `Activation.weight` gets smaller, so between two activations of one parser a token is always
passed, and no chain of calls is longer than four times the number of tokens left, and a few
more. Main statement: `Program.parsing_ends`.
-/

namespace Lox

namespace Parser

/-- The parsers that call other parsers or themselves. -/
inductive Routine where
  | program | declaration | declarations | statement | block | function | classDecl | methods
  | parameters | expression | operand | operators | unary | apply | arguments | skip
deriving DecidableEq

/-- A parser with all that it is given but the fuel. -/
inductive Procedure where
  | program
  | declaration
  | declarations
  | statement
  | block
  | function (kind : Callee) (name : Token)
  | classDecl (keyword : Token)
  | methods
  | parameters (count : Nat)
  | expression (level : Precedence)
  | operand
  | operators (level : Precedence) (left : Expr)
  | unary (op : UnaryOp) (token : Token)
  | apply (op : Operator) (token : Token) (left : Expr)
  | arguments (count : Nat)
  /-- What follows a declaration that was given up. -/
  | skip

def Procedure.routine : Procedure → Routine
  | program => .program
  | declaration => .declaration
  | declarations => .declarations
  | statement => .statement
  | block => .block
  | function .. => .function
  | classDecl _ => .classDecl
  | methods => .methods
  | parameters _ => .parameters
  | expression _ => .expression
  | operand => .operand
  | operators .. => .operators
  | unary .. => .unary
  | apply .. => .apply
  | arguments _ => .arguments
  | skip => .skip

/-- A parser at work. -/
structure Activation where
  procedure : Procedure
  cursor : Cursor

end Parser

/-- Whether the fuel was used up. -/
def Parsed.isExhausted {α : Type} : Parsed α → Bool
  | .exhausted => true
  | _ => false

/-- What is called after a result. -/
def Parsed.andThen {α : Type} (r : Parsed α) (calls : α → Cursor → List Parser.Activation) :
    List Parser.Activation :=
  match r with
  | .ok a c => calls a c
  | _ => []

namespace Parser

namespace Activation

/-- Whether the parser uses up its fuel. Skipping needs none. -/
def exhausts (fuel : Nat) (a : Activation) : Bool :=
  match a.procedure with
  | .program => (program fuel a.cursor).isExhausted
  | .declaration => (declaration fuel a.cursor).isExhausted
  | .declarations => (declarations fuel a.cursor).isExhausted
  | .statement => (statement fuel a.cursor).isExhausted
  | .block => (block fuel a.cursor).isExhausted
  | .function kind name => (function fuel kind name a.cursor).isExhausted
  | .classDecl keyword => (classDecl fuel keyword a.cursor).isExhausted
  | .methods => (methods fuel a.cursor).isExhausted
  | .parameters count => (parameters fuel count a.cursor).isExhausted
  | .expression level => (expression fuel level a.cursor).isExhausted
  | .operand => (operand fuel a.cursor).isExhausted
  | .operators level left => (operators fuel level left a.cursor).isExhausted
  | .unary op token => (unary fuel op token a.cursor).isExhausted
  | .apply op token left => (apply fuel op token left a.cursor).isExhausted
  | .arguments count => (arguments fuel count a.cursor).isExhausted
  | .skip => false

/-! ## Calls -/

section

variable (fuel : Nat)

def expressionAt (c : Cursor) : Activation := ⟨.expression .lowest, c⟩

/-- The expression in a variable declaration. -/
def varDeclCalls (c : Cursor) : List Activation :=
  (expect .ident .variableName c).andThen fun _ c =>
    if c.nextIs .assign then [expressionAt c.advance.advance] else []

def conditionCalls (opening : SyntaxFault) (c : Cursor) : List Activation :=
  (expect .leftParen opening c).andThen fun _ c => [expressionAt c.advance]

def forInitializerCalls (c : Cursor) : List Activation :=
  match c.current? with
  | some t =>
    match t.kind with
    | .semicolon => []
    | .kwVar => varDeclCalls c
    | _ => [expressionAt c]
  | none => [expressionAt c]

def forClauseCalls (ending : Kind) (c : Cursor) : List Activation :=
  if c.currentIs ending then [] else [expressionAt c]

/-- The clauses and the body of a `for` loop, one after the other. -/
def forCalls (c : Cursor) : List Activation :=
  (expect .leftParen .forOpen c).andThen fun _ c =>
    forInitializerCalls c.advance ++ (forInitializer fuel c.advance).andThen fun _ c =>
      forClauseCalls .semicolon c.advance ++
      (forClause fuel .semicolon .loopConditionEnd c.advance).andThen fun _ c =>
        forClauseCalls .rightParen c.advance ++
        (forClause fuel .rightParen .forClose c.advance).andThen fun _ c =>
          [⟨.statement, c.advance⟩]

def ifCalls (c : Cursor) : List Activation :=
  conditionCalls .ifOpen c ++ (condition fuel .ifOpen .ifClose c).andThen fun _ c =>
    ⟨.statement, c.advance⟩ :: (statement fuel c.advance).andThen fun _ c =>
      if c.nextIs .kwElse then [⟨.statement, c.advance.advance⟩] else []

def whileCalls (c : Cursor) : List Activation :=
  conditionCalls .whileOpen c ++ (condition fuel .whileOpen .whileClose c).andThen fun _ c =>
    [⟨.statement, c.advance⟩]

def statementCalls (c : Cursor) : List Activation :=
  match c.current? with
  | none => [expressionAt c]
  | some t =>
    match t.kind with
    | .kwFor => forCalls fuel c
    | .kwIf => ifCalls fuel c
    | .kwPrint => [expressionAt c.advance]
    | .kwReturn => if c.nextIs .semicolon then [] else [expressionAt c.advance]
    | .kwWhile => whileCalls fuel c
    | .leftBrace => [⟨.block, c⟩]
    | _ => [expressionAt c]

def declaredCalls (c : Cursor) : List Activation :=
  match c.current? with
  | some t =>
    match t.kind with
    | .kwClass => [⟨.classDecl t, c⟩]
    | .kwFun =>
      (expect .ident .functionName c).andThen fun name c => [⟨.function .function name, c⟩]
    | .kwVar => varDeclCalls c
    | _ => [⟨.statement, c⟩]
  | none => [⟨.statement, c⟩]

/-- Skipping begins where a declaration was given up. -/
def recoverCalls : Parsed Stmt → List Activation
  | .ok _ c => if c.panicking then [⟨.skip, c⟩] else []
  | .failed c => [⟨.skip, c⟩]
  | .exhausted => []

def bodyCalls (kind : Callee) (c : Cursor) : List Activation :=
  (expect .rightParen .parametersClose c).andThen fun _ c =>
    (expect .leftBrace (.bodyOpen kind) c).andThen fun _ c => [⟨.block, c⟩]

def functionCalls (kind : Callee) (c : Cursor) : List Activation :=
  (expect .leftParen (.parametersOpen kind) c).andThen fun _ c =>
    if c.nextIs .rightParen then bodyCalls kind c
    else ⟨.parameters 0, c⟩ :: (parameters fuel 0 c).andThen fun _ c => bodyCalls kind c

def classBodyCalls (c : Cursor) : List Activation :=
  (expect .leftBrace .classOpen c).andThen fun _ c => [⟨.methods, c.advance⟩]

def classCalls (c : Cursor) : List Activation :=
  (expect .ident .className c).andThen fun _ c =>
    if c.nextIs .less then
      (expect .ident .superclassName c.advance).andThen fun _ c => classBodyCalls c
    else classBodyCalls c

/-- A declaration and the ones after it. -/
def declarationsCalls (again : Procedure) (c : Cursor) : List Activation :=
  ⟨.declaration, c⟩ :: (declaration fuel c).andThen fun _ c => [⟨again, c.advance⟩]

def methodsCalls (c : Cursor) : List Activation :=
  match c.current? with
  | none => []
  | some t =>
    match t.kind with
    | .ident => ⟨.function .method t, c⟩ :: (function fuel .method t c).andThen fun _ c =>
        [⟨.methods, c.advance⟩]
    | _ => []

def parametersCalls (count : Nat) (c : Cursor) : List Activation :=
  (expect .ident .parameterName c).andThen fun param c =>
    let c := limit count (.token param) .tooManyParameters c
    if c.nextIs .comma then [⟨.parameters (count + 1), c.advance⟩] else []

def operandCalls (c : Cursor) : List Activation :=
  match c.current? with
  | none => []
  | some t =>
    match t.kind with
    | .bang => [⟨.unary .not t, c⟩]
    | .minus => [⟨.unary .neg t, c⟩]
    | .leftParen => [expressionAt c.advance]
    | _ => []

def operatorsCalls (level : Precedence) (left : Expr) (c : Cursor) : List Activation :=
  match c.next? with
  | none => []
  | some t =>
    match Operator.ofKind? t.kind with
    | none => []
    | some op =>
      if level.rank < op.precedence.rank then
        ⟨.apply op t left, c.advance⟩ :: (apply fuel op t left c.advance).andThen fun left c =>
          [⟨.operators level left, c⟩]
      else []

def applyCalls (op : Operator) (c : Cursor) : List Activation :=
  match op with
  | .binary _ | .logical _ => [⟨.expression op.precedence, c.advance⟩]
  | .assign => [expressionAt c.advance]
  | .call => if c.nextIs .rightParen then [] else [⟨.arguments 0, c⟩]
  | .get => []

def argumentsCalls (count : Nat) (c : Cursor) : List Activation :=
  expressionAt c.advance :: (expression fuel .lowest c.advance).andThen fun _ c =>
    let c := limit count (c.siteOf c.current?) .tooManyArguments c
    if c.nextIs .comma then [⟨.arguments (count + 1), c.advance⟩] else []

/-- Skipping goes on by one token until it comes to the end of a statement. -/
def skipCalls (c : Cursor) : List Activation :=
  match c.rest with
  | t :: u :: _ =>
    if t.kind == .semicolon || u.kind.startsStatement then [] else [⟨.skip, c.advance⟩]
  | _ => []

/-- The calls that a parser makes when it has `fuel` to give, in their order. -/
def calls (a : Activation) : List Activation :=
  match a.procedure with
  | .program => if a.cursor.current?.isSome then declarationsCalls fuel .program a.cursor else []
  | .declaration => declaredCalls a.cursor ++ recoverCalls (declared fuel a.cursor)
  | .declarations =>
    if a.cursor.current?.isSome && !a.cursor.currentIs .rightBrace then
      declarationsCalls fuel .declarations a.cursor
    else []
  | .statement => statementCalls fuel a.cursor
  | .block => [⟨.declarations, a.cursor.advance⟩]
  | .function kind _ => functionCalls fuel kind a.cursor
  | .classDecl _ => classCalls a.cursor
  | .methods => methodsCalls fuel a.cursor
  | .parameters count => parametersCalls count a.cursor
  | .expression level => ⟨.operand, a.cursor⟩ :: (operand fuel a.cursor).andThen fun left c =>
      [⟨.operators level left, c⟩]
  | .operand => operandCalls a.cursor
  | .operators level left => operatorsCalls fuel level left a.cursor
  | .unary _ _ => [⟨.expression .unary, a.cursor.advance⟩]
  | .apply op _ _ => applyCalls op a.cursor
  | .arguments count => argumentsCalls fuel count a.cursor
  | .skip => skipCalls a.cursor

end

end Activation

/-! ## Running out of fuel -/

open Activation

section

variable {α β : Type} {fuel : Nat} {c : Cursor}

/-- What comes out exhausted is told by the calls. -/
def Tells (fuel : Nat) (r : Parsed α) (calls : List Activation) : Prop :=
  r.isExhausted = calls.any (Activation.exhausts fuel)

theorem tells_bind {p : Parser α} {f : α → Parser β} {first : List Activation}
    {next : α → Cursor → List Activation} (hp : Tells fuel (p c) first)
    (hf : ∀ a c', Tells fuel (f a c') (next a c')) :
    Tells fuel ((p >>= f) c) (first ++ (p c).andThen next) := by
  unfold Tells at hp ⊢
  rw [List.any_append, ← hp, bind_apply]
  cases h : p c with
  | ok a c' => exact hf a c'
  | failed c' => rfl
  | exhausted => rfl

theorem tells_expect (kind : Kind) (fault : SyntaxFault) : Tells fuel (expect kind fault c) [] := by
  unfold expect
  split
  · split <;> rfl
  · rfl

/-- What follows calls nothing. -/
theorem tells_then {p : Parser α} {f : α → Parser β} {first : List Activation}
    (hp : Tells fuel (p c) first) (hf : ∀ a c', Tells fuel (f a c') []) :
    Tells fuel ((p >>= f) c) first := by
  have h := tells_bind hp hf
  have hnext : (p c).andThen (fun _ _ => []) = [] := by cases p c <;> rfl
  rwa [hnext, List.append_nil] at h

/-- A token that must follow, and then a result. -/
theorem tells_end (kind : Kind) (fault : SyntaxFault) (f : Token → α) :
    Tells fuel ((expect kind fault >>= fun t => pure (f t)) c) [] :=
  tells_then (tells_expect kind fault) fun _ _ => rfl

theorem tells_ite {b : Bool} {r r' : Parsed α} {calls calls' : List Activation}
    (h : Tells fuel r calls) (h' : Tells fuel r' calls') :
    Tells fuel (if b then r else r') (if b then calls else calls') := by
  cases b
  · exact h'
  · exact h

/-- A parser that is called tells of itself. -/
theorem tells_call {r : Parsed α} (a : Activation) (h : r.isExhausted = a.exhausts fuel) :
    Tells fuel r [a] := by
  rw [Tells, h, List.any_cons, List.any_nil, Bool.or_false]

/-! ### Expressions -/

theorem tells_expression (level : Precedence) :
    Tells fuel (expression (fuel + 1) level c) (calls fuel ⟨.expression level, c⟩) := by
  rw [expression_eq]
  exact tells_bind (tells_call ⟨.operand, c⟩ rfl) fun left c' =>
    tells_call ⟨.operators level left, c'⟩ rfl

theorem tells_operand : Tells fuel (operand (fuel + 1) c) (operandCalls c) := by
  rw [operand_eq]
  unfold operandCalls
  cases c.current? with
  | none => rfl
  | some t =>
    simp only
    cases t.kind
    case bang => exact tells_call ⟨.unary .not t, c⟩ rfl
    case minus => exact tells_call ⟨.unary .neg t, c⟩ rfl
    case leftParen =>
      exact tells_then (tells_call (expressionAt c.advance) rfl) fun _ _ => tells_end _ _ _
    case kwSuper => exact tells_then (tells_expect _ _) fun _ _ => tells_end _ _ _
    all_goals rfl

theorem tells_unary (op : UnaryOp) (t : Token) :
    Tells fuel (unary (fuel + 1) op t c) (calls fuel ⟨.unary op t, c⟩) := by
  rw [unary_eq]
  exact tells_then (tells_call ⟨.expression .unary, c.advance⟩ rfl) fun _ _ => rfl

theorem tells_operators (level : Precedence) (left : Expr) :
    Tells fuel (operators (fuel + 1) level left c) (operatorsCalls fuel level left c) := by
  rw [operators_eq]
  unfold operatorsCalls
  cases c.next? with
  | none => rfl
  | some t =>
    simp only
    cases Operator.ofKind? t.kind with
    | none => rfl
    | some op =>
      simp only
      split
      · exact tells_bind (tells_call ⟨.apply op t left, c.advance⟩ rfl) fun left' c' =>
          tells_call ⟨.operators level left', c'⟩ rfl
      · rfl

theorem tells_apply (op : Operator) (t : Token) (left : Expr) :
    Tells fuel (apply (fuel + 1) op t left c) (calls fuel ⟨.apply op t left, c⟩) := by
  cases op with
  | binary b =>
    rw [apply_binary]
    exact tells_then (tells_call ⟨.expression _, c.advance⟩ rfl) fun _ _ => rfl
  | logical l =>
    rw [apply_logical]
    exact tells_then (tells_call ⟨.expression _, c.advance⟩ rfl) fun _ _ => rfl
  | assign =>
    rw [apply_assign]
    refine tells_then (tells_call (expressionAt c.advance) rfl) fun _ _ => ?_
    cases left <;> rfl
  | call =>
    rw [apply_call]
    exact tells_ite (tells_end _ _ _) (tells_then (tells_call ⟨.arguments 0, c⟩ rfl) fun _ _ =>
      tells_end _ _ _)
  | get =>
    rw [apply_get]
    exact tells_end _ _ _

theorem tells_arguments (count : Nat) :
    Tells fuel (arguments (fuel + 1) count c) (calls fuel ⟨.arguments count, c⟩) := by
  rw [arguments_eq]
  refine tells_bind (tells_call (expressionAt c.advance) rfl) fun arg c' => ?_
  exact tells_ite (tells_then (tells_call ⟨.arguments (count + 1), _⟩ rfl) fun _ _ => rfl) rfl

/-! ### Statements and declarations -/

theorem tells_parameters (count : Nat) :
    Tells fuel (parameters (fuel + 1) count c) (calls fuel ⟨.parameters count, c⟩) := by
  rw [parameters_eq]
  refine tells_bind (tells_expect _ _) fun param c' => ?_
  exact tells_ite (tells_then (tells_call ⟨.parameters (count + 1), _⟩ rfl) fun _ _ => rfl) rfl

/-- An expression and the token that ends it. -/
theorem tells_expression_end (kind : Kind) (fault : SyntaxFault) (f : Expr → α) :
    Tells fuel ((expression fuel .lowest >>= fun e => expect kind fault >>= fun _ =>
      pure (f e)) c) [expressionAt c] :=
  tells_then (tells_call (expressionAt c) rfl) fun _ _ => tells_end _ _ _

theorem tells_exprStmt : Tells fuel (exprStmt fuel c) [expressionAt c] :=
  tells_expression_end _ _ _

theorem tells_varDecl (keyword : Token) : Tells fuel (varDecl fuel keyword c) (varDeclCalls c) := by
  rw [varDecl_eq]
  exact tells_bind (tells_expect _ _) fun _ _ =>
    tells_ite (tells_expression_end _ _ _) (tells_end _ _ _)

theorem tells_condition (opening closing : SyntaxFault) :
    Tells fuel (condition fuel opening closing c) (conditionCalls opening c) :=
  tells_bind (tells_expect _ _) fun _ c' => tells_expression_end (c := c'.advance) _ _ id

theorem tells_forInitializer : Tells fuel (forInitializer fuel c) (forInitializerCalls c) := by
  have hexpr : Tells fuel ((exprStmt fuel >>= fun s => pure (some s)) c) [expressionAt c] :=
    tells_then tells_exprStmt fun _ _ => rfl
  rw [forInitializer_eq]
  unfold forInitializerCalls
  cases c.current? with
  | none => exact hexpr
  | some t =>
    simp only
    cases t.kind
    case semicolon => rfl
    case kwVar => exact tells_then (tells_varDecl t) fun _ _ => rfl
    all_goals exact hexpr

theorem tells_forClause (ending : Kind) (fault : SyntaxFault) :
    Tells fuel (forClause fuel ending fault c) (forClauseCalls ending c) := by
  rw [forClause_eq]
  exact tells_ite rfl (tells_expression_end _ _ _)

theorem tells_statement : Tells fuel (statement (fuel + 1) c) (statementCalls fuel c) := by
  rw [statement_eq]
  unfold statementCalls
  cases c.current? with
  | none => exact tells_exprStmt
  | some t =>
    simp only
    cases t.kind
    case kwFor =>
      refine tells_bind (tells_expect _ _) fun _ c₁ => ?_
      refine tells_bind (c := c₁.advance) tells_forInitializer fun _ c₂ => ?_
      refine tells_bind (c := c₂.advance) (tells_forClause _ _) fun _ c₃ => ?_
      refine tells_bind (c := c₃.advance) (tells_forClause _ _) fun _ c₄ => ?_
      exact tells_then (c := c₄.advance) (tells_call ⟨.statement, c₄.advance⟩ rfl) fun _ _ => rfl
    case kwIf =>
      refine tells_bind (tells_condition _ _) fun _ c₁ => ?_
      refine tells_bind (c := c₁.advance) (tells_call ⟨.statement, c₁.advance⟩ rfl) fun _ c₂ => ?_
      exact tells_ite (tells_then (tells_call ⟨.statement, c₂.advance.advance⟩ rfl) fun _ _ => rfl)
        rfl
    case kwPrint => exact tells_expression_end (c := c.advance) _ _ _
    case kwReturn =>
      show Tells fuel (returnStmt fuel t c) _
      rw [returnStmt_eq]
      exact tells_ite (tells_end _ _ _) (tells_expression_end _ _ _)
    case kwWhile =>
      refine tells_bind (tells_condition _ _) fun _ c₁ => ?_
      exact tells_then (c := c₁.advance) (tells_call ⟨.statement, c₁.advance⟩ rfl) fun _ _ => rfl
    case leftBrace => exact tells_then (tells_call ⟨.block, c⟩ rfl) fun _ _ => rfl
    all_goals exact tells_exprStmt

theorem tells_declared : Tells fuel (declared fuel c) (declaredCalls c) := by
  have hstmt : Tells fuel (statement fuel c) [⟨.statement, c⟩] := tells_call ⟨.statement, c⟩ rfl
  unfold declared declaredCalls
  cases c.current? with
  | none => exact hstmt
  | some t =>
    simp only
    cases t.kind
    case kwClass => exact tells_call ⟨.classDecl t, c⟩ rfl
    case kwFun =>
      refine tells_bind (tells_expect _ _) fun name c₁ => ?_
      exact tells_then (tells_call ⟨.function .function name, c₁⟩ rfl) fun _ _ => rfl
    case kwVar => exact tells_varDecl t
    all_goals exact hstmt

/-- Skipping does not use up fuel. -/
theorem tells_declaration : Tells fuel (declaration (fuel + 1) c)
    (declaredCalls c ++ recoverCalls (declared fuel c)) := by
  have hdeclared : Tells fuel (declared fuel c) (declaredCalls c) := tells_declared
  have hskip : (recoverCalls (declared fuel c)).any (exhausts fuel) = false := by
    cases declared fuel c with
    | ok s c' =>
      simp only [recoverCalls]
      split <;> rfl
    | failed c' => rfl
    | exhausted => rfl
  rw [declaration_eq, Tells, List.any_append, hskip, Bool.or_false, ← hdeclared]
  unfold recover
  cases declared fuel c with
  | ok s c' =>
    simp only
    split <;> rfl
  | failed c' => rfl
  | exhausted => rfl

theorem tells_block : Tells fuel (block (fuel + 1) c) [⟨.declarations, c.advance⟩] := by
  rw [block_eq]
  refine tells_then (tells_call ⟨.declarations, c.advance⟩ rfl) fun body c₁ => ?_
  unfold closeBlock
  split <;> rfl

/-- A declaration and the ones after it. -/
theorem tells_more {again : Parser (List Stmt)} {procedure : Procedure}
    (h : ∀ c, Tells fuel (again c) [⟨procedure, c⟩]) :
    Tells fuel ((declaration fuel >>= fun s => advance >>= fun _ => again >>= fun more =>
      pure (s.toList ++ more) : Parser (List Stmt)) c) (declarationsCalls fuel procedure c) := by
  refine tells_bind (tells_call ⟨.declaration, c⟩ rfl) fun s c₁ => ?_
  exact tells_then (c := c₁.advance) (h c₁.advance) fun _ _ => rfl

theorem tells_declarations :
    Tells fuel (declarations (fuel + 1) c) (calls fuel ⟨.declarations, c⟩) := by
  rw [declarations_eq]
  unfold calls Cursor.currentIs
  cases c.current? with
  | none => rfl
  | some t =>
    have hmore : Tells fuel _ (declarationsCalls fuel .declarations c) :=
      tells_more fun c => tells_call (r := declarations fuel c) ⟨.declarations, c⟩ rfl
    cases hk : t.kind == .rightBrace
    · simpa [hk] using hmore
    · simp [hk]
      rfl

theorem tells_program : Tells fuel (program (fuel + 1) c) (calls fuel ⟨.program, c⟩) := by
  rw [program_eq]
  unfold calls
  cases c.current? with
  | none => rfl
  | some t => exact tells_more fun c => tells_call ⟨.program, c⟩ rfl

theorem tells_function (kind : Callee) (name : Token) :
    Tells fuel (function (fuel + 1) kind name c) (functionCalls fuel kind c) := by
  have hbody : ∀ params c₁,
      Tells fuel (functionBody fuel kind name params c₁) (bodyCalls kind c₁) :=
    fun params c₁ => tells_bind (tells_expect _ _) fun _ c₂ => tells_bind (tells_expect _ _)
      fun _ c₃ => tells_then (tells_call ⟨.block, c₃⟩ rfl) fun _ _ => rfl
  rw [function_eq]
  refine tells_bind (tells_expect _ _) fun _ c₁ => ?_
  exact tells_ite (hbody [] c₁) (tells_bind (tells_call ⟨.parameters 0, c₁⟩ rfl) hbody)

theorem tells_classDecl (keyword : Token) :
    Tells fuel (classDecl (fuel + 1) keyword c) (classCalls c) := by
  have hbody : ∀ name superclass c₁, Tells fuel (classBody fuel keyword name superclass c₁)
      (classBodyCalls c₁) := fun name superclass c₁ => by
    refine tells_bind (tells_expect _ _) fun _ c₂ => ?_
    refine tells_then (c := c₂.advance) (tells_call ⟨.methods, c₂.advance⟩ rfl) fun ms c₃ => ?_
    unfold closeClass
    split <;> rfl
  rw [classDecl_eq]
  refine tells_bind (tells_expect _ _) fun name c₁ => ?_
  exact tells_ite (tells_bind (tells_expect _ _) fun t c₂ => hbody name _ c₂) (hbody name none c₁)

theorem tells_methods : Tells fuel (methods (fuel + 1) c) (methodsCalls fuel c) := by
  rw [methods_eq]
  unfold methodsCalls
  cases c.current? with
  | none => rfl
  | some t =>
    simp only
    cases t.kind
    case ident =>
      refine tells_bind (tells_call ⟨.function .method t, c⟩ rfl) fun _ c₁ => ?_
      exact tells_then (c := c₁.advance) (tells_call ⟨.methods, c₁.advance⟩ rfl) fun _ _ => rfl
    all_goals rfl

/-- **A parser runs out of fuel exactly if one that it calls does.** -/
theorem exhausts_succ (fuel : Nat) (a : Activation) :
    a.exhausts (fuel + 1) = (a.calls fuel).any (exhausts fuel) := by
  obtain ⟨procedure, c⟩ := a
  cases procedure with
  | program => exact tells_program
  | declaration => exact tells_declaration
  | declarations => exact tells_declarations
  | statement => exact tells_statement
  | block => exact tells_block
  | function kind name => exact tells_function kind name
  | classDecl keyword => exact tells_classDecl keyword
  | methods => exact tells_methods
  | parameters count => exact tells_parameters count
  | expression level => exact tells_expression level
  | operand => exact tells_operand
  | operators level left => exact tells_operators level left
  | unary op token => exact tells_unary op token
  | apply op token left => exact tells_apply op token left
  | arguments count => exact tells_arguments count
  | skip =>
    show false = (skipCalls c).any (exhausts fuel)
    unfold skipCalls
    split
    · split <;> rfl
    · rfl

end

/-! ## Tokens are passed -/

/-- How much the parser may still call at the cursor where it stands. -/
def Routine.rank : Routine → Nat
  | .program | .declarations => 5
  | .declaration | .methods => 4
  | .statement | .function | .classDecl => 3
  | .block | .expression => 2
  | .operand | .operators | .apply | .parameters => 1
  | .unary | .arguments | .skip => 0

namespace Activation

/-- What gets smaller with every call. -/
def weight (a : Activation) : Nat := 4 * a.cursor.rest.length + a.procedure.routine.rank

/-- A parser that has been called because of the current token stands on one. -/
def Ready (a : Activation) : Prop :=
  match a.procedure.routine with
  | .unary | .apply | .arguments | .block => 0 < a.cursor.rest.length
  | _ => True

/-- All the calls stand on a token if they must, and weigh less than `n`. -/
def Below (n : Nat) (calls : List Activation) : Prop := ∀ b ∈ calls, b.Ready ∧ b.weight < n

end Activation

section

variable {α : Type} {fuel n : Nat} {c : Cursor}

theorem below_nil : Below n [] := List.forall_mem_nil _

theorem below_single {b : Activation} (hr : b.Ready) (hm : b.weight < n) : Below n [b] :=
  List.forall_mem_singleton.2 ⟨hr, hm⟩

theorem below_append {first rest : List Activation} (h : Below n first) (h' : Below n rest) :
    Below n (first ++ rest) := List.forall_mem_append.2 ⟨h, h'⟩

theorem below_andThen {p : Parser α} (hp : p.Forward) {calls : α → Cursor → List Activation}
    (h : ∀ a c', p c = .ok a c' → c'.rest.length ≤ c.rest.length → Below n (calls a c')) :
    Below n ((p c).andThen calls) := by
  cases hr : p c with
  | ok a c' => exact h a c' hr (hp.ok hr).length_le
  | failed c' => exact below_nil
  | exhausted => exact below_nil

theorem below_ite {b : Bool} {calls calls' : List Activation} (h : b = true → Below n calls)
    (h' : Below n calls') : Below n (if b then calls else calls') := by
  cases b
  · exact h'
  · exact h rfl

theorem below_expressionAt (h : 4 * c.rest.length + 2 < n) : Below n [expressionAt c] :=
  below_single trivial h

theorem below_varDecl (h : 4 * c.rest.length + 2 < n) : Below n (varDeclCalls c) := by
  refine below_andThen (forward_expect _ _) fun _ c₁ _ hc₁ => below_ite (fun _ => ?_) below_nil
  have hl := length_advance c₁
  have hl' := length_advance c₁.advance
  exact below_expressionAt (by omega)

theorem below_condition (opening : SyntaxFault) (h : 4 * c.rest.length + 2 < n) :
    Below n (conditionCalls opening c) := by
  refine below_andThen (forward_expect _ _) fun _ c₁ _ hc₁ => ?_
  have hl := length_advance c₁
  exact below_expressionAt (by omega)

theorem below_forInitializer (h : 4 * c.rest.length + 2 < n) :
    Below n (forInitializerCalls c) := by
  unfold forInitializerCalls
  split
  · split
    · exact below_nil
    · exact below_varDecl h
    · exact below_expressionAt h
  · exact below_expressionAt h

theorem below_forClause (ending : Kind) (h : 4 * c.rest.length + 2 < n) :
    Below n (forClauseCalls ending c) := by
  unfold forClauseCalls
  split
  · exact below_nil
  · exact below_expressionAt h

theorem below_for (h : 4 * c.rest.length + 3 ≤ n) : Below n (forCalls fuel c) := by
  refine below_andThen (forward_expect _ _) fun _ c₁ h₁ _ => ?_
  have hc₁ := length_of_expect_ok h₁
  have hl₁ := length_advance c₁
  refine below_append (below_forInitializer (by omega)) ?_
  refine below_andThen (forInitializer_forward fuel) fun _ c₂ _ hc₂ => ?_
  have hl₂ := length_advance c₂
  refine below_append (below_forClause _ (by omega)) ?_
  refine below_andThen (forClause_forward fuel _ _) fun _ c₃ _ hc₃ => ?_
  have hl₃ := length_advance c₃
  refine below_append (below_forClause _ (by omega)) ?_
  refine below_andThen (forClause_forward fuel _ _) fun _ c₄ _ hc₄ => ?_
  have hl₄ := length_advance c₄
  exact below_single trivial (show 4 * c₄.advance.rest.length + 3 < n by omega)

theorem below_statement : Below (weight ⟨.statement, c⟩) (statementCalls fuel c) := by
  have hm : weight ⟨.statement, c⟩ = 4 * c.rest.length + 3 := rfl
  have hl := length_advance c
  rw [hm]
  unfold statementCalls
  split
  · exact below_expressionAt (by omega)
  · rename_i t ht
    have hc := length_of_current ht
    -- a later statement stands behind a token that has been passed
    have hlater : ∀ c' : Cursor, c'.rest.length ≤ c.rest.length →
        Below (4 * c.rest.length + 3) [⟨.statement, c'.advance⟩] := by
      intro c' hc'
      have hl' := length_advance c'
      exact below_single trivial (show 4 * c'.advance.rest.length + 3 < _ by omega)
    split
    · exact below_for (Nat.le_refl _)
    · refine below_append (below_condition _ (by omega)) ?_
      refine below_andThen (condition_forward fuel _ _) fun _ c₁ _ hc₁ => ?_
      have hl₁ := length_advance c₁
      refine below_append (hlater c₁ hc₁) ?_
      refine below_andThen (stmtForward fuel).statement fun _ c₂ _ hc₂ => ?_
      have hl₂ := length_advance c₂
      exact below_ite (fun _ => hlater c₂.advance (by omega)) below_nil
    · exact below_expressionAt (by omega)
    · split
      · exact below_nil
      · exact below_expressionAt (by omega)
    · refine below_append (below_condition _ (by omega)) ?_
      exact below_andThen (condition_forward fuel _ _) fun _ c₁ _ hc₁ => hlater c₁ hc₁
    · exact below_single hc (show 4 * c.rest.length + 2 < _ by omega)
    · exact below_expressionAt (by omega)

theorem below_declaration : Below (weight ⟨.declaration, c⟩)
    (declaredCalls c ++ recoverCalls (declared fuel c)) := by
  have hw : weight ⟨.declaration, c⟩ = 4 * c.rest.length + 4 := rfl
  have hstmt : Below (4 * c.rest.length + 4) [⟨.statement, c⟩] :=
    below_single trivial (show 4 * c.rest.length + 3 < _ by omega)
  have hskip : ∀ c' : Cursor, c'.rest <:+ c.rest →
      Below (4 * c.rest.length + 4) [⟨.skip, c'⟩] := fun c' hc' =>
    below_single trivial (show 4 * c'.rest.length + 0 < _ by have := hc'.length_le; omega)
  rw [hw]
  refine below_append ?_ ?_
  · unfold declaredCalls
    split
    · split
      · exact below_single trivial (show 4 * c.rest.length + 3 < _ by omega)
      · refine below_andThen (forward_expect _ _) fun _ c₁ _ hc₁ => ?_
        exact below_single trivial (show 4 * c₁.rest.length + 3 < _ by omega)
      · exact below_varDecl (by omega)
      · exact hstmt
    · exact hstmt
  · have hforward := declared_forward (stmtForward fuel) c
    unfold recoverCalls
    cases hr : declared fuel c with
    | ok s c' =>
      rw [hr] at hforward
      exact below_ite (fun _ => hskip c' hforward) below_nil
    | failed c' =>
      rw [hr] at hforward
      exact hskip c' hforward
    | exhausted => exact below_nil

/-- A row goes on behind a token that has been passed. -/
theorem below_declarations {again : Procedure} (hr : again.routine.rank = 5)
    (hready : ∀ c, Ready ⟨again, c⟩) (hc : 0 < c.rest.length) :
    Below (weight ⟨again, c⟩) (declarationsCalls fuel again c) := by
  have hw : ∀ c, weight ⟨again, c⟩ = 4 * c.rest.length + 5 := fun c => by rw [weight, hr]
  rw [hw]
  refine below_append (below_single (b := ⟨.declaration, c⟩) trivial
    (show 4 * c.rest.length + 4 < _ by omega)) ?_
  refine below_andThen (stmtForward fuel).declaration fun _ c₁ _ hc₁ => ?_
  have hl := length_advance c₁
  exact below_single (hready _) (by rw [hw]; omega)

theorem below_function (kind : Callee) (name : Token) :
    Below (weight ⟨.function kind name, c⟩) (functionCalls fuel kind c) := by
  have hw : weight ⟨.function kind name, c⟩ = 4 * c.rest.length + 3 := rfl
  have hbody : ∀ c' : Cursor, c'.rest.length ≤ c.rest.length →
      Below (4 * c.rest.length + 3) (bodyCalls kind c') := by
    intro c' hc'
    refine below_andThen (forward_expect _ _) fun _ c₁ _ hc₁ => ?_
    refine below_andThen (forward_expect _ _) fun _ c₂ h₂ hc₂ => ?_
    exact below_single (length_of_expect_ok h₂).1 (show 4 * c₂.rest.length + 2 < _ by omega)
  rw [hw]
  refine below_andThen (forward_expect _ _) fun _ c₁ _ hc₁ => below_ite (fun _ => hbody c₁ hc₁) ?_
  refine below_append (below_single (b := ⟨.parameters 0, c₁⟩) trivial
    (show 4 * c₁.rest.length + 1 < _ by omega)) ?_
  exact below_andThen (parameters_forward fuel 0) fun _ c₂ _ hc₂ => hbody c₂ (by omega)

theorem below_classDecl (keyword : Token) :
    Below (weight ⟨.classDecl keyword, c⟩) (classCalls c) := by
  have hw : weight ⟨.classDecl keyword, c⟩ = 4 * c.rest.length + 3 := rfl
  have hbody : ∀ c' : Cursor, c'.rest.length ≤ c.rest.length →
      Below (4 * c.rest.length + 3) (classBodyCalls c') := by
    intro c' hc'
    refine below_andThen (forward_expect _ _) fun _ c₁ h₁ _ => ?_
    have hc₁ := length_of_expect_ok h₁
    have hl := length_advance c₁
    exact below_single trivial (show 4 * c₁.advance.rest.length + 4 < _ by omega)
  rw [hw]
  refine below_andThen (forward_expect _ _) fun _ c₁ _ hc₁ => below_ite (fun _ => ?_) (hbody c₁ hc₁)
  have hl := length_advance c₁
  exact below_andThen (forward_expect _ _) fun _ c₂ _ hc₂ => hbody c₂ (by omega)

theorem below_methods : Below (weight ⟨.methods, c⟩) (methodsCalls fuel c) := by
  have hw : weight ⟨.methods, c⟩ = 4 * c.rest.length + 4 := rfl
  rw [hw]
  unfold methodsCalls
  split
  · exact below_nil
  · rename_i t ht
    have hc := length_of_current ht
    split
    · refine below_append (below_single (b := ⟨.function .method t, c⟩) trivial
        (show 4 * c.rest.length + 3 < _ by omega)) ?_
      refine below_andThen ((stmtForward fuel).function _ _) fun _ c₁ _ hc₁ => ?_
      have hl := length_advance c₁
      exact below_single trivial (show 4 * c₁.advance.rest.length + 4 < _ by omega)
    · exact below_nil

theorem below_parameters (count : Nat) :
    Below (weight ⟨.parameters count, c⟩) (parametersCalls count c) := by
  have hw : weight ⟨.parameters count, c⟩ = 4 * c.rest.length + 1 := rfl
  rw [hw]
  refine below_andThen (forward_expect _ _) fun param c₁ h₁ _ => below_ite (fun _ => ?_) below_nil
  have hc₁ := length_of_expect_ok h₁
  have hl := length_limit count (.token param) .tooManyParameters c₁
  generalize limit count (.token param) .tooManyParameters c₁ = c₂ at hl ⊢
  have hl' := length_advance c₂
  exact below_single trivial (show 4 * c₂.advance.rest.length + 1 < _ by omega)

theorem below_expression (level : Precedence) :
    Below (weight ⟨.expression level, c⟩) (calls fuel ⟨.expression level, c⟩) := by
  have hoperand : Below (4 * c.rest.length + 2) [⟨.operand, c⟩] :=
    below_single trivial (show 4 * c.rest.length + 1 < _ by omega)
  refine below_append hoperand (below_andThen (exprForward fuel).operand fun left c₁ _ hc₁ => ?_)
  have hc₁ : c₁.rest.length ≤ c.rest.length := hc₁
  exact below_single trivial (show 4 * c₁.rest.length + 1 < 4 * c.rest.length + 2 by omega)

theorem below_operand : Below (weight ⟨.operand, c⟩) (operandCalls c) := by
  have hw : weight ⟨.operand, c⟩ = 4 * c.rest.length + 1 := rfl
  rw [hw]
  unfold operandCalls
  split
  · exact below_nil
  · rename_i t ht
    have hc := length_of_current ht
    have hl := length_advance c
    have hunary : ∀ op, Below (4 * c.rest.length + 1) [⟨.unary op t, c⟩] := fun op =>
      below_single hc (show 4 * c.rest.length + 0 < _ by omega)
    split
    · exact hunary .not
    · exact hunary .neg
    · exact below_expressionAt (by omega)
    · exact below_nil

theorem below_operators (level : Precedence) (left : Expr) :
    Below (weight ⟨.operators level left, c⟩) (operatorsCalls fuel level left c) := by
  have hw : weight ⟨.operators level left, c⟩ = 4 * c.rest.length + 1 := rfl
  rw [hw]
  unfold operatorsCalls
  split
  · exact below_nil
  · rename_i t ht
    have hc := length_of_next ht
    have hl := length_advance c
    split
    · exact below_nil
    · rename_i op _
      split
      · refine below_append (below_single (b := ⟨.apply op t left, c.advance⟩)
          (show 0 < c.advance.rest.length by omega)
          (show 4 * c.advance.rest.length + 1 < _ by omega)) ?_
        refine below_andThen ((exprForward fuel).apply _ _ _) fun left' c₁ _ hc₁ => ?_
        exact below_single trivial (show 4 * c₁.rest.length + 1 < _ by omega)
      · exact below_nil

theorem below_apply (op : Operator) (t : Token) (left : Expr) (hc : 0 < c.rest.length) :
    Below (weight ⟨.apply op t left, c⟩) (applyCalls op c) := by
  have hw : weight ⟨.apply op t left, c⟩ = 4 * c.rest.length + 1 := rfl
  have hl := length_advance c
  have hexpr : ∀ level, Below (4 * c.rest.length + 1) [⟨.expression level, c.advance⟩] :=
    fun level => below_single trivial (show 4 * c.advance.rest.length + 2 < _ by omega)
  rw [hw]
  cases op with
  | binary b => exact hexpr _
  | logical l => exact hexpr _
  | assign => exact hexpr _
  | call =>
    unfold applyCalls
    simp only
    split
    · exact below_nil
    · exact below_single hc (show 4 * c.rest.length + 0 < _ by omega)
  | get => exact below_nil

theorem below_arguments (count : Nat) (hc : 0 < c.rest.length) :
    Below (weight ⟨.arguments count, c⟩) (argumentsCalls fuel count c) := by
  have hw : weight ⟨.arguments count, c⟩ = 4 * c.rest.length + 0 := rfl
  have hl := length_advance c
  rw [hw]
  refine below_append (below_expressionAt (by omega)) ?_
  refine below_andThen ((exprForward fuel).expression _) fun _ c₁ _ hc₁ => ?_
  have hlimit := length_limit count (c₁.siteOf c₁.current?) .tooManyArguments c₁
  generalize limit count (c₁.siteOf c₁.current?) .tooManyArguments c₁ = c₂ at hlimit
  refine below_ite (fun hcomma => ?_) below_nil
  have hnext := length_of_nextIs hcomma
  have hl' := length_advance c₂
  exact below_single (show 0 < c₂.advance.rest.length by omega)
    (show 4 * c₂.advance.rest.length + 0 < _ by omega)

theorem below_skip : Below (weight ⟨.skip, c⟩) (skipCalls c) := by
  have hw : weight ⟨.skip, c⟩ = 4 * c.rest.length + 0 := rfl
  have hl := length_advance c
  rw [hw]
  unfold skipCalls
  split
  · rename_i t u rest hrest
    have hlen : c.rest.length = rest.length + 2 := by rw [hrest]; rfl
    split
    · exact below_nil
    · exact below_single trivial (show 4 * c.advance.rest.length + 0 < _ by omega)
  · exact below_nil

/-- **Calls weigh less.** -/
theorem calls_below (fuel : Nat) (a : Activation) (h : a.Ready) :
    Below a.weight (a.calls fuel) := by
  obtain ⟨procedure, c⟩ := a
  cases procedure with
  | program =>
    refine below_ite (fun hsome => ?_) below_nil
    obtain ⟨t, ht⟩ := Option.isSome_iff_exists.1 hsome
    exact below_declarations rfl (fun _ => trivial) (length_of_current ht)
  | declaration => exact below_declaration
  | declarations =>
    refine below_ite (fun hmore => ?_) below_nil
    obtain ⟨t, ht⟩ := Option.isSome_iff_exists.1 (Bool.and_eq_true_iff.1 hmore).1
    exact below_declarations rfl (fun _ => trivial) (length_of_current ht)
  | statement => exact below_statement
  | block =>
    have hl := length_advance c
    have hc : 0 < c.rest.length := h
    exact below_single trivial (show 4 * c.advance.rest.length + 5 < 4 * c.rest.length + 2 by omega)
  | function kind name => exact below_function kind name
  | classDecl keyword => exact below_classDecl keyword
  | methods => exact below_methods
  | parameters count => exact below_parameters count
  | expression level => exact below_expression level
  | operand => exact below_operand
  | operators level left => exact below_operators level left
  | unary op token =>
    have hl := length_advance c
    have hc : 0 < c.rest.length := h
    exact below_single trivial (show 4 * c.advance.rest.length + 2 < 4 * c.rest.length + 0 by omega)
  | apply op token left => exact below_apply op token left h
  | arguments count => exact below_arguments count h
  | skip => exact below_skip

end

namespace Activation

/-- The parser makes the call, with some fuel. -/
def Calls (a b : Activation) : Prop := ∃ fuel, b ∈ a.calls fuel

/-- A chain of `n` calls. -/
inductive Chain : Nat → Activation → Activation → Prop
  | here {a : Activation} : Chain 0 a a
  | call {n : Nat} {a b c : Activation} : Chain n a b → b.Calls c → Chain (n + 1) a c

theorem Chain.weight {n : Nat} {a b : Activation} (h : Chain n a b) (ha : a.Ready) :
    b.Ready ∧ b.weight + n ≤ a.weight := by
  induction h with
  | here => exact ⟨ha, Nat.le_refl _⟩
  | call _ hcall ih =>
    obtain ⟨fuel, hmem⟩ := hcall
    obtain ⟨hready, hle⟩ := ih ha
    obtain ⟨hready', hlt⟩ := calls_below fuel _ hready _ hmem
    exact ⟨hready', by omega⟩

theorem rank_le (r : Routine) : r.rank ≤ 5 := by cases r <;> decide

/-- A parser that has been called and that is called again has passed a token in between. -/
theorem Chain.passes {n : Nat} {a b : Activation} (h : Chain (n + 1) a b) (ha : a.Ready)
    (hsame : b.procedure.routine = a.procedure.routine) :
    b.cursor.rest.length < a.cursor.rest.length := by
  have hle := (h.weight ha).2
  unfold Activation.weight at hle
  rw [hsame] at hle
  omega

theorem Chain.length_le {n : Nat} {a b : Activation} (h : Chain n a b) (ha : a.Ready) :
    n ≤ 4 * a.cursor.rest.length + 5 := by
  have hle := (h.weight ha).2
  have hrank := rank_le a.procedure.routine
  unfold Activation.weight at hle
  omega

end Activation

/-- A program that has been parsed has been parsed to its end. -/
theorem program_rest : ∀ {fuel : Nat} {c c' : Cursor} {statements : List Stmt},
    program fuel c = .ok statements c' → c'.rest = []
  | 0, _, _, _, h => by cases h
  | fuel + 1, c, c', statements, h => by
    rw [program_eq] at h
    split at h
    · rename_i hnone
      cases h
      exact List.head?_eq_none_iff.1 hnone
    · obtain ⟨s, c₁, -, h⟩ := bind_ok h
      rw [advance_bind] at h
      obtain ⟨more, c₂, hmore, ⟨⟩⟩ := bind_ok h
      exact program_rest hmore

/-- Skipping is done where it calls nothing, and goes on where it calls itself. -/
theorem skip_cases (fuel : Nat) (c : Cursor) :
    calls fuel ⟨.skip, c⟩ = [] ∧ skipStatement c.rest = c.rest ∨
      ∃ b, calls fuel ⟨.skip, c⟩ = [b] ∧ skipStatement c.rest = skipStatement b.cursor.rest := by
  show skipCalls c = [] ∧ _ ∨ ∃ b, skipCalls c = [b] ∧ _
  unfold skipCalls
  rcases hrest : c.rest with _ | ⟨t, _ | ⟨u, rest⟩⟩
  · exact .inl ⟨rfl, rfl⟩
  · exact .inl ⟨rfl, rfl⟩
  · simp only [skipStatement]
    split
    · exact .inl ⟨rfl, rfl⟩
    · exact .inr ⟨_, rfl, by simp [Cursor.advance, hrest]⟩

end Parser

/-! ## The end of scanning and parsing -/

theorem Tile.bytes_ne_nil {tile : Tile} {rest : Bytes} (h : tile.Fits rest) : tile.bytes ≠ [] := by
  cases tile with
  | blank b => exact List.cons_ne_nil _ _
  | stray b => exact List.cons_ne_nil _ _
  | comment text =>
    rintro rfl
    obtain ⟨more, hmore⟩ := h.1
    cases hmore
  | lexeme kind text => exact h.1.ne_nil
  | openString text =>
    obtain ⟨-, body, rfl, -⟩ := h
    exact List.cons_ne_nil _ _

theorem Tiling.length_le {tiles : List Tile} {source : Bytes} (h : Tiling tiles source) :
    (∀ tile ∈ tiles, tile.bytes ≠ []) ∧ tiles.length ≤ source.length := by
  induction h with
  | nil => exact ⟨List.forall_mem_nil _, Nat.le_refl _⟩
  | @cons tile tiles rest hfits _ ih =>
    have hne := Tile.bytes_ne_nil hfits
    have hpos := List.length_pos_of_ne_nil hne
    refine ⟨List.forall_mem_cons.2 ⟨hne, ih.1⟩, ?_⟩
    rw [List.length_cons, List.length_append]
    omega

theorem Tile.length_lined (read : Bytes) (tiles : List Tile) :
    (lined read tiles).length = tiles.length := by
  induction tiles generalizing read with
  | nil => rfl
  | cons tile tiles ih => rw [lined, List.length_cons, List.length_cons, ih]

/-- Every tile of a text takes at least one byte and brings at most one token. -/
theorem Scan.exists_tiles (source : Bytes) : ∃ tiles, Tiling tiles source ∧
    (∀ tile ∈ tiles, tile.bytes ≠ []) ∧ (Scan.ofBytes source).tokens.length ≤ tiles.length ∧
      tiles.length ≤ source.length := by
  obtain ⟨tiles, htiles⟩ := exists_tiling source
  refine ⟨tiles, htiles, htiles.length_le.1, ?_, htiles.length_le.2⟩
  rw [htiles.ofBytes, ← Tile.length_lined [] tiles]
  exact List.length_filterMap_le _ _

open Parser.Activation (Chain)

/-- **Scanning and parsing end.** For every text: the scanner cuts it into tiles that take at least
one byte each. What each part of the parser calls, itself included, is told by `calls`: a part runs
out of fuel exactly if one that it calls does. In the parse of the text, a part that comes back to
itself, by a loop or by recursion, has fewer tokens left than before, and no chain of calls is
longer than four times the tokens that are left, and five. So with fuel linear in the number of
tokens the parser comes to the end of the input, and more fuel does not change the result. -/
theorem Program.parsing_ends (source : Bytes) :
    let scan := Scan.ofBytes source
    let start := start scan.tokens scan.endLine
    let program := ofTokens scan.tokens scan.endLine
    (∃ tiles, Tiling tiles source ∧ (∀ tile ∈ tiles, tile.bytes ≠ []) ∧
      scan.tokens.length ≤ tiles.length ∧ tiles.length ≤ source.length) ∧
    (∀ fuel (a : Parser.Activation),
      a.exhausts (fuel + 1) = (a.calls fuel).any (Parser.Activation.exhausts fuel)) ∧
    (∀ fuel c, Parser.Activation.calls fuel ⟨.skip, c⟩ = [] ∧
        Parser.skipStatement c.rest = c.rest ∨
      ∃ b, Parser.Activation.calls fuel ⟨.skip, c⟩ = [b] ∧
        Parser.skipStatement c.rest = Parser.skipStatement b.cursor.rest) ∧
    (∀ j a, Chain j ⟨.program, start⟩ a →
      (∀ k b, Chain (k + 1) a b → b.procedure.routine = a.procedure.routine →
        b.cursor.rest.length < a.cursor.rest.length) ∧
      ∀ k b, Chain k a b → k ≤ 4 * a.cursor.rest.length + 5) ∧
    ∀ fuel, 4 * scan.tokens.length + 5 ≤ fuel → ∃ c,
      Parser.program fuel start = .ok program.statements c ∧ c.rest = [] ∧
        c.errors.reverse = program.errors := by
  intro scan start program
  refine ⟨Scan.exists_tiles source, Parser.exhausts_succ, Parser.skip_cases, fun j a hj => ?_,
    fun fuel hfuel => ?_⟩
  · have ha : a.Ready := (hj.weight trivial).1
    exact ⟨fun k b hk hsame => hk.passes ha hsame, fun k b hk => hk.length_le ha⟩
  · have hends := Parser.program_ends fuel start hfuel
    have hne : Parser.program fuel start ≠ .exhausted := fun he => by rw [he] at hends; exact hends
    obtain ⟨c, hc, herrors⟩ := Parser.program_resumes (c := start) rfl hne
    refine ⟨c, hc, Parser.program_rest hc, ?_⟩
    rw [herrors]
    exact (List.reverse_append ..).trans (by rw [List.reverse_reverse]; rfl)

end Lox
