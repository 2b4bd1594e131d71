import Lox.Parse.Program
/-!
# The parsers at a cursor

One equation for each parser that looks at the cursor before it goes on: what it does with a
given cursor, with the look-ahead already made. Proofs about the parser split these equations
and never unfold the parsers themselves.
-/

namespace Lox.Parser

variable {α β : Type} {fuel : Nat} {c : Cursor}

theorem bind_apply (p : Parser α) (f : α → Parser β) (c : Cursor) :
    (p >>= f) c = match p c with
      | .ok a c' => f a c'
      | .failed c' => .failed c'
      | .exhausted => .exhausted := rfl

theorem cursor_bind (f : Cursor → Parser β) (c : Cursor) : (cursor >>= f) c = f c c := rfl

theorem advance_bind (f : Unit → Parser β) (c : Cursor) : (advance >>= f) c = f () c.advance := rfl

theorem report_bind (site : Site) (fault : SyntaxFault) (f : Unit → Parser β) (c : Cursor) :
    (report site fault >>= f) c = f () (c.report site fault) := rfl

theorem nextIs_bind (kind : Kind) (f : Bool → Parser β) (c : Cursor) :
    (nextIs kind >>= f) c = f (c.nextIs kind) c := rfl

theorem currentIs_bind (kind : Kind) (f : Bool → Parser β) (c : Cursor) :
    (currentIs kind >>= f) c = f (c.currentIs kind) c := rfl

theorem bind_ok {p : Parser α} {f : α → Parser β} {b : β} {c' : Cursor}
    (h : (p >>= f) c = .ok b c') : ∃ a c₁, p c = .ok a c₁ ∧ f a c₁ = .ok b c' := by
  rw [bind_apply] at h
  cases hp : p c with
  | ok a c₁ => rw [hp] at h; exact ⟨a, c₁, rfl, h⟩
  | failed c₁ => rw [hp] at h; cases h
  | exhausted => rw [hp] at h; cases h

theorem bind_failed {p : Parser α} {f : α → Parser β} {c' : Cursor}
    (h : (p >>= f) c = .failed c') :
    p c = .failed c' ∨ ∃ a c₁, p c = .ok a c₁ ∧ f a c₁ = .failed c' := by
  rw [bind_apply] at h
  cases hp : p c with
  | ok a c₁ => rw [hp] at h; exact .inr ⟨a, c₁, rfl, h⟩
  | failed c₁ => rw [hp] at h; cases h; exact .inl rfl
  | exhausted => rw [hp] at h; cases h

theorem bind_of_ok {p : Parser α} {f : α → Parser β} {a : α} {c₁ : Cursor}
    (h : p c = .ok a c₁) : (p >>= f) c = f a c₁ := by rw [bind_apply, h]

theorem bind_congr_apply {p : Parser α} {f g : α → Parser β} (h : ∀ a c', f a c' = g a c') :
    (p >>= f) c = (p >>= g) c := by
  rw [bind_apply, bind_apply]
  cases p c with
  | ok a c' => exact h a c'
  | failed c' => rfl
  | exhausted => rfl

theorem rest_of_current {t : Token} (h : c.current? = some t) : c.rest = t :: c.rest.tail := by
  cases hc : c.rest with
  | nil => simp [Cursor.current?, hc] at h
  | cons u rest =>
    simp only [Cursor.current?, hc, List.head?_cons, Option.some.injEq] at h
    simp [h]

theorem tail_of_next {t : Token} (h : c.next? = some t) :
    c.rest.tail = t :: c.advance.rest.tail := by
  cases hc : c.rest.tail with
  | nil => simp [Cursor.next?, hc] at h
  | cons u rest =>
    simp only [Cursor.next?, hc, List.head?_cons, Option.some.injEq] at h
    simp [Cursor.advance, hc, h]

theorem next_of_nextIs {kind : Kind} (h : c.nextIs kind = true) :
    ∃ t, c.next? = some t ∧ t.kind = kind := by
  cases hn : c.next? with
  | none => simp [Cursor.nextIs, hn] at h
  | some t => exact ⟨t, rfl, by simpa [Cursor.nextIs, hn] using h⟩

theorem current_of_currentIs {kind : Kind} (h : c.currentIs kind = true) :
    ∃ t, c.current? = some t ∧ t.kind = kind := by
  cases hn : c.current? with
  | none => simp [Cursor.currentIs, hn] at h
  | some t => exact ⟨t, rfl, by simpa [Cursor.currentIs, hn] using h⟩

/-- `expect` passes one token and stands on it. -/
theorem expect_ok {kind : Kind} {fault : SyntaxFault} {c c' : Cursor} {t : Token}
    (h : expect kind fault c = .ok t c') :
    t.kind = kind ∧ c' = c.advance ∧ c.rest.tail = t :: c'.rest.tail := by
  unfold expect at h
  split at h
  · rename_i u hu
    split at h
    · rename_i hk
      obtain ⟨rfl, rfl⟩ : u = t ∧ c.advance = c' := by simpa using h
      refine ⟨by simpa using hk, rfl, ?_⟩
      cases ht : c.rest.tail with
      | nil => simp [Cursor.next?, ht] at hu
      | cons v rest => simp_all [Cursor.next?, Cursor.advance]
    · simp at h
  · simp at h

theorem expect_of_next {kind : Kind} {fault : SyntaxFault} {t : Token} (h : c.next? = some t)
    (hk : t.kind = kind) : expect kind fault c = .ok t c.advance := by
  simp [expect, h, hk]

/-! ## Expressions -/

theorem expression_eq (level : Precedence) :
    expression (fuel + 1) level c = (operand fuel >>= operators fuel level) c := by
  rw [expression]

theorem operand_eq : operand (fuel + 1) c =
    match c.current? with
    | none => failHere .expression c
    | some t =>
      match t.kind with
      | .ident => .ok (.var ⟨t, none⟩) c
      | .number => .ok (.literal t (.number (Token.numberValue t.lexeme))) c
      | .string => .ok (.literal t (.string (Token.stringValue t.lexeme))) c
      | .kwTrue => .ok (.literal t (.bool true)) c
      | .kwFalse => .ok (.literal t (.bool false)) c
      | .kwNil => .ok (.literal t .nil) c
      | .bang => unary fuel .not t c
      | .minus => unary fuel .neg t c
      | .leftParen => (expression fuel .lowest >>= fun inner =>
          expect .rightParen .groupClose >>= fun _ => pure (.grouping t inner)) c.advance
      | .kwThis => .ok (.this ⟨t, none⟩) c
      | .kwSuper => (expect .dot .superDot >>= fun _ => expect .ident .superMethod >>= fun m =>
          pure (.super ⟨t, none⟩ m)) c
      | _ => failHere .expression c := by
  rw [operand, cursor_bind]
  cases c.current? with
  | none => rfl
  | some t =>
    simp only
    cases t.kind <;> rfl

theorem unary_eq (op : UnaryOp) (t : Token) : unary (fuel + 1) op t c =
    (expression fuel .unary >>= fun e => pure (.unary op t e)) c.advance := by
  rw [unary]; rfl

theorem operators_eq (level : Precedence) (left : Expr) : operators (fuel + 1) level left c =
    match c.next? with
    | none => .ok left c
    | some t =>
      match Operator.ofKind? t.kind with
      | none => .ok left c
      | some op =>
        if level.rank < op.precedence.rank then
          (apply fuel op t left >>= operators fuel level) c.advance
        else .ok left c := by
  rw [operators, cursor_bind]
  cases c.next? with
  | none => rfl
  | some t =>
    simp only
    cases Operator.ofKind? t.kind with
    | none => rfl
    | some op => simp only; split <;> rfl

theorem apply_binary (b : BinaryOp) (t : Token) (left : Expr) :
    apply (fuel + 1) (.binary b) t left c =
      (expression fuel (Operator.binary b).precedence >>= fun e =>
        pure (.binary b t left e)) c.advance := by
  rw [apply]; rfl

theorem apply_logical (l : LogicalOp) (t : Token) (left : Expr) :
    apply (fuel + 1) (.logical l) t left c =
      (expression fuel (Operator.logical l).precedence >>= fun e =>
        pure (.logical l t left e)) c.advance := by
  rw [apply]; rfl

/-- What an assignment to `left` becomes. -/
def assignment (t : Token) (left value : Expr) : Parser Expr := fun c =>
  match left with
  | .var ref => .ok (.assign ref value) c
  | .get object name => .ok (.set object name value) c
  | _ => .ok left (c.report (.token t) .invalidTarget)

theorem apply_assign (t : Token) (left : Expr) :
    apply (fuel + 1) .assign t left c =
      (expression fuel .lowest >>= assignment t left) c.advance := by
  rw [apply]
  refine bind_congr_apply (c := c.advance) fun e c' => ?_
  cases left <;> rfl

theorem apply_call (t : Token) (left : Expr) :
    apply (fuel + 1) .call t left c =
      if c.nextIs .rightParen then
        (expect .rightParen .argumentsClose >>= fun paren => pure (.call paren left [])) c
      else
        (arguments fuel 0 >>= fun args => expect .rightParen .argumentsClose >>= fun paren =>
          pure (.call paren left args)) c := by
  rw [apply, nextIs_bind]
  split <;> rfl

theorem apply_get (t : Token) (left : Expr) :
    apply (fuel + 1) .get t left c =
      (expect .ident .propertyName >>= fun name => pure (.get left name)) c := by
  rw [apply]; rfl

/-- The cursor after an item of which `count` stand before it. -/
def limit (count : Nat) (site : Site) (fault : SyntaxFault) (c : Cursor) : Cursor :=
  if maxArguments ≤ count then c.report site fault else c

/-- What follows an argument. -/
def afterArgument (fuel count : Nat) (arg : Expr) : Parser (List Expr) := fun c =>
  let c := limit count (c.siteOf c.current?) .tooManyArguments c
  if c.nextIs .comma then
    (arguments fuel (count + 1) >>= fun more => pure (arg :: more)) c.advance
  else .ok [arg] c

theorem arguments_eq (count : Nat) : arguments (fuel + 1) count c =
    (expression fuel .lowest >>= afterArgument fuel count) c.advance := by
  rw [arguments]
  refine bind_congr_apply (c := c.advance) fun arg c₁ => ?_
  simp only [afterArgument, limit]
  split
  · rw [cursor_bind, report_bind, nextIs_bind]
    split <;> rfl
  · rw [nextIs_bind]
    split <;> rfl

/-! ## Pieces of statements -/

/-- What follows a parameter. -/
def afterParameter (fuel count : Nat) (param : Token) : Parser (List Token) := fun c =>
  let c := limit count (.token param) .tooManyParameters c
  if c.nextIs .comma then
    (parameters fuel (count + 1) >>= fun more => pure (param :: more)) c.advance
  else .ok [param] c

theorem parameters_eq (count : Nat) : parameters (fuel + 1) count c =
    (expect .ident .parameterName >>= afterParameter fuel count) c := by
  rw [parameters]
  refine bind_congr_apply fun param c₁ => ?_
  simp only [afterParameter, limit]
  split
  · rw [report_bind, nextIs_bind]
    split <;> rfl
  · rw [nextIs_bind]
    split <;> rfl

/-- What follows the name in a variable declaration. -/
def afterVarName (fuel : Nat) (keyword name : Token) : Parser Stmt := fun c =>
  if c.nextIs .assign then
    (expression fuel .lowest >>= fun e => expect .semicolon .variableEnd >>= fun _ =>
      pure (.varDecl keyword name (some e))) c.advance.advance
  else (expect .semicolon .variableEnd >>= fun _ => pure (.varDecl keyword name none)) c

theorem varDecl_eq (keyword : Token) : varDecl fuel keyword c =
    (expect .ident .variableName >>= afterVarName fuel keyword) c := by
  rw [varDecl]
  refine bind_congr_apply fun name c₁ => ?_
  simp only [afterVarName]
  rw [nextIs_bind]
  split
  · exact bind_congr_apply (c := c₁.advance.advance) fun e c₂ => rfl
  · rfl

theorem exprStmt_eq : exprStmt fuel c =
    (expression fuel .lowest >>= fun e => expect .semicolon .expressionEnd >>= fun _ =>
      pure (.expr (c.current?.getD e.token) e)) c := rfl

theorem printStmt_eq (keyword : Token) : printStmt fuel keyword c =
    (expression fuel .lowest >>= fun e => expect .semicolon .printEnd >>= fun _ =>
      pure (.print keyword e)) c.advance := rfl

theorem returnStmt_eq (keyword : Token) : returnStmt fuel keyword c =
    if c.nextIs .semicolon then
      (expect .semicolon .returnEnd >>= fun _ => pure (.ret keyword none)) c
    else
      (expression fuel .lowest >>= fun e => expect .semicolon .returnEnd >>= fun _ =>
        pure (.ret keyword (some e))) c.advance := by
  rw [returnStmt, nextIs_bind]
  split
  · rfl
  · exact bind_congr_apply (c := c.advance) fun e c₁ => rfl

theorem forInitializer_eq : forInitializer fuel c =
    match c.current? with
    | some t =>
      match t.kind with
      | .semicolon => .ok none c
      | .kwVar => (varDecl fuel t >>= fun s => pure (some s)) c
      | _ => (exprStmt fuel >>= fun s => pure (some s)) c
    | none => (exprStmt fuel >>= fun s => pure (some s)) c := by
  rw [forInitializer, cursor_bind]
  cases c.current? with
  | none => rfl
  | some t =>
    simp only
    cases t.kind <;> rfl

theorem forClause_eq (ending : Kind) (fault : SyntaxFault) : forClause fuel ending fault c =
    if c.currentIs ending then .ok none c
    else (expression fuel .lowest >>= fun e => expect ending fault >>= fun _ =>
      pure (some e)) c := by
  rw [forClause, currentIs_bind]
  split <;> rfl

/-! ## Statements and declarations -/

/-- What follows the first branch of an `if`. -/
def afterYes (fuel : Nat) (keyword : Token) (cond : Expr) (yes : Stmt) : Parser Stmt := fun c =>
  if c.nextIs .kwElse then
    (statement fuel >>= fun no => pure (.ifElse keyword cond yes (some no))) c.advance.advance
  else .ok (.ifElse keyword cond yes none) c

/-- A block as a statement, known by the token that ends it. -/
def blockStmt (opening : Token) (body : List Stmt) : Parser Stmt := fun c =>
  .ok (.block (c.current?.getD opening) body) c

theorem statement_eq : statement (fuel + 1) c =
    match c.current? with
    | none => exprStmt fuel c
    | some t =>
      match t.kind with
      | .kwFor => (do
          let _ ← expect .leftParen .forOpen
          advance
          let init ← forInitializer fuel
          advance
          let cond ← forClause fuel .semicolon .loopConditionEnd
          advance
          let increment ← forClause fuel .rightParen .forClose
          advance
          let body ← statement fuel
          pure (.forLoop t init cond increment body) : Parser Stmt) c
      | .kwIf => (do
          let cond ← condition fuel .ifOpen .ifClose
          advance
          let yes ← statement fuel
          afterYes fuel t cond yes : Parser Stmt) c
      | .kwPrint => printStmt fuel t c
      | .kwReturn => returnStmt fuel t c
      | .kwWhile => (do
          let cond ← condition fuel .whileOpen .whileClose
          advance
          let body ← statement fuel
          pure (.loop t cond body) : Parser Stmt) c
      | .leftBrace => (block fuel >>= blockStmt t) c
      | _ => exprStmt fuel c := by
  rw [statement, cursor_bind]
  cases c.current? with
  | none => rfl
  | some t =>
    simp only
    cases t.kind
    case kwIf =>
      refine bind_congr_apply fun cond c₁ => ?_
      refine bind_congr_apply (c := c₁.advance) fun yes c₂ => ?_
      simp only [afterYes]
      rw [nextIs_bind]
      split <;> rfl
    all_goals rfl

/-- A `for` loop after its third clause. -/
def forBody (fuel : Nat) (t : Token) (init : Option Stmt) (cond step : Option Expr) :
    Parser Stmt := do
  advance
  let body ← statement fuel
  pure (.forLoop t init cond step body)

/-- A `for` loop after its second clause. -/
def forStep (fuel : Nat) (t : Token) (init : Option Stmt) (cond : Option Expr) : Parser Stmt := do
  advance
  let step ← forClause fuel .rightParen .forClose
  forBody fuel t init cond step

/-- A `for` loop after its first clause. -/
def forCond (fuel : Nat) (t : Token) (init : Option Stmt) : Parser Stmt := do
  advance
  let cond ← forClause fuel .semicolon .loopConditionEnd
  forStep fuel t init cond

/-- A `for` loop after its opening parenthesis. -/
def forInit (fuel : Nat) (t : Token) : Parser Stmt := do
  advance
  let init ← forInitializer fuel
  forCond fuel t init

theorem statement_for {t : Token} (hc : c.current? = some t) (hk : t.kind = .kwFor) (fuel : Nat) :
    statement (fuel + 1) c = (expect .leftParen .forOpen >>= fun _ => forInit fuel t) c := by
  rw [statement_eq, hc]
  simp only [hk]
  rfl

theorem statement_if {t : Token} (hc : c.current? = some t) (hk : t.kind = .kwIf) (fuel : Nat) :
    statement (fuel + 1) c = (condition fuel .ifOpen .ifClose >>= fun cond =>
      advance >>= fun _ => statement fuel >>= afterYes fuel t cond) c := by
  rw [statement_eq, hc]
  simp only [hk]

theorem statement_while {t : Token} (hc : c.current? = some t) (hk : t.kind = .kwWhile)
    (fuel : Nat) :
    statement (fuel + 1) c = (condition fuel .whileOpen .whileClose >>= fun cond =>
      advance >>= fun _ => statement fuel >>= fun body => pure (.loop t cond body)) c := by
  rw [statement_eq, hc]
  simp only [hk]

/-- The end of a block. -/
def closeBlock (body : List Stmt) : Parser (List Stmt) := fun c =>
  if c.currentIs .rightBrace then .ok body c
  else .ok body (c.panic (c.siteOf c.current?) .blockClose)

theorem block_eq : block (fuel + 1) c = (declarations fuel >>= closeBlock) c.advance := by
  rw [block]
  refine bind_congr_apply (c := c.advance) fun body c₁ => ?_
  simp only [closeBlock]
  rw [currentIs_bind]
  cases c₁.currentIs .rightBrace <;> rfl

theorem declarations_eq : declarations (fuel + 1) c =
    match c.current? with
    | none => .ok [] c
    | some t =>
      if t.kind == .rightBrace then .ok [] c
      else (do
        let s ← declaration fuel
        advance
        let more ← declarations fuel
        pure (s.toList ++ more) : Parser (List Stmt)) c := by
  rw [declarations, cursor_bind]
  cases c.current? with
  | none => rfl
  | some t =>
    simp only
    split <;> rfl

theorem program_eq : program (fuel + 1) c =
    match c.current? with
    | none => .ok [] c
    | some _ => (do
        let s ← declaration fuel
        advance
        let more ← program fuel
        pure (s.toList ++ more) : Parser (List Stmt)) c := by
  rw [program, cursor_bind]
  cases c.current? <;> rfl

/-- A declaration before any recovery. -/
def declared (fuel : Nat) : Parser Stmt := fun c =>
  match c.current? with
  | some t =>
    match t.kind with
    | .kwClass => classDecl fuel t c
    | .kwFun => (expect .ident .functionName >>= fun name =>
        function fuel .function name >>= fun f => pure (.funDecl f)) c
    | .kwVar => varDecl fuel t c
    | _ => statement fuel c
  | none => statement fuel c

theorem declaration_eq : declaration (fuel + 1) c = recover (declared fuel) c := by
  rw [declaration]
  unfold recover declared
  rw [cursor_bind]
  cases c.current? with
  | none => rfl
  | some t =>
    simp only
    cases t.kind <;> rfl

/-- A function after its parameters. -/
def functionBody (fuel : Nat) (kind : Callee) (name : Token) (params : List Token) :
    Parser FunDecl := do
  let _ ← expect .rightParen .parametersClose
  let _ ← expect .leftBrace (.bodyOpen kind)
  let body ← block fuel
  pure (.mk name params body)

/-- A function after its opening parenthesis. -/
def functionRest (fuel : Nat) (kind : Callee) (name : Token) : Parser FunDecl := fun c =>
  if c.nextIs .rightParen then functionBody fuel kind name [] c
  else (parameters fuel 0 >>= functionBody fuel kind name) c

theorem function_eq (kind : Callee) (name : Token) : function (fuel + 1) kind name c =
    (expect .leftParen (.parametersOpen kind) >>= fun _ => functionRest fuel kind name) c := by
  rw [function]
  refine bind_congr_apply fun _ c₁ => ?_
  simp only [functionRest]
  rw [nextIs_bind]
  split <;> rfl

/-- The end of a class. -/
def closeClass (keyword name : Token) (superclass : Option Ref) (methods : List FunDecl) :
    Parser Stmt := fun c =>
  if c.currentIs .rightBrace then .ok (.classDecl keyword name superclass methods) c
  else failHere .classClose c

/-- A class after its name and superclass. -/
def classBody (fuel : Nat) (keyword name : Token) (superclass : Option Ref) : Parser Stmt := do
  let _ ← expect .leftBrace .classOpen
  advance
  let methods ← methods fuel
  closeClass keyword name superclass methods

/-- A class after its name. -/
def afterClassName (fuel : Nat) (keyword name : Token) : Parser Stmt := fun c =>
  if c.nextIs .less then
    (expect .ident .superclassName >>= fun t =>
      classBody fuel keyword name (some ⟨t, none⟩)) c.advance
  else classBody fuel keyword name none c

theorem classDecl_eq (keyword : Token) : classDecl (fuel + 1) keyword c =
    (expect .ident .className >>= afterClassName fuel keyword) c := by
  have tail : ∀ name superclass c₁, (do
      let _ ← expect .leftBrace .classOpen
      advance
      let methods ← methods fuel
      if ← currentIs .rightBrace then return Stmt.classDecl keyword name superclass methods
      else failHere .classClose : Parser Stmt) c₁ = classBody fuel keyword name superclass c₁ := by
    intro name superclass c₁
    refine bind_congr_apply fun _ c₂ => ?_
    refine bind_congr_apply (c := c₂.advance) fun methods c₃ => ?_
    simp only [closeClass]
    rw [currentIs_bind]
    split <;> rfl
  rw [classDecl]
  refine bind_congr_apply fun name c₁ => ?_
  simp only [afterClassName]
  rw [nextIs_bind]
  split
  · exact bind_congr_apply (c := c₁.advance) fun t c₂ => tail name _ c₂
  · exact tail name none c₁

theorem methods_eq : methods (fuel + 1) c =
    match c.current? with
    | none => .ok [] c
    | some t =>
      match t.kind with
      | .rightBrace => .ok [] c
      | .ident => (do
          let method ← function fuel .method t
          advance
          let more ← methods fuel
          pure (method :: more) : Parser (List FunDecl)) c
      | _ => failHere .methodName c := by
  rw [methods, cursor_bind]
  cases c.current? with
  | none => rfl
  | some t =>
    simp only
    cases t.kind <;> rfl

end Lox.Parser
