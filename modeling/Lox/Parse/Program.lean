import Lox.Parse.Expression
/-!
# Parsing statements and programs

Like the parsers of expressions, these start on the first token of their phrase and end on the
last one. A declaration that cannot be parsed is dropped, and parsing goes on at the next place
that looks like the start of a statement.
-/

namespace Lox

/-- Whether a token of this kind starts a statement that an error cannot run past. -/
def Kind.startsStatement : Kind → Bool
  | .kwClass | .kwFun | .kwVar | .kwFor | .kwIf | .kwWhile | .kwPrint | .kwReturn => true
  | _ => false

namespace Parser

/-- Skips to a semicolon, or to the token before one that starts a statement or before the
end. -/
def skipStatement : List Token → List Token
  | [] => []
  | [t] => [t]
  | t :: u :: rest =>
    if t.kind == .semicolon || u.kind.startsStatement then t :: u :: rest
    else skipStatement (u :: rest)

/-- Drops what could not be parsed and finds the next place to go on. -/
def recover (p : Parser Stmt) : Parser (Option Stmt) := fun c =>
  match p c with
  | .ok s c' =>
    if c'.panicking then
      .ok none { c' with rest := skipStatement c'.rest, panicking := false }
    else .ok (some s) c'
  | .failed c' => .ok none { c' with rest := skipStatement c'.rest, panicking := false }
  | .exhausted => .exhausted

/-- Parameters up to the closing parenthesis; `count` stand before them. -/
def parameters (fuel : Nat) (count : Nat) : Parser (List Token) :=
  match fuel with
  | 0 => exhausted
  | fuel + 1 => do
    let param ← expect .ident .parameterName
    if maxArguments ≤ count then report (.token param) .tooManyParameters
    if ← nextIs .comma then do
      advance
      let more ← parameters fuel (count + 1)
      return param :: more
    else return [param]

/-- A variable declaration; the cursor is on `var`. -/
def varDecl (fuel : Nat) (keyword : Token) : Parser Stmt := do
  let name ← expect .ident .variableName
  let init ← if ← nextIs .assign then do
      advance
      advance
      let value ← expression fuel .lowest
      pure (some value)
    else pure none
  let _ ← expect .semicolon .variableEnd
  return .varDecl keyword name init

/-- An expression as a statement. -/
def exprStmt (fuel : Nat) : Parser Stmt := do
  let first := (← cursor).current?
  let value ← expression fuel .lowest
  let _ ← expect .semicolon .expressionEnd
  return .expr (first.getD value.token) value

def printStmt (fuel : Nat) (keyword : Token) : Parser Stmt := do
  advance
  let value ← expression fuel .lowest
  let _ ← expect .semicolon .printEnd
  return .print keyword value

def returnStmt (fuel : Nat) (keyword : Token) : Parser Stmt := do
  let value ← if ← nextIs .semicolon then pure none else do
      advance
      let value ← expression fuel .lowest
      pure (some value)
  let _ ← expect .semicolon .returnEnd
  return .ret keyword value

/-- The condition of `if` or `while`, in its parentheses. -/
def condition (fuel : Nat) (opening closing : SyntaxFault) : Parser Expr := do
  let _ ← expect .leftParen opening
  advance
  let cond ← expression fuel .lowest
  let _ ← expect .rightParen closing
  return cond

/-- The first clause of a `for` loop, up to its semicolon. -/
def forInitializer (fuel : Nat) : Parser (Option Stmt) := do
  match (← cursor).current? with
  | some t =>
    match t.kind with
    | .semicolon => return none
    | .kwVar => return some (← varDecl fuel t)
    | _ => return some (← exprStmt fuel)
  | none => return some (← exprStmt fuel)

/-- A later clause of a `for` loop, up to the token that ends it. -/
def forClause (fuel : Nat) (ending : Kind) (fault : SyntaxFault) : Parser (Option Expr) := do
  if ← currentIs ending then return none
  let e ← expression fuel .lowest
  let _ ← expect ending fault
  return some e

mutual

/-- A declaration, or nothing if it had to be given up. -/
def declaration (fuel : Nat) : Parser (Option Stmt) :=
  match fuel with
  | 0 => exhausted
  | fuel + 1 => recover do
    match (← cursor).current? with
    | some t =>
      match t.kind with
      | .kwClass => classDecl fuel t
      | .kwFun => do
        let name ← expect .ident .functionName
        return .funDecl (← function fuel .function name)
      | .kwVar => varDecl fuel t
      | _ => statement fuel
    | none => statement fuel

def statement (fuel : Nat) : Parser Stmt :=
  match fuel with
  | 0 => exhausted
  | fuel + 1 => do
    match (← cursor).current? with
    | none => exprStmt fuel
    | some t =>
      match t.kind with
      | .kwFor => do
        let _ ← expect .leftParen .forOpen
        advance
        let init ← forInitializer fuel
        advance
        let cond ← forClause fuel .semicolon .loopConditionEnd
        advance
        let increment ← forClause fuel .rightParen .forClose
        advance
        let body ← statement fuel
        return .forLoop t init cond increment body
      | .kwIf => do
        let cond ← condition fuel .ifOpen .ifClose
        advance
        let yes ← statement fuel
        if ← nextIs .kwElse then do
          advance
          advance
          let no ← statement fuel
          return .ifElse t cond yes (some no)
        else return .ifElse t cond yes none
      | .kwPrint => printStmt fuel t
      | .kwReturn => returnStmt fuel t
      | .kwWhile => do
        let cond ← condition fuel .whileOpen .whileClose
        advance
        let body ← statement fuel
        return .loop t cond body
      | .leftBrace => do
        let body ← block fuel
        return .block ((← cursor).current?.getD t) body
      | _ => exprStmt fuel

/-- The statements of a block; the cursor is on its opening brace. A missing closing brace is
an error, but the statements are kept. -/
def block (fuel : Nat) : Parser (List Stmt) :=
  match fuel with
  | 0 => exhausted
  | fuel + 1 => do
    advance
    let body ← declarations fuel
    if ← currentIs .rightBrace then return body
    else fun c => .ok body (c.panic (c.siteOf c.current?) .blockClose)

/-- Declarations up to a closing brace or the end. -/
def declarations (fuel : Nat) : Parser (List Stmt) :=
  match fuel with
  | 0 => exhausted
  | fuel + 1 => do
    match (← cursor).current? with
    | none => return []
    | some t =>
      if t.kind == .rightBrace then return []
      else do
        let s ← declaration fuel
        advance
        let more ← declarations fuel
        return s.toList ++ more

/-- The parameters and body of a function; the cursor is on its name. -/
def function (fuel : Nat) (kind : Callee) (name : Token) : Parser FunDecl :=
  match fuel with
  | 0 => exhausted
  | fuel + 1 => do
    let _ ← expect .leftParen (.parametersOpen kind)
    let params ← if ← nextIs .rightParen then pure [] else parameters fuel 0
    let _ ← expect .rightParen .parametersClose
    let _ ← expect .leftBrace (.bodyOpen kind)
    let body ← block fuel
    return .mk name params body

/-- A class; the cursor is on `class`. -/
def classDecl (fuel : Nat) (keyword : Token) : Parser Stmt :=
  match fuel with
  | 0 => exhausted
  | fuel + 1 => do
    let name ← expect .ident .className
    let superclass ← if ← nextIs .less then do
        advance
        let t ← expect .ident .superclassName
        pure (some ⟨t, none⟩)
      else pure none
    let _ ← expect .leftBrace .classOpen
    advance
    let methods ← methods fuel
    if ← currentIs .rightBrace then return .classDecl keyword name superclass methods
    else failHere .classClose

/-- Methods up to a closing brace or the end. -/
def methods (fuel : Nat) : Parser (List FunDecl) :=
  match fuel with
  | 0 => exhausted
  | fuel + 1 => do
    match (← cursor).current? with
    | none => return []
    | some t =>
      match t.kind with
      | .rightBrace => return []
      | .ident => do
        let method ← function fuel .method t
        advance
        let more ← methods fuel
        return method :: more
      | _ => failHere .methodName

end

/-- Declarations up to the end of the input. -/
def program (fuel : Nat) : Parser (List Stmt) :=
  match fuel with
  | 0 => exhausted
  | fuel + 1 => do
    match (← cursor).current? with
    | none => return []
    | some _ => do
      let s ← declaration fuel
      advance
      let more ← program fuel
      return s.toList ++ more

end Parser

/-- A parsed program: the statements that could be parsed, and the errors, in source order. -/
structure Program where
  statements : List Stmt
  errors : List SyntaxError

namespace Program

/-- Enough fuel for any program of so many tokens. -/
def fuelFor (tokens : Nat) : Nat := 8 * (tokens + 1)

def start (tokens : List Token) (endLine : Nat) : Cursor := ⟨tokens, endLine, [], false⟩

/-- Parses tokens that end on line `endLine`. -/
def ofTokens (tokens : List Token) (endLine : Nat) : Program :=
  match Parser.program (fuelFor tokens.length) (start tokens endLine) with
  | .ok statements c => ⟨statements, c.errors.reverse⟩
  | .failed c => ⟨[], c.errors.reverse⟩
  | .exhausted => ⟨[], []⟩

end Program

end Lox
