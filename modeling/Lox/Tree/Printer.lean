import Lox.Tree
/-!
# Printed trees

Every operator is printed with parentheses around it, so the printed form shows how an
expression groups.
-/

namespace Lox

def UnaryOp.symbol : UnaryOp → String
  | neg => "-"
  | not => "!"

def BinaryOp.symbol : BinaryOp → String
  | add => "+"
  | sub => "-"
  | mul => "*"
  | div => "/"
  | eq => "=="
  | ne => "!="
  | lt => "<"
  | le => "<="
  | gt => ">"
  | ge => ">="

def LogicalOp.symbol : LogicalOp → String
  | and => "and"
  | or => "or"

/-- Numbers in printed trees are written in full. -/
def Literal.numberLayout : Decimal.Layout := ⟨none, "+Inf", "-Inf", "NaN"⟩

def Literal.toBytes : Literal → Bytes
  | nil => utf8 "nil"
  | bool b => utf8 (if b then "true" else "false")
  | number x => numberLayout.write x
  | string s => Quoted.encode s

/-- An operator between its operands, in parentheses; `left` and `right` put an operand in front
of what follows it. -/
def infixText (left : Bytes → Bytes) (symbol : String) (right : Bytes → Bytes) (rest : Bytes) :
    Bytes :=
  utf8 "(" ++ left (utf8 " " ++ (utf8 symbol ++ (utf8 " " ++ right (utf8 ")" ++ rest))))

mutual

/-- The printed form of an expression, followed by `rest`. -/
def Expr.write : Expr → Bytes → Bytes
  | .literal _ value, rest => value.toBytes ++ rest
  | .grouping _ inner, rest => utf8 "(group " ++ inner.write (utf8 ")" ++ rest)
  | .unary op _ operand, rest =>
    utf8 "(" ++ (utf8 op.symbol ++ operand.write (utf8 ")" ++ rest))
  | .binary op _ left right, rest => infixText left.write op.symbol right.write rest
  | .logical op _ left right, rest => infixText left.write op.symbol right.write rest
  | .var ref, rest => ref.name.lexeme ++ rest
  | .assign ref value, rest => infixText (ref.name.lexeme ++ ·) "=" value.write rest
  | .call _ callee args, rest =>
    callee.write (utf8 "(" ++ Expr.writeList args (utf8 ")" ++ rest))
  | .get object name, rest => object.write (utf8 "." ++ (name.lexeme ++ rest))
  | .set object name value, rest =>
    infixText (fun r => object.write (utf8 "." ++ (name.lexeme ++ r))) "=" value.write rest
  | .this _, rest => utf8 "this" ++ rest
  | .super _ method, rest => utf8 "super." ++ (method.lexeme ++ rest)

/-- Expressions separated by commas, followed by `rest`. -/
def Expr.writeList : List Expr → Bytes → Bytes
  | [], rest => rest
  | [e], rest => e.write rest
  | e :: es, rest => e.write (utf8 ", " ++ Expr.writeList es rest)

end

def Expr.toBytes (e : Expr) : Bytes := e.write []

/-- A function's name and parameters. -/
def FunDecl.signature (name : Token) (params : List Token) : Bytes :=
  name.lexeme ++ (utf8 "(" ++ (Bytes.join (utf8 ", ") (params.map Token.lexeme) ++ utf8 ")"))

mutual

/-- The printed form of a statement, followed by `rest`. -/
def Stmt.write : Stmt → Bytes → Bytes
  | .expr _ value, rest => value.write (utf8 ";" ++ rest)
  | .print _ value, rest => utf8 "print " ++ value.write (utf8 ";" ++ rest)
  | .varDecl _ name none, rest => utf8 "var " ++ (name.lexeme ++ (utf8 ";" ++ rest))
  | .varDecl _ name (some init), rest =>
    utf8 "var " ++ (name.lexeme ++ (utf8 " = " ++ init.write (utf8 ";" ++ rest)))
  | .block _ body, rest => utf8 "\x7b" ++ Stmt.writeList body (utf8 " \x7d" ++ rest)
  | .ifElse _ cond yes none, rest => utf8 "if (" ++ cond.write (utf8 ") " ++ yes.write rest)
  | .ifElse _ cond yes (some no), rest =>
    utf8 "if (" ++ cond.write (utf8 ") " ++ yes.write (utf8 " else " ++ no.write rest))
  | .loop _ cond body, rest => utf8 "while (" ++ cond.write (utf8 ") " ++ body.write rest)
  | .funDecl decl, rest => utf8 "fun " ++ decl.write rest
  | .ret _ none, rest => utf8 "return;" ++ rest
  | .ret _ (some value), rest => utf8 "return " ++ value.write (utf8 ";" ++ rest)
  | .classDecl _ name superclass methods, rest =>
    utf8 "class " ++ (name.lexeme ++
      ((match superclass with
        | some ref => utf8 " < " ++ ref.name.lexeme
        | none => []) ++
        (utf8 " \x7b" ++ FunDecl.writeList methods (utf8 " \x7d" ++ rest))))

/-- Statements with a space before each, followed by `rest`. -/
def Stmt.writeList : List Stmt → Bytes → Bytes
  | [], rest => rest
  | s :: ss, rest => utf8 " " ++ s.write (Stmt.writeList ss rest)

/-- A function without the keyword in front, as methods are written, followed by `rest`. -/
def FunDecl.write : FunDecl → Bytes → Bytes
  | .mk name params body, rest =>
    FunDecl.signature name params ++
      (utf8 " \x7b" ++ Stmt.writeList body (utf8 " \x7d" ++ rest))

/-- Methods with a space before each, followed by `rest`. -/
def FunDecl.writeList : List FunDecl → Bytes → Bytes
  | [], rest => rest
  | f :: fs, rest => utf8 " " ++ f.write (FunDecl.writeList fs rest)

end

def Stmt.toBytes (s : Stmt) : Bytes := s.write []

end Lox
