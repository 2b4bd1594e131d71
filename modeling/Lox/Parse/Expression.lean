import Lox.Parse.Cursor
import Lox.Tree
/-!
# Parsing expressions

Precedence climbing: an operand, then every operator that binds tighter than the level asked
for. A parser starts on the first token of its phrase and ends on the last one.
-/

namespace Lox

/-- How tightly an operator binds. -/
inductive Precedence where
  | lowest | assignment | or | and | equality | comparison | term | factor | unary | call
deriving DecidableEq, Repr

namespace Precedence

def rank : Precedence → Nat
  | lowest => 1
  | assignment => 2
  | or => 3
  | and => 4
  | equality => 5
  | comparison => 6
  | term => 7
  | factor => 8
  | unary => 9
  | call => 10

end Precedence

/-- What a token does after an operand. -/
inductive Operator where
  | binary (op : BinaryOp)
  | logical (op : LogicalOp)
  | assign
  | call
  | get
deriving DecidableEq, Repr

namespace Operator

def ofKind? : Kind → Option Operator
  | .assign => some .assign
  | .kwOr => some (.logical .or)
  | .kwAnd => some (.logical .and)
  | .equal => some (.binary .eq)
  | .notEqual => some (.binary .ne)
  | .less => some (.binary .lt)
  | .greater => some (.binary .gt)
  | .lessEqual => some (.binary .le)
  | .greaterEqual => some (.binary .ge)
  | .plus => some (.binary .add)
  | .minus => some (.binary .sub)
  | .slash => some (.binary .div)
  | .star => some (.binary .mul)
  | .leftParen => some .call
  | .dot => some .get
  | _ => none

def precedence : Operator → Precedence
  | assign => .assignment
  | logical .or => .or
  | logical .and => .and
  | binary .eq | binary .ne => .equality
  | binary .lt | binary .gt | binary .le | binary .ge => .comparison
  | binary .add | binary .sub => .term
  | binary .div | binary .mul => .factor
  | call | get => .call

end Operator

namespace Parser

mutual

/-- An expression whose operators all bind tighter than `level`. -/
def expression (fuel : Nat) (level : Precedence) : Parser Expr :=
  match fuel with
  | 0 => exhausted
  | fuel + 1 => do
    let left ← operand fuel
    operators fuel level left

/-- A literal, a name, a unary operator with its operand, or a group. -/
def operand (fuel : Nat) : Parser Expr :=
  match fuel with
  | 0 => exhausted
  | fuel + 1 => do
    match (← cursor).current? with
    | none => failHere .expression
    | some t =>
      match t.kind with
      | .ident => return .var ⟨t, none⟩
      | .number => return .literal t (.number (Token.numberValue t.lexeme))
      | .string => return .literal t (.string (Token.stringValue t.lexeme))
      | .kwTrue => return .literal t (.bool true)
      | .kwFalse => return .literal t (.bool false)
      | .kwNil => return .literal t .nil
      | .bang => unary fuel .not t
      | .minus => unary fuel .neg t
      | .leftParen => do
        advance
        let inner ← expression fuel .lowest
        let _ ← expect .rightParen .groupClose
        return .grouping t inner
      | .kwThis => return .this ⟨t, none⟩
      | .kwSuper => do
        let _ ← expect .dot .superDot
        let method ← expect .ident .superMethod
        return .super ⟨t, none⟩ method
      | _ => failHere .expression

def unary (fuel : Nat) (op : UnaryOp) (token : Token) : Parser Expr :=
  match fuel with
  | 0 => exhausted
  | fuel + 1 => do
    advance
    let operand ← expression fuel .unary
    return .unary op token operand

/-- Everything that operators binding tighter than `level` add to the operand `left`. -/
def operators (fuel : Nat) (level : Precedence) (left : Expr) : Parser Expr :=
  match fuel with
  | 0 => exhausted
  | fuel + 1 => do
    match (← cursor).next? with
    | none => return left
    | some t =>
      match Operator.ofKind? t.kind with
      | none => return left
      | some op =>
        if level.rank < op.precedence.rank then do
          advance
          let left ← apply fuel op t left
          operators fuel level left
        else return left

/-- The rest of an operator's phrase; the cursor is on the operator's token. -/
def apply (fuel : Nat) (op : Operator) (token : Token) (left : Expr) : Parser Expr :=
  match fuel with
  | 0 => exhausted
  | fuel + 1 =>
    match op with
    | .binary b => do
      advance
      let right ← expression fuel op.precedence
      return .binary b token left right
    | .logical l => do
      advance
      let right ← expression fuel op.precedence
      return .logical l token left right
    | .assign => do
      advance
      let value ← expression fuel .lowest
      match left with
      | .var ref => return .assign ref value
      | .get object name => return .set object name value
      | _ => do
        report (.token token) .invalidTarget
        return left
    | .call => do
      let args ← if ← nextIs .rightParen then pure [] else arguments fuel 0
      let paren ← expect .rightParen .argumentsClose
      return .call paren left args
    | .get => do
      let name ← expect .ident .propertyName
      return .get left name

/-- Arguments up to the closing parenthesis; `count` stand before them. -/
def arguments (fuel : Nat) (count : Nat) : Parser (List Expr) :=
  match fuel with
  | 0 => exhausted
  | fuel + 1 => do
    advance
    let arg ← expression fuel .lowest
    if maxArguments ≤ count then do
      let c ← cursor
      report (c.siteOf c.current?) .tooManyArguments
    if ← nextIs .comma then do
      advance
      let more ← arguments fuel (count + 1)
      return arg :: more
    else return [arg]

end

end Parser

end Lox
