import Lox.Parse.Program
/-!
# The grammar

Which token sequences spell which trees. Expressions are stratified: every tier takes its left
operand from itself and its right operand from the next tighter tier, except that assignment
groups to the right. The grammar knows nothing of cursors, precedences or error recovery;
`Proofs.Parse.Acceptance` shows that the parser accepts exactly what is derived here.
-/

namespace Lox.Grammar

/-! ## Expressions -/

/-- The tiers of expressions, loosest first. -/
inductive Tier where
  | assignment | or | and | equality | comparison | term | factor | unary | call | primary
deriving DecidableEq, Repr

namespace Tier

/-- The next tighter tier. -/
def tighter? : Tier → Option Tier
  | assignment => some or
  | or => some and
  | and => some equality
  | equality => some comparison
  | comparison => some term
  | term => some factor
  | factor => some unary
  | unary => some call
  | call => some primary
  | primary => none

/-- The nodes that the left-associative operators of a tier build. -/
def node? : Tier → Kind → Option (Token → Expr → Expr → Expr)
  | or, .kwOr => some (.logical .or)
  | and, .kwAnd => some (.logical .and)
  | equality, .equal => some (.binary .eq)
  | equality, .notEqual => some (.binary .ne)
  | comparison, .less => some (.binary .lt)
  | comparison, .greater => some (.binary .gt)
  | comparison, .lessEqual => some (.binary .le)
  | comparison, .greaterEqual => some (.binary .ge)
  | term, .plus => some (.binary .add)
  | term, .minus => some (.binary .sub)
  | factor, .slash => some (.binary .div)
  | factor, .star => some (.binary .mul)
  | _, _ => none

end Tier

def unaryOp? : Kind → Option UnaryOp
  | .bang => some .not
  | .minus => some .neg
  | _ => none

/-- The constant that a token stands for. -/
def constant? (t : Token) : Option Literal :=
  match t.kind with
  | .number => some (.number (Token.numberValue t.lexeme))
  | .string => some (.string (Token.stringValue t.lexeme))
  | .kwTrue => some (.bool true)
  | .kwFalse => some (.bool false)
  | .kwNil => some .nil
  | _ => none

/-- What a row of tokens inside an expression can be. -/
inductive ExprPhrase where
  | tier (t : Tier) (e : Expr)
  /-- One or more expressions with commas between them. -/
  | arguments (es : List Expr)

/-- The tokens spell the phrase. -/
inductive Spells : ExprPhrase → List Token → Prop
  | tighter {t u : Tier} {e : Expr} {ts : List Token} :
    t.tighter? = some u → Spells (.tier u e) ts → Spells (.tier t e) ts
  | assignName {name eq : Token} {v : Expr} {ts : List Token} :
    name.kind = .ident → eq.kind = .assign → Spells (.tier .assignment v) ts →
    Spells (.tier .assignment (.assign ⟨name, none⟩ v)) (name :: eq :: ts)
  | assignProperty {dot name eq : Token} {o v : Expr} {os ts : List Token} :
    Spells (.tier .call o) os → dot.kind = .dot → name.kind = .ident → eq.kind = .assign →
    Spells (.tier .assignment v) ts →
    Spells (.tier .assignment (.set o name v)) (os ++ dot :: name :: eq :: ts)
  | operator {t u : Tier} {op : Token} {node : Token → Expr → Expr → Expr} {l r : Expr}
      {ls rs : List Token} :
    t.node? op.kind = some node → t.tighter? = some u → Spells (.tier t l) ls →
    Spells (.tier u r) rs → Spells (.tier t (node op l r)) (ls ++ op :: rs)
  | unary {op : Token} {u : UnaryOp} {e : Expr} {ts : List Token} :
    unaryOp? op.kind = some u → Spells (.tier .unary e) ts →
    Spells (.tier .unary (.unary u op e)) (op :: ts)
  | callEmpty {opening closing : Token} {f : Expr} {fs : List Token} :
    Spells (.tier .call f) fs → opening.kind = .leftParen → closing.kind = .rightParen →
    Spells (.tier .call (.call closing f [])) (fs ++ [opening, closing])
  | call {opening closing : Token} {f : Expr} {args : List Expr} {fs ts : List Token} :
    Spells (.tier .call f) fs → opening.kind = .leftParen → Spells (.arguments args) ts →
    args.length ≤ maxArguments → closing.kind = .rightParen →
    Spells (.tier .call (.call closing f args)) (fs ++ opening :: (ts ++ [closing]))
  | property {dot name : Token} {o : Expr} {os : List Token} :
    Spells (.tier .call o) os → dot.kind = .dot → name.kind = .ident →
    Spells (.tier .call (.get o name)) (os ++ [dot, name])
  | constant {t : Token} {v : Literal} :
    constant? t = some v → Spells (.tier .primary (.literal t v)) [t]
  | name {t : Token} : t.kind = .ident → Spells (.tier .primary (.var ⟨t, none⟩)) [t]
  | this {t : Token} : t.kind = .kwThis → Spells (.tier .primary (.this ⟨t, none⟩)) [t]
  | super {t dot name : Token} : t.kind = .kwSuper → dot.kind = .dot → name.kind = .ident →
    Spells (.tier .primary (.super ⟨t, none⟩ name)) [t, dot, name]
  | group {opening closing : Token} {e : Expr} {ts : List Token} :
    opening.kind = .leftParen → Spells (.tier .assignment e) ts → closing.kind = .rightParen →
    Spells (.tier .primary (.grouping opening e)) (opening :: (ts ++ [closing]))
  | lastArgument {e : Expr} {ts : List Token} :
    Spells (.tier .assignment e) ts → Spells (.arguments [e]) ts
  | argument {comma : Token} {e : Expr} {es : List Expr} {ts rest : List Token} :
    Spells (.tier .assignment e) ts → comma.kind = .comma → Spells (.arguments es) rest →
    Spells (.arguments (e :: es)) (ts ++ comma :: rest)

/-- The tokens spell an expression. -/
abbrev Expression (e : Expr) (ts : List Token) : Prop := Spells (.tier .assignment e) ts

/-- The tokens spell an expression that may be left out. -/
inductive Optional : Option Expr → List Token → Prop
  | absent : Optional none []
  | present {e : Expr} {ts : List Token} : Expression e ts → Optional (some e) ts

/-! ## Statements -/

/-- One or more names with commas between them. -/
inductive Names : List Token → List Token → Prop
  | last {t : Token} : t.kind = .ident → Names [t] [t]
  | more {t comma : Token} {names ts : List Token} :
    t.kind = .ident → comma.kind = .comma → Names names ts →
    Names (t :: names) (t :: comma :: ts)

/-- The parameters of a function, without their parentheses. -/
inductive Parameters : List Token → List Token → Prop
  | absent : Parameters [] []
  | present {names ts : List Token} :
    Names names ts → names.length ≤ maxArguments → Parameters names ts

inductive VarDecl : Stmt → List Token → Prop
  | plain {var name semicolon : Token} :
    var.kind = .kwVar → name.kind = .ident → semicolon.kind = .semicolon →
    VarDecl (.varDecl var name none) [var, name, semicolon]
  | init {var name eq semicolon : Token} {e : Expr} {ts : List Token} :
    var.kind = .kwVar → name.kind = .ident → eq.kind = .assign → Expression e ts →
    semicolon.kind = .semicolon →
    VarDecl (.varDecl var name (some e)) (var :: name :: eq :: (ts ++ [semicolon]))

inductive ExprStmt : Stmt → List Token → Prop
  | mk {first semicolon : Token} {e : Expr} {ts : List Token} :
    Expression e (first :: ts) → semicolon.kind = .semicolon →
    ExprStmt (.expr first e) (first :: (ts ++ [semicolon]))

/-- The first clause of a `for` loop. -/
inductive ForInit : Option Stmt → List Token → Prop
  | absent {semicolon : Token} : semicolon.kind = .semicolon → ForInit none [semicolon]
  | var {s : Stmt} {ts : List Token} : VarDecl s ts → ForInit (some s) ts
  | expr {s : Stmt} {ts : List Token} : ExprStmt s ts → ForInit (some s) ts

/-- The `while` form of a `for` loop: its body and increment share a block, a missing condition
is `true`, and an initializer shares a block with the loop. -/
inductive WhileForm (kw : Token) : Option Stmt → Option Expr → Option Expr → Stmt → Stmt → Prop
  | loop {cond : Expr} {body : Stmt} : WhileForm kw none (some cond) none body (.loop kw cond body)
  | endless {body s : Stmt} : WhileForm kw none (some (.literal kw (.bool true))) none body s →
    WhileForm kw none none none body s
  | step {cond : Option Expr} {e : Expr} {body s : Stmt} :
    WhileForm kw none cond none (.block kw [body, .expr kw e]) s →
    WhileForm kw none cond (some e) body s
  | init {i : Stmt} {cond step : Option Expr} {body s : Stmt} :
    WhileForm kw none cond step body s →
    WhileForm kw (some i) cond step body (.block kw [i, s])

/-- What a row of whole tokens can be. -/
inductive Phrase where
  /-- A statement; `short` tells whether it ends in an `if` that has no `else`. -/
  | stmt (short : Bool) (s : Stmt)
  | decl (s : Stmt)
  | decls (ss : List Stmt)
  /-- A function without the keyword: its name, parameters and body. -/
  | function (f : FunDecl)
  | methods (fs : List FunDecl)

/-- The tokens form the phrase. An `else` belongs to the nearest `if` that can take it: what
stands between `if` and `else` does not end in an `if` without `else`. -/
inductive Forms : Phrase → List Token → Prop
  | expr {s : Stmt} {ts : List Token} : ExprStmt s ts → Forms (.stmt false s) ts
  | print {print semicolon : Token} {e : Expr} {ts : List Token} :
    print.kind = .kwPrint → Expression e ts → semicolon.kind = .semicolon →
    Forms (.stmt false (.print print e)) (print :: (ts ++ [semicolon]))
  | ret {ret semicolon : Token} {e : Option Expr} {ts : List Token} :
    ret.kind = .kwReturn → Optional e ts → semicolon.kind = .semicolon →
    Forms (.stmt false (.ret ret e)) (ret :: (ts ++ [semicolon]))
  | block {opening closing : Token} {ss : List Stmt} {ts : List Token} :
    opening.kind = .leftBrace → Forms (.decls ss) ts → closing.kind = .rightBrace →
    Forms (.stmt false (.block closing ss)) (opening :: (ts ++ [closing]))
  | ifShort {kw opening closing : Token} {cond : Expr} {yes : Stmt} {short : Bool}
      {cs ys : List Token} :
    kw.kind = .kwIf → opening.kind = .leftParen → Expression cond cs →
    closing.kind = .rightParen → Forms (.stmt short yes) ys →
    Forms (.stmt true (.ifElse kw cond yes none)) (kw :: opening :: (cs ++ closing :: ys))
  | ifElse {kw opening closing other : Token} {cond : Expr} {yes no : Stmt} {short : Bool}
      {cs ys ns : List Token} :
    kw.kind = .kwIf → opening.kind = .leftParen → Expression cond cs →
    closing.kind = .rightParen → Forms (.stmt false yes) ys → other.kind = .kwElse →
    Forms (.stmt short no) ns →
    Forms (.stmt short (.ifElse kw cond yes (some no)))
      (kw :: opening :: (cs ++ closing :: (ys ++ other :: ns)))
  | loop {kw opening closing : Token} {cond : Expr} {body : Stmt} {short : Bool}
      {cs bs : List Token} :
    kw.kind = .kwWhile → opening.kind = .leftParen → Expression cond cs →
    closing.kind = .rightParen → Forms (.stmt short body) bs →
    Forms (.stmt short (.loop kw cond body)) (kw :: opening :: (cs ++ closing :: bs))
  | forLoop {kw opening semicolon closing : Token} {init : Option Stmt} {cond step : Option Expr}
      {body s : Stmt} {short : Bool} {is cs us bs : List Token} :
    kw.kind = .kwFor → opening.kind = .leftParen → ForInit init is → Optional cond cs →
    semicolon.kind = .semicolon → Optional step us → closing.kind = .rightParen →
    Forms (.stmt short body) bs → WhileForm kw init cond step body s →
    Forms (.stmt short s)
      (kw :: opening :: (is ++ (cs ++ semicolon :: (us ++ closing :: bs))))
  | stmtDecl {s : Stmt} {short : Bool} {ts : List Token} :
    Forms (.stmt short s) ts → Forms (.decl s) ts
  | varDecl {s : Stmt} {ts : List Token} : VarDecl s ts → Forms (.decl s) ts
  | funDecl {kw : Token} {f : FunDecl} {ts : List Token} :
    kw.kind = .kwFun → Forms (.function f) ts → Forms (.decl (.funDecl f)) (kw :: ts)
  | classDecl {kw name opening closing : Token} {ms : List FunDecl} {ts : List Token} :
    kw.kind = .kwClass → name.kind = .ident → opening.kind = .leftBrace →
    Forms (.methods ms) ts → closing.kind = .rightBrace →
    Forms (.decl (.classDecl kw name none ms)) (kw :: name :: opening :: (ts ++ [closing]))
  | subclassDecl {kw name less base opening closing : Token} {ms : List FunDecl}
      {ts : List Token} :
    kw.kind = .kwClass → name.kind = .ident → less.kind = .less → base.kind = .ident →
    opening.kind = .leftBrace → Forms (.methods ms) ts → closing.kind = .rightBrace →
    Forms (.decl (.classDecl kw name (some ⟨base, none⟩) ms))
      (kw :: name :: less :: base :: opening :: (ts ++ [closing]))
  | noDecls : Forms (.decls []) []
  | decls {s : Stmt} {ss : List Stmt} {ts rest : List Token} :
    Forms (.decl s) ts → Forms (.decls ss) rest → Forms (.decls (s :: ss)) (ts ++ rest)
  | function {name opening closing bodyOpening bodyClosing : Token} {params : List Token}
      {body : List Stmt} {ps ts : List Token} :
    name.kind = .ident → opening.kind = .leftParen → Parameters params ps →
    closing.kind = .rightParen → bodyOpening.kind = .leftBrace → Forms (.decls body) ts →
    bodyClosing.kind = .rightBrace →
    Forms (.function (.mk name params body))
      (name :: opening :: (ps ++ closing :: bodyOpening :: (ts ++ [bodyClosing])))
  | noMethods : Forms (.methods []) []
  | methods {f : FunDecl} {fs : List FunDecl} {ts rest : List Token} :
    Forms (.function f) ts → Forms (.methods fs) rest → Forms (.methods (f :: fs)) (ts ++ rest)

/-- The tokens form a whole program. -/
abbrev Program (program : List Stmt) (ts : List Token) : Prop := Forms (.decls program) ts

end Lox.Grammar
