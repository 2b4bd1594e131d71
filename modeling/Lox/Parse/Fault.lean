import Lox.Token
/-!
# Diagnostics about the source

A diagnostic points at a token or at the end of the input and says what is wrong there.
-/

namespace Lox

/-- Where a diagnostic points. -/
inductive Site where
  | token (t : Token)
  | endOfInput (line : Nat)
deriving DecidableEq

namespace Site

def line : Site → Nat
  | token t => t.line
  | endOfInput line => line

/-- The text of a diagnostic at this place. -/
def format (site : Site) (message : String) : Bytes :=
  utf8 "[line " ++ Bytes.ofNat site.line ++
    (match site with
      | token t => utf8 "] Error at '" ++ t.lexeme ++ utf8 "': "
      | endOfInput _ => utf8 "] Error at end: ") ++
    utf8 message

end Site

/-- What a function declaration declares. -/
inductive Callee where
  | function | method
deriving DecidableEq, Repr

def Callee.noun : Callee → String
  | function => "function"
  | method => "method"

/-- The most parameters or arguments that are allowed. -/
def maxArguments : Nat := 255

/-- What the parser found missing or wrong. -/
inductive SyntaxFault where
  | expression
  | className | superclassName | classOpen | methodName | classClose
  | functionName
  | parametersOpen (of : Callee) | parameterName | parametersClose | bodyOpen (of : Callee)
  | tooManyParameters
  | variableName | variableEnd
  | blockClose
  | forOpen | loopConditionEnd | forClose
  | ifOpen | ifClose
  | printEnd | returnEnd
  | whileOpen | whileClose
  | expressionEnd
  | superDot | superMethod
  | invalidTarget
  | groupClose
  | argumentsClose | tooManyArguments
  | propertyName
deriving DecidableEq

def SyntaxFault.message : SyntaxFault → String
  | expression => "Expect expression."
  | className => "Expect class name."
  | superclassName => "Expect superclass name."
  | classOpen => "Expect '\x7b' before class body."
  | methodName => "Expect method name."
  | classClose => "Expect '\x7d' after class body."
  | functionName => "Expect function name."
  | parametersOpen of => "Expect '(' after " ++ of.noun ++ " name."
  | parameterName => "Expect parameter name."
  | parametersClose => "Expect ')' after parameters."
  | bodyOpen of => "Expect '\x7b' before " ++ of.noun ++ " body."
  | tooManyParameters => "Can't have more than 255 parameters."
  | variableName => "Expect variable name."
  | variableEnd => "Expect ';' after variable declaration."
  | blockClose => "Expect '\x7d' after block."
  | forOpen => "Expect '(' after 'for'."
  | loopConditionEnd => "Expect ';' after loop condition."
  | forClose => "Expect ')' after for clauses."
  | ifOpen => "Expect '(' after 'if'."
  | ifClose => "Expect ')' after if condition."
  | printEnd => "Expect ';' after value."
  | returnEnd => "Expect ';' after return value."
  | whileOpen => "Expect '(' after 'while'."
  | whileClose => "Expect ')' after condition."
  | expressionEnd => "Expect ';' after expression."
  | superDot => "Expect '.' after 'super'."
  | superMethod => "Expect superclass method name."
  | invalidTarget => "Invalid assignment target."
  | groupClose => "Expect ')' after expression."
  | argumentsClose => "Expect ')' after arguments."
  | tooManyArguments => "Can't have more than 255 arguments."
  | propertyName => "Expect property name after '.'."

structure SyntaxError where
  site : Site
  fault : SyntaxFault
deriving DecidableEq

def SyntaxError.toBytes (e : SyntaxError) : Bytes := e.site.format e.fault.message

end Lox
