import Lox.Parse.Fault
/-!
# Walking over tokens

A parser looks at the current token and the next one. Past the last token it stays at the end
of the input. It records the errors it meets; one that leaves it unsure of its place also sets
`panicking`, which lasts until the enclosing declaration has been given up.
-/

namespace Lox

structure Cursor where
  /-- The current token and all that follow it. -/
  rest : List Token
  /-- The line on which the input ends. -/
  endLine : Nat
  /-- The errors so far, newest first. -/
  errors : List SyntaxError
  panicking : Bool
deriving DecidableEq

namespace Cursor

def current? (c : Cursor) : Option Token := c.rest.head?

def next? (c : Cursor) : Option Token := c.rest.tail.head?

def currentIs (c : Cursor) (kind : Kind) : Bool := c.current?.any (·.kind == kind)

def nextIs (c : Cursor) (kind : Kind) : Bool := c.next?.any (·.kind == kind)

def siteOf (c : Cursor) : Option Token → Site
  | some t => .token t
  | none => .endOfInput c.endLine

def advance (c : Cursor) : Cursor := { c with rest := c.rest.tail }

/-- Records an error without losing the place. -/
def report (c : Cursor) (site : Site) (fault : SyntaxFault) : Cursor :=
  { c with errors := ⟨site, fault⟩ :: c.errors }

/-- Records an error after which the place is unknown. -/
def panic (c : Cursor) (site : Site) (fault : SyntaxFault) : Cursor :=
  { c.report site fault with panicking := true }

end Cursor

/-- What a parser arrives at. A failed parser leaves the cursor where it got stuck; an exhausted
one has used up its fuel. -/
inductive Parsed (α : Type) where
  | ok (value : α) (cursor : Cursor)
  | failed (cursor : Cursor)
  | exhausted

def Parser (α : Type) : Type := Cursor → Parsed α

namespace Parser

@[inline] def pure {α : Type} (a : α) : Parser α := fun c => .ok a c

@[inline] def bind {α β : Type} (p : Parser α) (f : α → Parser β) : Parser β := fun c =>
  match p c with
  | .ok a c' => f a c'
  | .failed c' => .failed c'
  | .exhausted => .exhausted

instance : Monad Parser where
  pure := pure
  bind := bind

@[inline] def exhausted {α : Type} : Parser α := fun _ => .exhausted

@[inline] def cursor : Parser Cursor := fun c => .ok c c

@[inline] def advance : Parser Unit := fun c => .ok () c.advance

/-- Records an error and goes on. -/
@[inline] def report (site : Site) (fault : SyntaxFault) : Parser Unit := fun c =>
  .ok () (c.report site fault)

/-- Gives up at the current token. -/
@[inline] def failHere {α : Type} (fault : SyntaxFault) : Parser α := fun c =>
  .failed (c.panic (c.siteOf c.current?) fault)

/-- Moves to the next token if it has the given kind, and gives up at it otherwise. -/
def expect (kind : Kind) (fault : SyntaxFault) : Parser Token := fun c =>
  match c.next? with
  | some t => if t.kind == kind then .ok t c.advance else .failed (c.panic (.token t) fault)
  | none => .failed (c.panic (.endOfInput c.endLine) fault)

@[inline] def nextIs (kind : Kind) : Parser Bool := fun c => .ok (c.nextIs kind) c

@[inline] def currentIs (kind : Kind) : Parser Bool := fun c => .ok (c.currentIs kind) c

end Parser

end Lox
