import Lox.Environment
import Lox.RuntimeError
import Lox.Text.Quoted
/-!
# The state of the machine

The machine runs a program in small steps. A configuration is what it is doing (`Focus`), the
work that waits for the result (`Task`, innermost first), and the store with everything that can
change.
-/

namespace Lox

/-- One entry of the log that tells how a program runs. -/
inductive TraceEvent where
  | pushFrame (depth : Nat)
  | popFrame (depth : Nat)
  | call (callee : Bytes) (arguments : Nat)
  | declareClass (name : Bytes) (methods : Nat)
deriving DecidableEq

namespace TraceEvent

/-- Characters that a bare attribute value may not hold. -/
def needsQuotes (s : Bytes) : Bool :=
  s.isEmpty || (Utf8.units s).any fun
    | .char c => c == ' ' || c == '"' || c == '=' || c == Char.ofNat 0xFFFD || !isPrintable c
    | .stray _ => true

def item (name : String) (value : Bytes) : Bytes :=
  utf8 " " ++ utf8 name ++ utf8 "=" ++ (if needsQuotes value then Quoted.encode value else value)

/-- A log line without its time. -/
def toBytes : TraceEvent → Bytes
  | pushFrame depth => line "push frame" ++ item "depth" (Bytes.ofNat depth)
  | popFrame depth => line "pop frame" ++ item "depth" (Bytes.ofNat depth)
  | call callee arguments =>
    line "call" ++ item "callee" callee ++ item "argument-count" (Bytes.ofNat arguments)
  | declareClass name methods =>
    line "declare class" ++ item "class" name ++ item "methods" (Bytes.ofNat methods)
where
  line (message : String) : Bytes := utf8 "level=DEBUG" ++ item "msg" (utf8 message)

end TraceEvent

/-- A clock that shows what it will each time that it is read. -/
structure Clock where
  /-- The seconds that it shows at one reading after the other. -/
  reading : Nat → Float
  /-- How often it has been read. -/
  count : Nat

namespace Clock

/-- The clock that always shows the same time. -/
def still (t : Float) : Clock := ⟨fun _ => t, 0⟩

instance : Coe Float Clock := ⟨still⟩

/-- Reads a clock. -/
def read (c : Clock) : Float × Clock := (c.reading c.count, { c with count := c.count + 1 })

end Clock

/-- Everything that can change while a program runs. -/
structure State where
  frames : Frames
  /-- The fields of every object, by its number. -/
  fields : Array (Bindings Value)
  /-- The next identity of a function or class. -/
  nextId : Nat
  /-- The current scope chain. -/
  env : Chain
  /-- How many call expressions are being invoked. -/
  callDepth : Nat
  /-- How many frames have been entered and not left. -/
  frameDepth : Nat
  /-- The lines printed. -/
  output : Array Bytes
  tracing : Bool
  trace : Array TraceEvent
  now : Clock

/-- The number of the frame that holds the global variables. -/
def globalFrame : FrameId := 0

def globalChain : Chain := [globalFrame]

namespace State

/-- The state in which no program has run yet. -/
def initial : State where
  frames := #[[(utf8 "clock", .builtin .clock)]]
  fields := #[]
  nextId := 0
  env := globalChain
  callDepth := 0
  frameDepth := 0
  output := #[]
  tracing := false
  trace := #[]
  now := .still 0

def log (s : State) (e : TraceEvent) : State :=
  if s.tracing then { s with trace := s.trace.push e } else s

/-- Adds a frame and gives the chain that it extends. -/
def newFrame (s : State) (outer : Chain) (vars : Bindings Value) : Chain × State :=
  (s.frames.size :: outer, { s with frames := s.frames.push vars })

/-- Continues inside another scope chain. -/
def enter (s : State) (chain : Chain) : State :=
  let depth := s.frameDepth + 1
  { s with env := chain, frameDepth := depth }.log (.pushFrame depth)

/-- Goes back to the scope chain `saved`. -/
def leave (s : State) (saved : Chain) : State :=
  let s := s.log (.popFrame s.frameDepth)
  { s with env := saved, frameDepth := s.frameDepth - 1 }

/-- An object's field. -/
def field? (s : State) (o : Instance) (name : Bytes) : Option Value :=
  s.fields[o.id]?.bind (Bindings.get? name)

def setField (s : State) (o : Instance) (name : Bytes) (v : Value) : State :=
  { s with fields := s.fields.modify o.id (Bindings.insert name v) }

/-- A new object without fields. -/
def newObject (s : State) (c : Class) : Instance × State :=
  (⟨s.fields.size, c⟩, { s with fields := s.fields.push [] })

/-- A method as a function whose chain starts with a frame for `this`. -/
def bindMethod (s : State) (m : Closure) (o : Instance) : Closure × State :=
  let (chain, s) := s.newFrame m.chain [(utf8 "this", .obj o)]
  ({ m with chain }, s)

/-- A function value with an identity of its own. -/
def newFunction (s : State) (c : Closure) : Value × State :=
  (.function ⟨s.nextId, c⟩, { s with nextId := s.nextId + 1 })

def defineHere (s : State) (name : Bytes) (v : Value) : State :=
  { s with frames := s.frames.defineHere s.env name v }

/-- The global variables. -/
def globals (s : State) : Bindings Value := s.frames[globalFrame]?.getD []

/-- The global variables in bytewise order. -/
def sortedGlobals (s : State) : Bindings Value := s.globals.sorted

end State

/-- What the value of a call is when the body has ended. -/
inductive CallExit where
  /-- The returned value, or `nil`. -/
  | returned
  /-- The receiver of the initializer with this chain. -/
  | receiver (chain : Chain)
  /-- The object being made. -/
  | object (o : Instance)

/-- Work that waits for a result. -/
inductive Task where
  | unary (op : UnaryOp) (token : Token)
  | binaryRight (op : BinaryOp) (token : Token) (right : Expr)
  | binary (op : BinaryOp) (token : Token) (left : Value)
  | logical (op : LogicalOp) (right : Expr)
  | assign (ref : Ref)
  | callee (paren : Token) (args : List Expr)
  /-- `done` holds the values of the arguments before this one, last first. -/
  | argument (paren : Token) (callee : Value) (done : List Value) (rest : List Expr)
  | get (name : Token)
  | setObject (name : Token) (value : Expr)
  | setField (o : Instance) (name : Token)
  | discard
  | print
  | define (name : Token)
  | choose (yes : Stmt) (no : Option Stmt)
  | loopTest (cond : Expr) (body : Stmt)
  | loopBody (cond : Expr) (body : Stmt)
  | ret
  | superclass (name : Token) (ref : Ref) (methods : List FunDecl)
  /-- The statements that follow in a block or body. -/
  | sequence (rest : List Stmt)
  /-- Leaving a frame for the scope chain before it. -/
  | leave (saved : Chain)
  /-- The end of a call. -/
  | endCall (exit : CallExit)
  /-- The statements that follow at the top level. -/
  | program (rest : List Stmt)

/-- What the machine is doing: something to run, or a result. -/
inductive Focus where
  | eval (e : Expr)
  | exec (s : Stmt)
  | value (v : Value)
  | done
  | returned (v : Value)
  | raised (e : RuntimeError)

/-- A configuration of the machine. -/
structure Machine where
  focus : Focus
  tasks : List Task
  state : State

end Lox
