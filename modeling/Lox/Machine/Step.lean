import Lox.Machine.State
/-!
# Steps of the machine

One step either opens a piece of syntax or gives a result to the innermost task. A task that
does not wait for the result at hand is dropped: that is how a `return` and a runtime error
find their way out. Frames and calls are left on every way out.

What a program prints goes into the state, so a `print` whose expression has a value does not
fail: whoever writes the lines out is taken to succeed.
-/

namespace Lox

/-- How many calls may be active at once. -/
def maxCallDepth : Nat := 10000

namespace Value

def applyUnary (op : UnaryOp) (v : Value) : Except RuntimeFault Value :=
  match op, v with
  | .neg, .number x => .ok (.number (-x))
  | .neg, _ => .error .operandNotNumber
  | .not, v => .ok (.bool (!v.isTruthy))

def applyNumeric (op : BinaryOp) (x y : Float) : Value :=
  match op with
  | .add => .number (x + y)
  | .sub => .number (x - y)
  | .mul => .number (x * y)
  | .div => .number (x / y)
  | .lt => .bool (x < y)
  | .le => .bool (x ≤ y)
  | .gt => .bool (y < x)
  | .ge => .bool (y ≤ x)
  | .eq => .bool (x == y)
  | .ne => .bool (x != y)

def applyBinary (op : BinaryOp) (l r : Value) : Except RuntimeFault Value :=
  match op, l, r with
  | .eq, l, r => .ok (.bool (l.isEqual r))
  | .ne, l, r => .ok (.bool (!l.isEqual r))
  | .add, .string s, .string t => .ok (.string (s ++ t))
  | op, .number x, .number y => .ok (applyNumeric op x y)
  | .add, _, _ => .error .operandsNotAddable
  | _, _, _ => .error .operandsNotNumbers

/-- How many arguments a value takes, if it can be called. -/
def arity? : Value → Option Nat
  | function f => some f.closure.arity
  | builtin .clock => some 0
  | cls c => some c.arity
  | _ => none

end Value

namespace State

/-- The value of a reference: at its distance, or among the globals. -/
def read (s : State) (ref : Ref) : Except RuntimeError Value :=
  match ref.hops with
  | some d => .ok (s.frames.getAt s.env d ref.name.lexeme)
  | none =>
    match s.frames.get? globalChain ref.name.lexeme with
    | some v => .ok v
    | none => .error (.undefinedVariable ref.name)

/-- What an object has under a name. -/
inductive Property where
  | field (v : Value)
  | method (m : Closure)

/-- A field of an object, or else a method of its class. -/
def property? (s : State) (o : Instance) (name : Bytes) : Option Property :=
  match s.field? o name with
  | some v => some (.field v)
  | none => (o.cls.findMethod name).map .method

/-- The method that `super` finds, and its receiver. The class stands in the frame that the
reference points at, the receiver in the frame just inside it. -/
def superMethod (s : State) (ref : Ref) (method : Token) :
    Except RuntimeError (Closure × Instance) :=
  let d := ref.hops.getD 0
  match s.frames.getAt s.env d (utf8 "super") with
  | .cls c =>
    match s.frames.getAt s.env (d - 1) (utf8 "this") with
    | .obj o =>
      match c.findMethod method.lexeme with
      | some m => .ok (m, o)
      | none => .error ⟨method, .undefinedProperty method.lexeme⟩
    | _ => .error ⟨ref.name, .undefinedVariable (utf8 "this")⟩
  | _ => .error (.undefinedVariable ref.name)

/-- The methods of a class; of two with one name the later counts. -/
def methodTable (chain : Chain) (methods : List FunDecl) : Bindings Closure :=
  methods.foldl (fun table m =>
    table.insert m.name.lexeme ⟨m, chain, m.name.lexeme = utf8 "init"⟩) []

/-- The chain of a class's methods: a subclass has a frame for `super`. -/
def classChain (s : State) : Option Class → Chain × State
  | some c => s.newFrame s.env [(utf8 "super", .cls c)]
  | none => (s.env, s)

/-- A class with an identity of its own. -/
def newClass (s : State) (name : Bytes) (superclass : Option Class)
    (table : Bindings Closure) : Value × State :=
  let ancestors := match superclass with
    | some c => c.lineage
    | none => []
  (.cls ⟨⟨s.nextId, name, table⟩, ancestors⟩,
    { s with nextId := s.nextId + 1 }.log (.declareClass name table.length))

end State

namespace Machine

/-- Gives a method as a value, bound to an object. -/
def bound (m : Closure) (o : Instance) (tasks : List Task) (s : State) : Machine :=
  let (m, s) := s.bindMethod m o
  let (f, s) := s.newFunction m
  ⟨.value f, tasks, s⟩

/-- Assigns a value to the nearest variable of a name. -/
def assignNearest (chain : Chain) (name : Token) (v : Value) (result : Focus)
    (tasks : List Task) (s : State) : Machine :=
  match s.frames.nearest? chain name.lexeme with
  | some f => ⟨result, tasks, { s with frames := s.frames.define f name.lexeme v }⟩
  | none => ⟨.raised (.undefinedVariable name), tasks, s⟩

/-- Assigns a value to a reference: at its distance, or among the globals. -/
def assign (ref : Ref) (v : Value) (tasks : List Task) (s : State) : Machine :=
  match ref.hops with
  | some d => ⟨.value v, tasks, { s with frames := s.frames.assignAt s.env d ref.name.lexeme v }⟩
  | none => assignNearest globalChain ref.name v (.value v) tasks s

/-- Declares a class over its superclass, if any. Its name is bound already. -/
def declareClass (name : Token) (superclass : Option Class) (methods : List FunDecl)
    (tasks : List Task) (s : State) : Machine :=
  let (chain, s) := s.classChain superclass
  let (c, s) := s.newClass name.lexeme superclass (State.methodTable chain methods)
  assignNearest s.env name c .done tasks s

/-- Runs statements in a frame that has been made for them. -/
def enterBody (body : List Stmt) (chain : Chain) (tasks : List Task) (s : State) : Machine :=
  ⟨.done, .sequence body :: .leave s.env :: tasks, s.enter chain⟩

/-- Runs a function body with its arguments bound to its parameters. -/
def enterFunction (c : Closure) (args : List Value) (exit : CallExit) (tasks : List Task)
    (s : State) : Machine :=
  let vars := (c.decl.params.zip args).foldl (fun b (p, v) => Bindings.insert p.lexeme v b) []
  let (chain, s) := s.newFrame c.chain vars
  enterBody c.decl.body chain (.endCall exit :: tasks) s

/-- Calls a value whose arguments have been checked. -/
def invoke (callee : Value) (args : List Value) (tasks : List Task) (s : State) : Machine :=
  match callee with
  | .function f =>
    let exit := if f.closure.isInit then .receiver f.closure.chain else .returned
    enterFunction f.closure args exit tasks { s with callDepth := s.callDepth + 1 }
  | .cls c =>
    let (o, s) := s.newObject c
    match c.initializer? with
    | some init =>
      let (init, s) := s.bindMethod init o
      enterFunction init args (.object o) tasks { s with callDepth := s.callDepth + 1 }
    | none => ⟨.value (.obj o), tasks, s⟩
  | .builtin .clock =>
    let (t, now) := s.now.read
    ⟨.value (.number t), tasks, { s with now }⟩
  | _ => ⟨.value .nil, tasks, s⟩

/-- Checks a call and makes it. -/
def call (paren : Token) (callee : Value) (args : List Value) (tasks : List Task) (s : State) :
    Machine :=
  match callee.arity? with
  | none => ⟨.raised ⟨paren, .notCallable⟩, tasks, s⟩
  | some arity =>
    if args.length != arity then
      ⟨.raised ⟨paren, .arity arity args.length⟩, tasks, s⟩
    else if maxCallDepth ≤ s.callDepth then
      ⟨.raised ⟨paren, .stackOverflow⟩, tasks, s⟩
    else invoke callee args tasks (s.log (.call callee.inspect args.length))

/-- Opens an expression. -/
def eval (e : Expr) (tasks : List Task) (s : State) : Machine :=
  match e with
  | .literal _ value => ⟨.value (.ofLiteral value), tasks, s⟩
  | .grouping _ inner => ⟨.eval inner, tasks, s⟩
  | .unary op token operand => ⟨.eval operand, .unary op token :: tasks, s⟩
  | .binary op token left right => ⟨.eval left, .binaryRight op token right :: tasks, s⟩
  | .logical op _ left right => ⟨.eval left, .logical op right :: tasks, s⟩
  | .var ref | .this ref =>
    match s.read ref with
    | .ok v => ⟨.value v, tasks, s⟩
    | .error e => ⟨.raised e, tasks, s⟩
  | .assign ref value => ⟨.eval value, .assign ref :: tasks, s⟩
  | .call paren callee args => ⟨.eval callee, .callee paren args :: tasks, s⟩
  | .get object name => ⟨.eval object, .get name :: tasks, s⟩
  | .set object name value => ⟨.eval object, .setObject name value :: tasks, s⟩
  | .super ref method =>
    match s.superMethod ref method with
    | .ok (m, o) => bound m o tasks s
    | .error e => ⟨.raised e, tasks, s⟩

/-- Opens a statement. -/
def exec (stmt : Stmt) (tasks : List Task) (s : State) : Machine :=
  match stmt with
  | .expr _ value => ⟨.eval value, .discard :: tasks, s⟩
  | .print _ value => ⟨.eval value, .print :: tasks, s⟩
  | .varDecl _ name none => ⟨.done, tasks, s.defineHere name.lexeme .nil⟩
  | .varDecl _ name (some init) => ⟨.eval init, .define name :: tasks, s⟩
  | .block _ body =>
    let (chain, s) := s.newFrame s.env []
    enterBody body chain tasks s
  | .ifElse _ cond yes no => ⟨.eval cond, .choose yes no :: tasks, s⟩
  | .loop _ cond body => ⟨.eval cond, .loopTest cond body :: tasks, s⟩
  | .funDecl decl =>
    let (f, s) := s.newFunction ⟨decl, s.env, false⟩
    ⟨.done, tasks, s.defineHere decl.name.lexeme f⟩
  | .ret _ none => ⟨.returned .nil, tasks, s⟩
  | .ret _ (some value) => ⟨.eval value, .ret :: tasks, s⟩
  | .classDecl _ name superclass methods =>
    let s := s.defineHere name.lexeme .nil
    match superclass with
    | some ref => ⟨.eval (.var ref), .superclass name ref methods :: tasks, s⟩
    | none => declareClass name none methods tasks s

/-- Gives a value to the task that waits for it. -/
def resume (v : Value) (task : Task) (tasks : List Task) (s : State) : Machine :=
  match task with
  | .unary op token =>
    match v.applyUnary op with
    | .ok v => ⟨.value v, tasks, s⟩
    | .error fault => ⟨.raised ⟨token, fault⟩, tasks, s⟩
  | .binaryRight op token right => ⟨.eval right, .binary op token v :: tasks, s⟩
  | .binary op token left =>
    match left.applyBinary op v with
    | .ok v => ⟨.value v, tasks, s⟩
    | .error fault => ⟨.raised ⟨token, fault⟩, tasks, s⟩
  | .logical op right =>
    if v.isTruthy == (op == .or) then ⟨.value v, tasks, s⟩ else ⟨.eval right, tasks, s⟩
  | .assign ref => assign ref v tasks s
  | .callee paren [] => call paren v [] tasks s
  | .callee paren (arg :: rest) => ⟨.eval arg, .argument paren v [] rest :: tasks, s⟩
  | .argument paren callee done [] => call paren callee (v :: done).reverse tasks s
  | .argument paren callee done (arg :: rest) =>
    ⟨.eval arg, .argument paren callee (v :: done) rest :: tasks, s⟩
  | .get name =>
    match v with
    | .obj o =>
      match s.property? o name.lexeme with
      | some (.field v) => ⟨.value v, tasks, s⟩
      | some (.method m) => bound m o tasks s
      | none => ⟨.raised ⟨name, .undefinedProperty name.lexeme⟩, tasks, s⟩
    | _ => ⟨.raised ⟨name, .noProperties⟩, tasks, s⟩
  | .setObject name value =>
    match v with
    | .obj o => ⟨.eval value, .setField o name :: tasks, s⟩
    | _ => ⟨.raised ⟨name, .noFields⟩, tasks, s⟩
  | .setField o name => ⟨.value v, tasks, s.setField o name.lexeme v⟩
  | .discard => ⟨.done, tasks, s⟩
  | .print => ⟨.done, tasks, { s with output := s.output.push (v.inspect ++ [Bytes.newline]) }⟩
  | .define name => ⟨.done, tasks, s.defineHere name.lexeme v⟩
  | .choose yes no =>
    if v.isTruthy then ⟨.exec yes, tasks, s⟩
    else match no with
      | some stmt => ⟨.exec stmt, tasks, s⟩
      | none => ⟨.done, tasks, s⟩
  | .loopTest cond body =>
    if v.isTruthy then ⟨.exec body, .loopBody cond body :: tasks, s⟩ else ⟨.done, tasks, s⟩
  | .ret => ⟨.returned v, tasks, s⟩
  | .superclass name ref methods =>
    match v with
    | .cls c => declareClass name (some c) methods tasks s
    | _ => ⟨.raised ⟨ref.name, .superclassNotClass⟩, tasks, s⟩
  | _ => ⟨.value v, tasks, s⟩

/-- The value of a call that ended with the given value. -/
def exitValue (s : State) (returned : Value) : CallExit → Value
  | .returned => returned
  | .receiver chain => s.frames.getAt chain 0 (utf8 "this")
  | .object o => .obj o

/-- Goes on after a statement that ended normally. -/
def proceed (task : Task) (tasks : List Task) (s : State) : Machine :=
  match task with
  | .sequence (stmt :: rest) => ⟨.exec stmt, .sequence rest :: tasks, s⟩
  | .program (stmt :: rest) => ⟨.exec stmt, .program rest :: tasks, s⟩
  | .loopBody cond body => ⟨.eval cond, .loopTest cond body :: tasks, s⟩
  | .leave saved => ⟨.done, tasks, s.leave saved⟩
  | .endCall exit =>
    ⟨.value (exitValue s .nil exit), tasks, { s with callDepth := s.callDepth - 1 }⟩
  | _ => ⟨.done, tasks, s⟩

/-- Unwinds after a `return`, up to the call that it ends. -/
def unwindReturn (v : Value) (task : Task) (tasks : List Task) (s : State) : Machine :=
  match task with
  | .leave saved => ⟨.returned v, tasks, s.leave saved⟩
  | .endCall exit =>
    ⟨.value (exitValue s v exit), tasks, { s with callDepth := s.callDepth - 1 }⟩
  | .program rest => ⟨.done, .program rest :: tasks, s⟩
  | _ => ⟨.returned v, tasks, s⟩

/-- Unwinds after a runtime error, all the way. -/
def unwindError (e : RuntimeError) (task : Task) (tasks : List Task) (s : State) : Machine :=
  match task with
  | .leave saved => ⟨.raised e, tasks, s.leave saved⟩
  | .endCall _ => ⟨.raised e, tasks, { s with callDepth := s.callDepth - 1 }⟩
  | _ => ⟨.raised e, tasks, s⟩

/-- One step. A result that no task waits for is final. -/
def step (m : Machine) : Machine :=
  match m with
  | ⟨.eval e, tasks, s⟩ => eval e tasks s
  | ⟨.exec stmt, tasks, s⟩ => exec stmt tasks s
  | ⟨.value v, task :: tasks, s⟩ => resume v task tasks s
  | ⟨.done, task :: tasks, s⟩ => proceed task tasks s
  | ⟨.returned v, task :: tasks, s⟩ => unwindReturn v task tasks s
  | ⟨.raised e, task :: tasks, s⟩ => unwindError e task tasks s
  | ⟨.value v, [], s⟩ => ⟨.value v, [], s⟩
  | ⟨.done, [], s⟩ => ⟨.done, [], s⟩
  | ⟨.returned v, [], s⟩ => ⟨.returned v, [], s⟩
  | ⟨.raised e, [], s⟩ => ⟨.raised e, [], s⟩

/-- Whether the machine has come to its end. -/
def halted (m : Machine) : Bool :=
  match m.focus with
  | .eval _ | .exec _ => false
  | _ => m.tasks.isEmpty

/-- At most `fuel` steps. -/
def run (fuel : Nat) (m : Machine) : Machine :=
  match fuel with
  | 0 => m
  | fuel + 1 => if m.halted then m else run fuel m.step

/-- The machine about to run statements at the top level. -/
def start (program : List Stmt) (s : State) : Machine := ⟨.done, [.program program], s⟩

end Machine

end Lox
