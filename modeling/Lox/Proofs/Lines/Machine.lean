import Lox.Proofs.Lines.Store
import Lox.Proofs.Machine.Sessions
import Lox.Proofs.Machine.Stack
/-!
# The machine does not look at lines

A machine whose tokens stand on other lines, and that has printed something before, takes the
same steps (`Machine.step_recast`), so it ends in the same way: a runtime error is blamed on the
same token, wherever that now stands (`Machine.run_recast`).
-/

namespace Lox

def RuntimeError.reline (g : Nat → Nat) (e : RuntimeError) : RuntimeError :=
  { e with token := e.token.reline g }

def State.Property.reline (g : Nat → Nat) : State.Property → State.Property
  | .field v => .field (v.reline g)
  | .method m => .method (m.reline g)

def CallExit.reline (g : Nat → Nat) : CallExit → CallExit
  | .object o => .object (o.reline g)
  | exit => exit

def Task.reline (g : Nat → Nat) : Task → Task
  | .unary op token => .unary op (token.reline g)
  | .binaryRight op token right => .binaryRight op (token.reline g) (right.reline g)
  | .binary op token left => .binary op (token.reline g) (left.reline g)
  | .logical op right => .logical op (right.reline g)
  | .assign ref => .assign (ref.reline g)
  | .callee paren args => .callee (paren.reline g) (Expr.relineAll g args)
  | .argument paren f done rest =>
    .argument (paren.reline g) (f.reline g) (done.map (Value.reline g)) (Expr.relineAll g rest)
  | .get name => .get (name.reline g)
  | .setObject name value => .setObject (name.reline g) (value.reline g)
  | .setField o name => .setField (o.reline g) (name.reline g)
  | .discard => .discard
  | .print => .print
  | .define name => .define (name.reline g)
  | .choose yes no => .choose (yes.reline g) (no.map (Stmt.reline g))
  | .loopTest cond body => .loopTest (cond.reline g) (body.reline g)
  | .loopBody cond body => .loopBody (cond.reline g) (body.reline g)
  | .ret => .ret
  | .superclass name ref methods =>
    .superclass (name.reline g) (ref.reline g) (FunDecl.relineAll g methods)
  | .sequence rest => .sequence (Stmt.relineAll g rest)
  | .leave saved => .leave saved
  | .endCall exit => .endCall (exit.reline g)
  | .program rest => .program (Stmt.relineAll g rest)

def Focus.reline (g : Nat → Nat) : Focus → Focus
  | .eval e => .eval (e.reline g)
  | .exec s => .exec (s.reline g)
  | .value v => .value (v.reline g)
  | .done => .done
  | .returned v => .returned (v.reline g)
  | .raised e => .raised (e.reline g)

namespace Machine

def recast (ρ : Recast) (m : Machine) : Machine :=
  ⟨m.focus.reline ρ.lines, m.tasks.map (Task.reline ρ.lines), m.state.recast ρ⟩

variable (ρ : Recast) (tasks : List Task) (s : State)

/-! ## Objects and variables -/

theorem bound_recast (c : Closure) (o : Instance) :
    bound (c.reline ρ.lines) (o.reline ρ.lines) (tasks.map (Task.reline ρ.lines)) (s.recast ρ) =
      (bound c o tasks s).recast ρ := by
  unfold bound
  rw [State.bindMethod_recast]
  rfl

theorem assignNearest_recast (chain : Chain) (name : Token) (v : Value) (result : Focus) :
    assignNearest chain (name.reline ρ.lines) (v.reline ρ.lines) (result.reline ρ.lines)
        (tasks.map (Task.reline ρ.lines)) (s.recast ρ) =
      (assignNearest chain name v result tasks s).recast ρ := by
  have hnearest := Frames.nearest?_reline ρ.lines s.frames chain name.lexeme
  unfold assignNearest
  rw [show (s.recast ρ).frames.nearest? chain (name.reline ρ.lines).lexeme = _ from hnearest]
  cases s.frames.nearest? chain name.lexeme with
  | none => rfl
  | some f =>
    simp only [recast, State.recast, Frames.define_reline]
    rfl

theorem assign_recast (ref : Ref) (v : Value) :
    assign (ref.reline ρ.lines) (v.reline ρ.lines) (tasks.map (Task.reline ρ.lines))
        (s.recast ρ) =
      (assign ref v tasks s).recast ρ := by
  obtain ⟨name, hops⟩ := ref
  cases hops with
  | none => exact assignNearest_recast ρ _ _ globalChain name v (.value v)
  | some d =>
    simp only [assign, Ref.reline, recast, State.recast, Frames.assignAt_reline]
    rfl

theorem declareClass_recast (name : Token) (superclass : Option Class) (ms : List FunDecl) :
    declareClass (name.reline ρ.lines) (superclass.map (Class.reline ρ.lines))
        (FunDecl.relineAll ρ.lines ms) (tasks.map (Task.reline ρ.lines)) (s.recast ρ) =
      (declareClass name superclass ms tasks s).recast ρ := by
  unfold declareClass
  rw [State.classChain_recast]
  simp only [State.methodTable_reline, show (name.reline ρ.lines).lexeme = name.lexeme from rfl]
  rw [State.newClass_recast]
  generalize (s.classChain superclass).2.newClass name.lexeme superclass _ = made
  exact assignNearest_recast ρ tasks made.2 made.2.env name made.1 .done

/-! ## Calls -/

theorem enterBody_recast (body : List Stmt) (chain : Chain) :
    enterBody (Stmt.relineAll ρ.lines body) chain (tasks.map (Task.reline ρ.lines)) (s.recast ρ) =
      (enterBody body chain tasks s).recast ρ := by
  unfold enterBody
  rw [State.enter_recast]
  rfl

/-- The variables of a call: its parameters, bound to the arguments one by one. -/
def bindAll (params : List Token) (args : List Value) (vars : Bindings Value) : Bindings Value :=
  (params.zip args).foldl (fun b p => b.insert p.1.lexeme p.2) vars

theorem bindAll_reline (g : Nat → Nat) : ∀ (params : List Token) (args : List Value)
    (vars : Bindings Value),
    bindAll (params.map (Token.reline g)) (args.map (Value.reline g))
        (vars.mapValues (Value.reline g)) =
      (bindAll params args vars).mapValues (Value.reline g)
  | [], _, _ => rfl
  | _ :: _, [], _ => rfl
  | p :: params, v :: args, vars => by
    have ih := bindAll_reline g params args (vars.insert p.lexeme v)
    rw [Bindings.mapValues_insert] at ih
    exact ih

theorem enterFunction_eq (c : Closure) (args : List Value) (exit : CallExit) :
    enterFunction c args exit tasks s =
      enterBody c.decl.body (s.newFrame c.chain (bindAll c.decl.params args [])).1
        (.endCall exit :: tasks) (s.newFrame c.chain (bindAll c.decl.params args [])).2 := rfl

theorem enterFunction_recast (c : Closure) (args : List Value) (exit : CallExit) :
    enterFunction (c.reline ρ.lines) (args.map (Value.reline ρ.lines)) (exit.reline ρ.lines)
        (tasks.map (Task.reline ρ.lines)) (s.recast ρ) =
      (enterFunction c args exit tasks s).recast ρ := by
  have hvars : bindAll (c.reline ρ.lines).decl.params (args.map (Value.reline ρ.lines)) [] =
      (bindAll c.decl.params args []).mapValues (Value.reline ρ.lines) := by
    rw [show (c.reline ρ.lines).decl.params = _ from c.decl.params_reline ρ.lines]
    exact bindAll_reline ρ.lines c.decl.params args []
  rw [enterFunction_eq, enterFunction_eq, hvars,
    show (c.reline ρ.lines).decl.body = _ from c.decl.body_reline ρ.lines,
    show (c.reline ρ.lines).chain = c.chain from rfl, State.newFrame_recast]
  exact enterBody_recast ρ (.endCall exit :: tasks) _ c.decl.body _

theorem invoke_recast (callee : Value) (args : List Value) :
    invoke (callee.reline ρ.lines) (args.map (Value.reline ρ.lines))
        (tasks.map (Task.reline ρ.lines)) (s.recast ρ) =
      (invoke callee args tasks s).recast ρ := by
  cases callee with
  | function f =>
    have hexit : (if f.closure.isInit then CallExit.receiver f.closure.chain else .returned) =
        CallExit.reline ρ.lines
          (if f.closure.isInit then .receiver f.closure.chain else .returned) := by
      split <;> rfl
    have henter := enterFunction_recast ρ tasks { s with callDepth := s.callDepth + 1 }
      f.closure args
      (if f.closure.isInit then .receiver f.closure.chain else .returned)
    rw [← hexit] at henter
    exact henter
  | cls c =>
    simp only [invoke, Value.reline]
    rw [State.newObject_recast, Class.initializer?_reline]
    cases c.initializer? with
    | none => rfl
    | some init =>
      simp only [Option.map_some, State.bindMethod_recast]
      exact enterFunction_recast ρ tasks { ((s.newObject c).2.bindMethod init _).2 with
        callDepth := ((s.newObject c).2.bindMethod init _).2.callDepth + 1 } _ args (.object _)
  | builtin b => cases b; rfl
  | _ => rfl

theorem call_recast (paren : Token) (callee : Value) (args : List Value) :
    call (paren.reline ρ.lines) (callee.reline ρ.lines) (args.map (Value.reline ρ.lines))
        (tasks.map (Task.reline ρ.lines)) (s.recast ρ) =
      (call paren callee args tasks s).recast ρ := by
  unfold call
  rw [Value.arity?_reline, List.length_map, Value.inspect_reline, State.log_recast,
    show (s.recast ρ).callDepth = s.callDepth from rfl]
  cases callee.arity? with
  | none => rfl
  | some arity =>
    simp only
    split
    · rfl
    · split
      · rfl
      · exact invoke_recast ρ _ _ callee args

/-! ## Opening syntax -/

theorem read_recast (ref : Ref) :
    (s.recast ρ).read (ref.reline ρ.lines) =
      ((s.read ref).map (Value.reline ρ.lines)).mapError (RuntimeError.reline ρ.lines) := by
  obtain ⟨name, hops⟩ := ref
  cases hops with
  | some d =>
    have hget := Frames.getAt_reline ρ.lines s.frames s.env d name.lexeme
    exact congrArg Except.ok hget
  | none =>
    have hget := Frames.get?_reline ρ.lines s.frames globalChain name.lexeme
    simp only [State.read, Ref.reline]
    rw [show (s.recast ρ).frames.get? globalChain (name.reline ρ.lines).lexeme = _ from hget]
    cases s.frames.get? globalChain name.lexeme <;> rfl

theorem superMethod_recast (ref : Ref) (method : Token) :
    (s.recast ρ).superMethod (ref.reline ρ.lines) (method.reline ρ.lines) =
      ((s.superMethod ref method).map
        (Prod.map (Closure.reline ρ.lines) (Instance.reline ρ.lines))).mapError
          (RuntimeError.reline ρ.lines) := by
  have hget := fun d name => Frames.getAt_reline ρ.lines s.frames s.env d name
  have hframes : (s.recast ρ).frames.getAt (s.recast ρ).env =
      fun d name => (s.frames.getAt s.env d name).reline ρ.lines := by
    funext d name
    exact hget d name
  simp only [State.superMethod, hframes, show (ref.reline ρ.lines).hops = ref.hops from rfl]
  cases s.frames.getAt s.env (ref.hops.getD 0) (utf8 "super") with
  | cls c =>
    simp only [Value.reline]
    cases s.frames.getAt s.env (ref.hops.getD 0 - 1) (utf8 "this") with
    | obj o =>
      have hlexeme : (method.reline ρ.lines).lexeme = method.lexeme := rfl
      simp only [Class.findMethod_reline, hlexeme]
      cases c.findMethod method.lexeme <;> rfl
    | _ => rfl
  | _ => rfl

theorem eval_recast (e : Expr) :
    eval (e.reline ρ.lines) (tasks.map (Task.reline ρ.lines)) (s.recast ρ) =
      (eval e tasks s).recast ρ := by
  cases e with
  | literal token value =>
    simp only [Expr.reline, eval, recast, Focus.reline, Value.ofLiteral_reline]
  | var ref =>
    simp only [Expr.reline, eval, read_recast]
    cases s.read ref <;> rfl
  | this ref =>
    simp only [Expr.reline, eval, read_recast]
    cases s.read ref <;> rfl
  | super ref method =>
    simp only [Expr.reline, eval, superMethod_recast]
    cases s.superMethod ref method with
    | error e => rfl
    | ok found => exact bound_recast ρ _ _ found.1 found.2
  | _ => rfl

theorem exec_recast (stmt : Stmt) :
    exec (stmt.reline ρ.lines) (tasks.map (Task.reline ρ.lines)) (s.recast ρ) =
      (exec stmt tasks s).recast ρ := by
  cases stmt with
  | varDecl keyword name init =>
    cases init with
    | none =>
      have hdefine := State.defineHere_recast ρ s name.lexeme .nil
      simp only [Stmt.reline, Option.map_none, exec]
      rw [show (s.recast ρ).defineHere (name.reline ρ.lines).lexeme .nil = _ from hdefine]
      rfl
    | some e => rfl
  | block brace body =>
    have hframe := State.newFrame_recast ρ s s.env []
    simp only [Stmt.reline, exec]
    rw [show (s.recast ρ).newFrame (s.recast ρ).env [] = _ from hframe]
    exact enterBody_recast ρ _ _ body _
  | ifElse keyword cond yes no => cases no <;> rfl
  | funDecl decl =>
    have hdefine := State.defineHere_recast ρ (s.newFunction ⟨decl, s.env, false⟩).2
      decl.name.lexeme (s.newFunction ⟨decl, s.env, false⟩).1
    simp only [Stmt.reline, exec, FunDecl.name_reline]
    exact congrArg (Machine.mk .done _) hdefine
  | ret keyword value => cases value <;> rfl
  | classDecl keyword name superclass ms =>
    have hdefine := State.defineHere_recast ρ s name.lexeme .nil
    simp only [Stmt.reline, exec]
    rw [show (s.recast ρ).defineHere (name.reline ρ.lines).lexeme .nil = _ from hdefine]
    cases superclass with
    | none => exact declareClass_recast ρ _ _ name none ms
    | some ref => rfl
  | _ => rfl

/-! ## Giving results to tasks -/

theorem property?_recast (o : Instance) (name : Bytes) :
    (s.recast ρ).property? (o.reline ρ.lines) name =
      (s.property? o name).map (State.Property.reline ρ.lines) := by
  unfold State.property?
  rw [State.field?_recast]
  cases s.field? o name with
  | some v => rfl
  | none =>
    have hfind := o.cls.findMethod_reline ρ.lines name
    simp only [Option.map_none, show (o.reline ρ.lines).cls = o.cls.reline ρ.lines from rfl, hfind]
    cases o.cls.findMethod name <;> rfl

theorem resume_recast (v : Value) (task : Task) :
    resume (v.reline ρ.lines) (task.reline ρ.lines) (tasks.map (Task.reline ρ.lines))
        (s.recast ρ) =
      (resume v task tasks s).recast ρ := by
  cases task with
  | unary op token =>
    simp only [Task.reline, resume, Value.applyUnary_reline]
    cases v.applyUnary op <;> rfl
  | binary op token left =>
    simp only [Task.reline, resume, Value.applyBinary_reline]
    cases left.applyBinary op v <;> rfl
  | logical op right =>
    simp only [Task.reline, resume, Value.isTruthy_reline]
    split <;> rfl
  | assign ref => exact assign_recast ρ _ _ ref v
  | callee paren args =>
    cases args with
    | nil => exact call_recast ρ _ _ paren v []
    | cons arg rest => rfl
  | argument paren callee done rest =>
    cases rest with
    | nil =>
      simp only [Task.reline, Expr.relineAll, resume, ← List.map_cons, ← List.map_reverse]
      exact call_recast ρ _ _ paren callee _
    | cons arg rest => rfl
  | get name =>
    cases v with
    | obj o =>
      simp only [Task.reline, Value.reline, resume,
        show (name.reline ρ.lines).lexeme = name.lexeme from rfl, property?_recast]
      cases s.property? o name.lexeme with
      | none => rfl
      | some p =>
        cases p with
        | field v => rfl
        | method m => exact bound_recast ρ _ _ m o
    | _ => rfl
  | setObject name value => cases v <;> rfl
  | setField o name =>
    simp only [Task.reline, resume]
    exact congrArg (Machine.mk _ _) (State.setField_recast ρ s o name.lexeme v)
  | print =>
    simp only [Task.reline, resume, Value.inspect_reline, recast, State.recast,
      Array.append_push]
    rfl
  | define name =>
    simp only [Task.reline, resume]
    exact congrArg (Machine.mk _ _) (State.defineHere_recast ρ s name.lexeme v)
  | choose yes no =>
    simp only [Task.reline, resume, Value.isTruthy_reline]
    split
    · rfl
    · cases no <;> rfl
  | loopTest cond body =>
    simp only [Task.reline, resume, Value.isTruthy_reline]
    split <;> rfl
  | superclass name ref ms =>
    cases v with
    | cls c => exact declareClass_recast ρ _ _ name (some c) ms
    | _ => rfl
  | _ => rfl

theorem exitValue_recast (v : Value) (exit : CallExit) :
    exitValue (s.recast ρ) (v.reline ρ.lines) (exit.reline ρ.lines) =
      (exitValue s v exit).reline ρ.lines := by
  cases exit with
  | receiver chain => exact Frames.getAt_reline ρ.lines s.frames chain 0 (utf8 "this")
  | _ => rfl

theorem proceed_recast (task : Task) :
    proceed (task.reline ρ.lines) (tasks.map (Task.reline ρ.lines)) (s.recast ρ) =
      (proceed task tasks s).recast ρ := by
  cases task with
  | sequence rest => cases rest <;> rfl
  | program rest => cases rest <;> rfl
  | leave saved => exact congrArg (Machine.mk _ _) (State.leave_recast ρ s saved)
  | endCall exit =>
    have hexit := exitValue_recast ρ s .nil exit
    simp only [Task.reline, proceed]
    rw [show exitValue (s.recast ρ) .nil (exit.reline ρ.lines) = _ from hexit]
    rfl
  | _ => rfl

theorem unwindReturn_recast (v : Value) (task : Task) :
    unwindReturn (v.reline ρ.lines) (task.reline ρ.lines) (tasks.map (Task.reline ρ.lines))
        (s.recast ρ) =
      (unwindReturn v task tasks s).recast ρ := by
  cases task with
  | leave saved => exact congrArg (Machine.mk _ _) (State.leave_recast ρ s saved)
  | endCall exit =>
    simp only [Task.reline, unwindReturn, exitValue_recast]
    rfl
  | _ => rfl

theorem unwindError_recast (e : RuntimeError) (task : Task) :
    unwindError (e.reline ρ.lines) (task.reline ρ.lines) (tasks.map (Task.reline ρ.lines))
        (s.recast ρ) =
      (unwindError e task tasks s).recast ρ := by
  cases task with
  | leave saved => exact congrArg (Machine.mk _ _) (State.leave_recast ρ s saved)
  | _ => rfl

/-! ## Runs -/

theorem step_recast (m : Machine) : (m.recast ρ).step = m.step.recast ρ := by
  obtain ⟨focus, tasks, s⟩ := m
  cases focus with
  | eval e => exact eval_recast ρ _ _ e
  | exec stmt => exact exec_recast ρ _ _ stmt
  | value v =>
    cases tasks with
    | nil => rfl
    | cons task tasks => exact resume_recast ρ _ _ v task
  | done =>
    cases tasks with
    | nil => rfl
    | cons task tasks => exact proceed_recast ρ _ _ task
  | returned v =>
    cases tasks with
    | nil => rfl
    | cons task tasks => exact unwindReturn_recast ρ _ _ v task
  | raised e =>
    cases tasks with
    | nil => rfl
    | cons task tasks => exact unwindError_recast ρ _ _ e task

theorem halted_recast (m : Machine) : (m.recast ρ).halted = m.halted := by
  obtain ⟨focus, tasks, s⟩ := m
  cases focus <;> cases tasks <;> rfl

/-- **A run does not look at lines**, nor at what was printed before. -/
theorem run_recast (n : Nat) (m : Machine) : (m.recast ρ).run n = (m.run n).recast ρ := by
  induction n generalizing m with
  | zero => rfl
  | succ n ih =>
    cases h : m.halted with
    | true => rw [run_of_halted h, run_of_halted (by rw [halted_recast, h])]
    | false => rw [run_succ h, run_succ (by rw [halted_recast, h]), step_recast, ih]

end Machine

def Outcome.reline (g : Nat → Nat) : Outcome → Outcome
  | .failed e => .failed (e.reline g)
  | outcome => outcome

theorem Machine.ending_recast (ρ : Recast) (m : Machine) :
    (m.recast ρ).ending = (m.ending.1.reline ρ.lines, m.ending.2.recast ρ) := by
  obtain ⟨focus, tasks, s⟩ := m
  cases focus <;> cases tasks <;> rfl

end Lox
