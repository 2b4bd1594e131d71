import Lox.Proofs.Machine.World
/-!
# The invariant of a run

A machine that runs accepted programs is always at a position: what it runs was resolved there,
its scope chain matches the scopes of that position, and so do the chains that waiting tasks will
go back to. `Invariant` puts this together with what holds of everything in the store.
-/

namespace Lox

variable (programs : List Stmt → Prop)

/-- What holds of everything in the store. -/
structure World.StoreOk (w : World) (s : State) : Prop where
  frames : w.frames = s.frames
  globals : globalFrame < s.frames.size
  globalLayer : w.layerOf globalFrame = none
  fresh : ∀ f l, w.layerOf f = some l → f < s.frames.size
  values : ∀ f x v, s.frames.lookup f x = some v → w.ValueOk programs v
  /-- A frame binds only names of the text that it was made for. -/
  names : ∀ f x l, w.layerOf f = some l → s.frames.binds f x = true → l.Allows x
  fields : ∀ (o : Instance) x v, s.field? o x = some v → w.ValueOk programs v
  log : ∀ d ∈ w.log, w.DeclarationOk programs d
  ids : ∀ d ∈ w.log, d.cls.entry.id < s.nextId

/-- What a call gives back when its body ends. -/
def World.ExitOk (w : World) : CallExit → Prop
  | .returned => True
  | .receiver chain => ∃ t outer o, chain = t :: outer ∧
      w.frames.lookup t (utf8 "this") = some (.obj o) ∧ w.ClassOk o.cls
  | .object o => w.ClassOk o.cls

/-- A task that turns a value into a value. -/
def World.OperandTask (w : World) (ls : List Layer) (ss : List Scope) : Task → Prop
  | .unary _ _ | .get _ => True
  | .binary _ _ left => w.ValueOk programs left
  | .setField o _ => w.ClassOk o.cls
  | .binaryRight _ _ e | .logical _ e | .setObject _ e => ExprAt programs ls ss e
  | .assign ref => ∃ e, ExprAt programs ls ss (.assign ref e)
  | .callee _ args => ExprsAt programs ls ss args
  | .argument _ f done rest => w.ValueOk programs f ∧ (∀ v ∈ done, w.ValueOk programs v) ∧
      ExprsAt programs ls ss rest
  | _ => False

/-- A task that ends a statement, or goes on with it, when it gets a value. -/
def StatementTask (ls : List Layer) (ss : List Scope) : Task → Prop
  | .discard | .print | .ret => True
  | .choose yes no => StmtAt programs ls ss ss yes ∧
      ∀ s, no = some s → StmtAt programs ls ss ss s
  | .loopTest cond body => ExprAt programs ls ss cond ∧ StmtAt programs ls ss ss body
  | .superclass name ref ms => Ordinary name.lexeme ∧ Layer.Holds ls name.lexeme ∧
      MethodsAt programs (.this ⟨name, some ref, ms⟩ :: .super ⟨name, some ref, ms⟩ :: ls)
        (thisScope :: superScope :: ss) ms
  | _ => False

/-- What a task waits for: a value, or the end of a statement. -/
inductive Awaited where
  | value | done

/-- The tasks wait at a position with the given chain, layers and scopes. -/
inductive World.Waits (w : World) :
    Awaited → Chain → List Layer → List Scope → List Task → Prop
  | halt : Waits w .done globalChain [] [] []
  | program {rest : List Stmt} {inner : List Scope} : StmtsAt programs [] [] inner rest →
    Waits w .done globalChain [] [] [.program rest]
  | operand {c : Chain} {ls : List Layer} {ss : List Scope} {task : Task} {ts : List Task} :
    w.OperandTask programs ls ss task → Waits w .value c ls ss ts →
    Waits w .value c ls ss (task :: ts)
  | statement {c : Chain} {ls : List Layer} {ss : List Scope} {task : Task} {ts : List Task} :
    (∀ scope ∈ ss, scope.Ready) → StatementTask programs ls ss task → Waits w .done c ls ss ts →
    Waits w .value c ls ss (task :: ts)
  | define {c : Chain} {ls : List Layer} {ss : List Scope} {ts : List Task} {name : Token} :
    (∀ scope ∈ ss, scope.Ready) → Ordinary name.lexeme → Layer.Holds ls name.lexeme →
    Waits w .done c ls (Resolver.marked name.lexeme true ss) ts →
    Waits w .value c ls (Resolver.marked name.lexeme false ss) (.define name :: ts)
  | loopBody {c : Chain} {ls : List Layer} {ss : List Scope} {ts : List Task} {cond : Expr}
      {body : Stmt} : ExprAt programs ls ss cond → StmtAt programs ls ss ss body →
    Waits w .done c ls ss ts → Waits w .done c ls ss (.loopBody cond body :: ts)
  | sequence {c : Chain} {ls : List Layer} {ss inner : List Scope} {ts : List Task}
      {rest : List Stmt} : StmtsAt programs ls ss inner rest → Waits w .done c ls inner ts →
    Waits w .done c ls ss (.sequence rest :: ts)
  | leave {c saved : Chain} {ls ls' : List Layer} {ss ss' : List Scope} {ts : List Task} :
    w.Matches saved ls' ss' → Waits w .done saved ls' ss' ts →
    Waits w .done c ls ss (.leave saved :: ts)
  | endCall {c : Chain} {ls ls' : List Layer} {ss ss' : List Scope} {ts : List Task}
      {exit : CallExit} : w.ExitOk exit → w.Matches c ls' ss' → Waits w .value c ls' ss' ts →
    Waits w .done c ls ss (.endCall exit :: ts)

/-- What the machine is doing fits the position it is at. -/
def World.FocusOk (w : World) (env : Chain) (tasks : List Task) : Focus → Prop
  | .eval e => ∃ ls ss, w.Matches env ls ss ∧ ExprAt programs ls ss e ∧
      w.Waits programs .value env ls ss tasks
  | .exec s => ∃ ls ss ss', w.Matches env ls ss ∧ StmtAt programs ls ss ss' s ∧
      w.Waits programs .done env ls ss' tasks
  | .value v => w.ValueOk programs v ∧ ∃ ls ss, w.Matches env ls ss ∧
      w.Waits programs .value env ls ss tasks
  | .done => ∃ ls ss, w.Matches env ls ss ∧ w.Waits programs .done env ls ss tasks
  -- tasks are dropped on the way out, so any of them may come first
  | .returned v => w.ValueOk programs v ∧ ∃ a ls ss, w.Waits programs a env ls ss tasks
  | .raised _ => ∃ a ls ss, w.Waits programs a env ls ss tasks

/-- The machine is at a position of the programs, in a world that fits its store. -/
structure World.Invariant (w : World) (m : Machine) : Prop where
  store : w.StoreOk programs m.state
  focus : w.FocusOk programs m.state.env m.tasks m.focus

variable {programs} {w w' : World}

theorem World.ExitOk.mono (hw : w.Grows w') : ∀ {exit : CallExit}, w.ExitOk exit → w'.ExitOk exit
  | .returned, _ => trivial
  | .receiver _, ⟨t, outer, o, hc, hl, ho⟩ =>
    ⟨t, outer, o, hc, hw.keeps _ _ _ not_ordinary_this hl, ho.mono hw⟩
  | .object _, h => ClassOk.mono hw h

theorem World.OperandTask.mono (hw : w.Grows w') {ls : List Layer} {ss : List Scope}
    {task : Task} (h : w.OperandTask programs ls ss task) :
    w'.OperandTask programs ls ss task := by
  cases task with
  | argument _ f done rest =>
    exact ⟨h.1.mono hw, fun v hv => (h.2.1 v hv).mono hw, h.2.2⟩
  | binary _ _ left => exact ValueOk.mono hw h
  | setField o _ => exact ClassOk.mono hw h
  | _ => exact h

theorem World.Waits.mono (hw : w.Grows w') {a : Awaited} {c : Chain} {ls : List Layer}
    {ss : List Scope} {ts : List Task} (h : w.Waits programs a c ls ss ts) :
    w'.Waits programs a c ls ss ts := by
  induction h with
  | halt => exact .halt
  | program hs => exact .program hs
  | operand ht _ ih => exact .operand (ht.mono hw) ih
  | statement hr ht _ ih => exact .statement hr ht ih
  | define hr ho hh _ ih => exact .define hr ho hh ih
  | loopBody hc hb _ ih => exact .loopBody hc hb ih
  | sequence hs _ ih => exact .sequence hs ih
  | leave hm _ ih => exact .leave (hm.mono hw) ih
  | endCall he hm _ ih => exact .endCall (he.mono hw) (hm.mono hw) ih

end Lox
