import Lox.Machine.Step
import Lox.Proofs.Lines.Tree
/-!
# Values and states on other lines

Functions and methods carry the tokens of their bodies, so moving a program to other lines moves
the values it leaves behind. Nothing that the machine asks of a value looks at those lines. A
`Recast` also puts lines printed before, and events logged before, in front of a state's own.
-/

namespace Lox

namespace Bindings

variable {α β γ : Type}

def mapValues (f : α → β) (b : Bindings α) : Bindings β := b.map fun p => (p.1, f p.2)

variable (f : α → β)

theorem get?_mapValues (name : Bytes) : ∀ b : Bindings α,
    get? name (mapValues f b) = (get? name b).map f
  | [] => rfl
  | (n, v) :: rest => by
    have ih := get?_mapValues name rest
    unfold mapValues at ih ⊢
    simp only [List.map_cons, get?, ih]
    split <;> rfl

theorem mapValues_insert (name : Bytes) (v : α) : ∀ b : Bindings α,
    mapValues f (insert name v b) = insert name (f v) (mapValues f b)
  | [] => rfl
  | (n, w) :: rest => by
    have ih := mapValues_insert name v rest
    unfold mapValues at ih ⊢
    simp only [List.map_cons, insert]
    split
    · rfl
    · rw [List.map_cons, ih]

theorem length_mapValues (b : Bindings α) : (mapValues f b).length = b.length := List.length_map ..

theorem mapValues_mapValues (f : β → γ) (g : α → β) (b : Bindings α) :
    mapValues f (mapValues g b) = mapValues (f ∘ g) b := List.map_map

theorem mapValues_id (b : Bindings α) : mapValues id b = b := List.map_id b

end Bindings

/-! ## Values -/

def Closure.reline (g : Nat → Nat) (c : Closure) : Closure := { c with decl := c.decl.reline g }

def Function.reline (g : Nat → Nat) (f : Function) : Function :=
  { f with closure := f.closure.reline g }

def ClassEntry.reline (g : Nat → Nat) (e : ClassEntry) : ClassEntry :=
  { e with methods := e.methods.mapValues (Closure.reline g) }

def Class.reline (g : Nat → Nat) (c : Class) : Class :=
  ⟨c.entry.reline g, c.ancestors.map (ClassEntry.reline g)⟩

def Instance.reline (g : Nat → Nat) (o : Instance) : Instance := { o with cls := o.cls.reline g }

def Value.reline (g : Nat → Nat) : Value → Value
  | .function f => .function (f.reline g)
  | .cls c => .cls (c.reline g)
  | .obj o => .obj (o.reline g)
  | v => v

section
variable (g h : Nat → Nat)

theorem FunDecl.name_reline (f : FunDecl) : (f.reline g).name = f.name.reline g := by
  cases f
  rfl

theorem FunDecl.params_reline (f : FunDecl) :
    (f.reline g).params = f.params.map (Token.reline g) := by
  cases f
  rfl

theorem FunDecl.body_reline (f : FunDecl) : (f.reline g).body = Stmt.relineAll g f.body := by
  cases f
  rfl

theorem Closure.name_reline (c : Closure) : (c.reline g).name = c.name := by
  simp only [name, reline, FunDecl.name_reline]
  rfl

theorem Closure.arity_reline (c : Closure) : (c.reline g).arity = c.arity := by
  simp only [arity, reline, FunDecl.params_reline, List.length_map]

theorem Class.lineage_reline (c : Class) :
    (c.reline g).lineage = c.lineage.map (ClassEntry.reline g) := rfl

theorem Class.findMethod_reline (c : Class) (name : Bytes) :
    (c.reline g).findMethod name = (c.findMethod name).map (Closure.reline g) := by
  unfold findMethod
  have hget : (fun e : ClassEntry => e.methods.get? name) ∘ ClassEntry.reline g =
      Option.map (Closure.reline g) ∘ fun e => e.methods.get? name :=
    funext fun e => Bindings.get?_mapValues _ name e.methods
  rw [lineage_reline, List.findSome?_map, List.map_findSome?, hget]

theorem Class.initializer?_reline (c : Class) :
    (c.reline g).initializer? = c.initializer?.map (Closure.reline g) := c.findMethod_reline g _

theorem Class.arity_reline (c : Class) : (c.reline g).arity = c.arity := by
  unfold arity
  rw [initializer?_reline]
  cases c.initializer? with
  | none => rfl
  | some init => exact init.arity_reline g

namespace Value

theorem kind_reline (v : Value) : (v.reline g).kind = v.kind := by cases v <;> rfl

theorem isTruthy_reline (v : Value) : (v.reline g).isTruthy = v.isTruthy := by cases v <;> rfl

theorem inspect_reline (v : Value) : (v.reline g).inspect = v.inspect := by
  cases v with
  | function f => simp only [reline, inspect, Function.reline, Closure.name_reline]
  | _ => rfl

theorem arity?_reline (v : Value) : (v.reline g).arity? = v.arity? := by
  cases v with
  | function f => exact congrArg some (f.closure.arity_reline g)
  | cls c => exact congrArg some (c.arity_reline g)
  | builtin b => cases b; rfl
  | _ => rfl

theorem ofLiteral_reline (l : Literal) : (ofLiteral l).reline g = ofLiteral l := by cases l <;> rfl

theorem applyUnary_reline (op : UnaryOp) (v : Value) :
    (v.reline g).applyUnary op = (v.applyUnary op).map (reline g) := by
  cases op <;> cases v <;> rfl

theorem applyBinary_reline (op : BinaryOp) (v w : Value) :
    (v.reline g).applyBinary op (w.reline g) = (v.applyBinary op w).map (reline g) := by
  cases op <;> cases v <;> cases w <;> rfl

end Value

/-! ## Moving twice, moving not at all -/

theorem Closure.reline_reline (c : Closure) : (c.reline h).reline g = c.reline (g ∘ h) := by
  simp only [reline, FunDecl.reline_reline]

theorem ClassEntry.reline_reline (e : ClassEntry) : (e.reline h).reline g = e.reline (g ∘ h) := by
  have hc : Closure.reline g ∘ Closure.reline h = Closure.reline (g ∘ h) :=
    funext (Closure.reline_reline g h)
  simp only [reline, Bindings.mapValues_mapValues, hc]

theorem Class.reline_reline (c : Class) : (c.reline h).reline g = c.reline (g ∘ h) := by
  have he : ClassEntry.reline g ∘ ClassEntry.reline h = ClassEntry.reline (g ∘ h) :=
    funext (ClassEntry.reline_reline g h)
  simp only [reline, ClassEntry.reline_reline, List.map_map, he]

theorem Value.reline_reline (v : Value) : (v.reline h).reline g = v.reline (g ∘ h) := by
  cases v with
  | function f => simp only [reline, Function.reline, Closure.reline_reline]
  | cls c => simp only [reline, Class.reline_reline]
  | obj o => simp only [reline, Instance.reline, Class.reline_reline]
  | _ => rfl

theorem Closure.reline_id (c : Closure) : c.reline id = c := by
  simp only [reline, FunDecl.reline_id]

theorem Class.entry_reline_id (e : ClassEntry) : e.reline id = e := by
  have hc : Closure.reline id = id := funext Closure.reline_id
  simp only [ClassEntry.reline, hc, Bindings.mapValues_id]

theorem Class.reline_id (c : Class) : c.reline id = c := by
  have he : ClassEntry.reline id = id := funext entry_reline_id
  simp only [reline, he, List.map_id]
  rfl

theorem Value.reline_id (v : Value) : v.reline id = v := by
  cases v with
  | function f => simp only [reline, Function.reline, Closure.reline_id]
  | cls c => simp only [reline, Class.reline_id]
  | obj o => simp only [reline, Instance.reline, Class.reline_id]
  | _ => rfl

end

/-! ## Frames -/

theorem Frames.map_modify {α β : Type} {f : α → β} {m : α → α} {m' : β → β}
    (h : ∀ a, f (m a) = m' (f a)) (xs : Array α) (i : Nat) :
    (xs.modify i m).map f = (xs.map f).modify i m' := by
  apply Array.ext_getElem?
  intro j
  rw [Array.getElem?_map, Array.getElem?_modify, Array.getElem?_modify, Array.getElem?_map]
  split
  · have hcomm : f ∘ m = m' ∘ f := funext h
    rw [Option.map_map, Option.map_map, hcomm]
  · rfl

/-- The bindings of every frame, or the fields of every object, on other lines. -/
def Frames.reline (g : Nat → Nat) (fs : Frames) : Frames :=
  fs.map (Bindings.mapValues (Value.reline g))

namespace Frames

variable (g h : Nat → Nat) (fs : Frames)

theorem lookup_reline (f : FrameId) (name : Bytes) :
    (fs.reline g).lookup f name = (fs.lookup f name).map (Value.reline g) := by
  unfold lookup reline
  rw [Array.getElem?_map]
  cases fs[f]? with
  | none => rfl
  | some b => exact Bindings.get?_mapValues _ name b

theorem define_reline (f : FrameId) (name : Bytes) (v : Value) :
    (fs.define f name v).reline g = (fs.reline g).define f name (v.reline g) :=
  Frames.map_modify (Bindings.mapValues_insert _ name v) fs f

theorem defineHere_reline (chain : Chain) (name : Bytes) (v : Value) :
    (fs.defineHere chain name v).reline g = (fs.reline g).defineHere chain name (v.reline g) := by
  cases chain with
  | nil => rfl
  | cons f chain => exact define_reline g fs f name v

theorem nearest?_reline (chain : Chain) (name : Bytes) :
    (fs.reline g).nearest? chain name = fs.nearest? chain name := by
  unfold nearest? binds
  simp only [lookup_reline, Option.isSome_map]

theorem get?_reline (chain : Chain) (name : Bytes) :
    (fs.reline g).get? chain name = (fs.get? chain name).map (Value.reline g) := by
  have hlookup : ((fs.reline g).lookup · name) =
      Option.map (Value.reline g) ∘ (fs.lookup · name) :=
    funext fun f => lookup_reline g fs f name
  unfold get?
  rw [List.map_findSome?, hlookup]

theorem getAt_reline (chain : Chain) (hops : Nat) (name : Bytes) :
    (fs.reline g).getAt chain hops name = (fs.getAt chain hops name).reline g := by
  unfold getAt
  cases chain[hops]? with
  | none => rfl
  | some f =>
    rw [Option.bind_some, Option.bind_some, lookup_reline]
    cases fs.lookup f name <;> rfl

theorem assignAt_reline (chain : Chain) (hops : Nat) (name : Bytes) (v : Value) :
    (fs.assignAt chain hops name v).reline g =
      (fs.reline g).assignAt chain hops name (v.reline g) := by
  unfold assignAt
  cases chain[hops]? with
  | none => rfl
  | some f => exact define_reline g fs f name v

theorem push_reline (b : Bindings Value) :
    reline g (fs.push b) = (fs.reline g).push (b.mapValues (Value.reline g)) := Array.map_push

theorem size_reline : (fs.reline g).size = fs.size := Array.size_map

theorem reline_reline : (fs.reline h).reline g = fs.reline (g ∘ h) := by
  have hv : Value.reline g ∘ Value.reline h = Value.reline (g ∘ h) :=
    funext (Value.reline_reline g h)
  have hb : Bindings.mapValues (Value.reline g) ∘ Bindings.mapValues (Value.reline h) =
      Bindings.mapValues (Value.reline (g ∘ h)) :=
    funext fun b => by rw [← hv]; exact Bindings.mapValues_mapValues _ _ b
  rw [reline, reline, Array.map_map, hb]
  rfl

theorem reline_id : fs.reline id = fs := by
  have hv : Value.reline id = id := funext Value.reline_id
  have hb : Bindings.mapValues (id : Value → Value) = id := funext Bindings.mapValues_id
  rw [reline, hv, hb]
  exact Array.map_id fs

end Frames

/-! ## States -/

/-- Other lines, and what was printed and logged before. -/
structure Recast where
  lines : Nat → Nat
  output : Array Bytes
  trace : Array TraceEvent

/-- Other lines and nothing else. -/
def Recast.toLines (g : Nat → Nat) : Recast := ⟨g, #[], #[]⟩

namespace State

def recast (ρ : Recast) (s : State) : State :=
  { s with
    frames := s.frames.reline ρ.lines
    fields := Frames.reline ρ.lines s.fields
    output := ρ.output ++ s.output
    trace := ρ.trace ++ s.trace }

variable (ρ : Recast) (s : State)

theorem log_recast (e : TraceEvent) : (s.recast ρ).log e = (s.log e).recast ρ := by
  unfold log
  cases h : s.tracing with
  | true => simp [recast, h]
  | false => simp [recast, h]

theorem newFrame_recast (outer : Chain) (vars : Bindings Value) :
    (s.recast ρ).newFrame outer (vars.mapValues (Value.reline ρ.lines)) =
      ((s.newFrame outer vars).1, (s.newFrame outer vars).2.recast ρ) := by
  simp only [newFrame, recast, Frames.size_reline, Frames.push_reline]

theorem enter_recast (chain : Chain) : (s.recast ρ).enter chain = (s.enter chain).recast ρ :=
  log_recast ρ { s with env := chain, frameDepth := s.frameDepth + 1 } _

theorem leave_recast (saved : Chain) : (s.recast ρ).leave saved = (s.leave saved).recast ρ := by
  have hlog := log_recast ρ s (.popFrame s.frameDepth)
  unfold leave
  rw [show (s.recast ρ).frameDepth = s.frameDepth from rfl, hlog]
  rfl

theorem field?_recast (o : Instance) (name : Bytes) :
    (s.recast ρ).field? (o.reline ρ.lines) name =
      (s.field? o name).map (Value.reline ρ.lines) :=
  Frames.lookup_reline ρ.lines s.fields o.id name

theorem setField_recast (o : Instance) (name : Bytes) (v : Value) :
    (s.recast ρ).setField (o.reline ρ.lines) name (v.reline ρ.lines) =
      (s.setField o name v).recast ρ := by
  simp only [setField, recast]
  congr
  exact (Frames.define_reline ρ.lines s.fields o.id name v).symm

theorem newObject_recast (c : Class) :
    (s.recast ρ).newObject (c.reline ρ.lines) =
      ((s.newObject c).1.reline ρ.lines, (s.newObject c).2.recast ρ) := by
  simp only [newObject, recast, Frames.size_reline, Frames.push_reline, Instance.reline]
  rfl

theorem bindMethod_recast (c : Closure) (o : Instance) :
    (s.recast ρ).bindMethod (c.reline ρ.lines) (o.reline ρ.lines) =
      ((s.bindMethod c o).1.reline ρ.lines, (s.bindMethod c o).2.recast ρ) := by
  have hframe := newFrame_recast ρ s c.chain [(utf8 "this", .obj o)]
  unfold bindMethod
  rw [show [(utf8 "this", Value.obj (o.reline ρ.lines))] =
    Bindings.mapValues (Value.reline ρ.lines) [(utf8 "this", .obj o)] from rfl]
  rw [show (c.reline ρ.lines).chain = c.chain from rfl, hframe]
  rfl

theorem defineHere_recast (name : Bytes) (v : Value) :
    (s.recast ρ).defineHere name (v.reline ρ.lines) = (s.defineHere name v).recast ρ := by
  simp only [defineHere, recast, Frames.defineHere_reline]

theorem globals_recast :
    (s.recast ρ).globals = s.globals.mapValues (Value.reline ρ.lines) := by
  simp only [globals, recast, Frames.reline, Array.getElem?_map]
  cases s.frames[globalFrame]? <;> rfl

theorem recast_recast (ρ' : Recast) :
    (s.recast ρ').recast ρ =
      s.recast ⟨ρ.lines ∘ ρ'.lines, ρ.output ++ ρ'.output, ρ.trace ++ ρ'.trace⟩ := by
  simp only [recast, Frames.reline_reline, Array.append_assoc]

theorem methodTable_reline (g : Nat → Nat) (chain : Chain) (ms : List FunDecl) :
    methodTable chain (FunDecl.relineAll g ms) =
      (methodTable chain ms).mapValues (Closure.reline g) := by
  have hfold : ∀ table : Bindings Closure,
      (FunDecl.relineAll g ms).foldl (fun table m =>
        table.insert m.name.lexeme ⟨m, chain, m.name.lexeme = utf8 "init"⟩)
        (table.mapValues (Closure.reline g)) =
      (ms.foldl (fun table m =>
        table.insert m.name.lexeme ⟨m, chain, m.name.lexeme = utf8 "init"⟩) table).mapValues
          (Closure.reline g) := by
    induction ms with
    | nil => intro table; rfl
    | cons m ms ih =>
      intro table
      rw [FunDecl.relineAll, List.foldl_cons, List.foldl_cons, ← ih, Bindings.mapValues_insert]
      simp only [FunDecl.name_reline]
      rfl
  exact hfold []

theorem classChain_recast (superclass : Option Class) :
    (s.recast ρ).classChain (superclass.map (Class.reline ρ.lines)) =
      ((s.classChain superclass).1, (s.classChain superclass).2.recast ρ) := by
  cases superclass with
  | none => rfl
  | some c => exact newFrame_recast ρ s s.env [(utf8 "super", .cls c)]

theorem newClass_recast (name : Bytes) (superclass : Option Class) (table : Bindings Closure) :
    (s.recast ρ).newClass name (superclass.map (Class.reline ρ.lines))
        (table.mapValues (Closure.reline ρ.lines)) =
      ((s.newClass name superclass table).1.reline ρ.lines,
        (s.newClass name superclass table).2.recast ρ) := by
  have hlog := log_recast ρ { s with nextId := s.nextId + 1 } (.declareClass name table.length)
  unfold newClass
  rw [Bindings.length_mapValues]
  refine Prod.ext ?_ hlog
  cases superclass <;> rfl

end State

end Lox
