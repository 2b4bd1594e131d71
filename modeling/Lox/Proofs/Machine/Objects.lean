import Lox.Proofs.Machine.Dispatch
/-!
# Objects are made one by one

The number of an object is the place of its fields in the store, and the store only grows. Every
object that a machine can see, in variables, in fields or in its own work, has a place already
(`Machine.Counts`): steps move objects around, and the only new one is the one that a class call
makes. So a new object differs from everything that was there before it.
-/

namespace Lox

/-- An object with a number below `n`, or a value that is no object. -/
def Value.Below (n : Nat) : Value → Prop
  | .obj o => o.id < n
  | _ => True

/-- The store has `n` objects, and all that variables and fields hold is among them. -/
structure State.Counts (s : State) (n : Nat) : Prop where
  size : s.fields.size = n
  frames : ∀ f x v, s.frames.lookup f x = some v → v.Below n
  fields : ∀ (o : Instance) x v, s.field? o x = some v → v.Below n

def Focus.Below (n : Nat) : Focus → Prop
  | .value v | .returned v => v.Below n
  | _ => True

def Task.AllBelow (n : Nat) (tasks : List Task) : Prop :=
  ∀ task ∈ tasks, ∀ v ∈ task.values, v.Below n

/-- The store has `n` objects, and the machine can see no others. -/
structure Machine.Counts (m : Machine) (n : Nat) : Prop where
  state : m.state.Counts n
  focus : m.focus.Below n
  tasks : Task.AllBelow n m.tasks

namespace Value

variable {n : Nat}

theorem Below.succ {v : Value} (h : v.Below n) : v.Below (n + 1) := by
  cases v with
  | obj o => exact Nat.lt_succ_of_lt h
  | _ => trivial

theorem below_ofLiteral (l : Literal) : (ofLiteral l).Below n := by cases l <;> trivial

theorem below_applyUnary {op : UnaryOp} {v r : Value} (h : v.applyUnary op = .ok r) :
    r.Below n := by
  cases op <;> cases v <;> cases h <;> trivial

theorem below_applyBinary {op : BinaryOp} {l v r : Value} (h : l.applyBinary op v = .ok r) :
    r.Below n := by
  cases op <;> cases l <;> cases v <;> cases h <;> trivial

end Value

/-! ## The store -/

namespace State.Counts

variable {n : Nat} {s s' : State}

theorem congr (h : s.Counts n) (hf : s'.frames = s.frames) (hfields : s'.fields = s.fields) :
    s'.Counts n where
  size := hfields ▸ h.size
  frames := fun f x v hv => h.frames f x v (hf ▸ hv)
  fields := fun o x v hv => h.fields o x v (by rwa [State.field?, hfields] at hv)

theorem log (h : s.Counts n) (e : TraceEvent) : (s.log e).Counts n :=
  h.congr (frames_log s e) (fields_log s e)

theorem leave (h : s.Counts n) (saved : Chain) : (s.leave saved).Counts n :=
  h.congr (frames_leave s saved) (fields_leave s saved)

theorem getAt (h : s.Counts n) (chain : Chain) (d : Nat) (x : Bytes) :
    (s.frames.getAt chain d x).Below n := by
  rcases s.frames.getAt_cases chain d x with hnil | ⟨f, hv⟩
  · rw [hnil]
    trivial
  · exact h.frames f x _ hv

theorem read (h : s.Counts n) {ref : Ref} {v : Value} (hv : s.read ref = .ok v) : v.Below n := by
  rcases State.read_cases hv with rfl | ⟨f, hf⟩
  · trivial
  · exact h.frames f _ v hf

theorem define (h : s.Counts n) (f : FrameId) (x : Bytes) {v : Value} (hv : v.Below n) :
    State.Counts { s with frames := s.frames.define f x v } n := by
  refine ⟨h.size, fun g y u hu => ?_, h.fields⟩
  rcases Frames.lookup_define_cases hu with ⟨-, -, rfl⟩ | hu
  · exact hv
  · exact h.frames g y u hu

theorem defineHere (h : s.Counts n) (x : Bytes) {v : Value} (hv : v.Below n) :
    (s.defineHere x v).Counts n := by
  cases henv : s.env with
  | nil => exact h.congr (by simp only [State.defineHere, henv, Frames.defineHere]) rfl
  | cons f outer =>
    exact (h.define f x hv).congr (by simp only [State.defineHere, henv, Frames.defineHere]) rfl

theorem newFrame (h : s.Counts n) (outer : Chain) {vars : Bindings Value}
    (hvars : ∀ x v, vars.get? x = some v → v.Below n) : (s.newFrame outer vars).2.Counts n := by
  refine ⟨h.size, fun f x v hv => ?_, h.fields⟩
  rcases Frames.lookup_push_cases hv with ⟨-, hv⟩ | hv
  · exact hvars x v hv
  · exact h.frames f x v hv

theorem bindMethod (h : s.Counts n) (m : Closure) {o : Instance} (ho : (Value.obj o).Below n) :
    (s.bindMethod m o).2.Counts n := by
  refine h.newFrame m.chain fun x v hx => ?_
  obtain ⟨-, rfl⟩ := Bindings.get?_singleton hx
  exact ho

theorem setField (h : s.Counts n) (o : Instance) (x : Bytes) {v : Value} (hv : v.Below n) :
    (s.setField o x v).Counts n := by
  refine ⟨(Array.size_modify ..).trans h.size, h.frames, fun p y u hu => ?_⟩
  rcases State.field?_setField_cases hu with rfl | hu
  · exact hv
  · exact h.fields p y u hu

/-- A new object gets the next number. -/
theorem newObject (h : s.Counts n) (c : Class) :
    (s.newObject c).2.Counts (n + 1) ∧ (Value.obj (s.newObject c).1).Below (n + 1) := by
  refine ⟨⟨?_, fun f x v hv => (h.frames f x v hv).succ, fun o x v hv => ?_⟩, ?_⟩
  · exact (Array.size_push _).trans (congrArg (· + 1) h.size)
  · exact (h.fields o x v (State.field?_of_newObject hv)).succ
  · exact Nat.lt_succ_of_le (Nat.le_of_eq h.size)

end State.Counts

/-! ## Steps -/

namespace Machine

variable {n : Nat} {s : State} {tasks : List Task}

theorem allBelow_cons {task : Task} (h : ∀ v ∈ task.values, v.Below n)
    (ht : Task.AllBelow n tasks) : Task.AllBelow n (task :: tasks) := by
  intro t hmem v hv
  rcases List.mem_cons.1 hmem with rfl | hmem
  · exact h v hv
  · exact ht t hmem v hv

theorem allBelow_inv {task : Task} (h : Task.AllBelow n (task :: tasks)) :
    (∀ v ∈ task.values, v.Below n) ∧ Task.AllBelow n tasks :=
  ⟨h task List.mem_cons_self, fun t hmem => h t (List.mem_cons_of_mem _ hmem)⟩

/-- A task without an object of its own in front of the others. -/
theorem allBelow_plain {task : Task} (h : task.values = []) (ht : Task.AllBelow n tasks) :
    Task.AllBelow n (task :: tasks) :=
  allBelow_cons (fun v hv => by rw [h] at hv; cases hv) ht

section
variable (hs : s.Counts n) (ht : Task.AllBelow n tasks)
include hs ht

theorem counts_bound {m : Closure} {o : Instance} (ho : (Value.obj o).Below n) :
    (bound m o tasks s).Counts n :=
  ⟨(hs.bindMethod m ho).congr rfl rfl, trivial, ht⟩

theorem counts_assignNearest {chain : Chain} {name : Token} {v : Value} {result : Focus}
    (hv : v.Below n) (hr : result.Below n) :
    (assignNearest chain name v result tasks s).Counts n := by
  unfold assignNearest
  split
  · exact ⟨hs.define _ _ hv, hr, ht⟩
  · exact ⟨hs, trivial, ht⟩

theorem counts_assign {ref : Ref} {v : Value} (hv : v.Below n) :
    (assign ref v tasks s).Counts n := by
  unfold assign
  split
  · rename_i d _
    refine ⟨?_, hv, ht⟩
    unfold Frames.assignAt
    cases s.env[d]? with
    | none => exact hs.congr rfl rfl
    | some f => exact hs.define f _ hv
  · exact counts_assignNearest hs ht hv hv

theorem counts_declareClass {name : Token} {superclass : Option Class} {ms : List FunDecl} :
    (declareClass name superclass ms tasks s).Counts n := by
  have hchain : (s.classChain superclass).2.Counts n := by
    cases superclass with
    | none => exact hs
    | some c =>
      refine hs.newFrame s.env fun x v hx => ?_
      obtain ⟨-, rfl⟩ := Bindings.get?_singleton hx
      trivial
  have hclass : ∀ table, ((s.classChain superclass).2.newClass name.lexeme superclass
      table).2.Counts n := fun table => hchain.congr (State.frames_log _ _) (State.fields_log _ _)
  exact counts_assignNearest (v := (State.newClass _ _ _ _).1) (hclass _) ht trivial trivial

theorem counts_enterBody {body : List Stmt} {chain : Chain} :
    (enterBody body chain tasks s).Counts n := by
  refine ⟨hs.congr (State.frames_enter _ _) (State.fields_enter _ _), trivial, ?_⟩
  exact allBelow_plain rfl (allBelow_plain rfl ht)

theorem counts_enterFunction {c : Closure} {args : List Value} {exit : CallExit}
    (hargs : ∀ v ∈ args, v.Below n) (hexit : ∀ v ∈ (Task.endCall exit).values, v.Below n) :
    (enterFunction c args exit tasks s).Counts n := by
  refine counts_enterBody (hs.newFrame c.chain fun x v hv => ?_) (allBelow_cons hexit ht)
  exact hargs v ((World.get?_arguments [] hv).resolve_right (by simp [Bindings.get?])).1

theorem counts_eval {e : Expr} : (eval e tasks s).Counts n := by
  cases e with
  | literal token value => exact ⟨hs, Value.below_ofLiteral value, ht⟩
  | grouping _ _ => exact ⟨hs, trivial, ht⟩
  | var ref =>
    simp only [eval]
    split
    · rename_i hv; exact ⟨hs, hs.read hv, ht⟩
    · exact ⟨hs, trivial, ht⟩
  | this ref =>
    simp only [eval]
    split
    · rename_i hv; exact ⟨hs, hs.read hv, ht⟩
    · exact ⟨hs, trivial, ht⟩
  | super ref method =>
    simp only [eval]
    split
    · rename_i m o hm
      refine counts_bound hs ht ?_
      simp only [State.superMethod] at hm
      split at hm
      · split at hm
        · rename_i o' hthis
          split at hm
          · cases hm
            exact hthis ▸ hs.getAt _ _ _
          · cases hm
        · cases hm
      · cases hm
    · exact ⟨hs, trivial, ht⟩
  | _ => exact ⟨hs, trivial, allBelow_plain rfl ht⟩

theorem counts_exec {stmt : Stmt} : (exec stmt tasks s).Counts n := by
  cases stmt with
  | varDecl _ name init =>
    cases init with
    | none => exact ⟨hs.defineHere _ (v := .nil) trivial, trivial, ht⟩
    | some e => exact ⟨hs, trivial, allBelow_plain rfl ht⟩
  | block _ body =>
    have hframe : (s.newFrame s.env []).2.Counts n := hs.newFrame s.env fun x v hv => by cases hv
    exact counts_enterBody hframe ht
  | funDecl decl =>
    have hmade : (s.newFunction ⟨decl, s.env, false⟩).2.Counts n := hs.congr rfl rfl
    exact ⟨hmade.defineHere decl.name.lexeme (v := .function _) trivial, trivial, ht⟩
  | ret _ value =>
    cases value with
    | none => exact ⟨hs, trivial, ht⟩
    | some e => exact ⟨hs, trivial, allBelow_plain rfl ht⟩
  | classDecl _ name superclass ms =>
    have hnamed : (s.defineHere name.lexeme .nil).Counts n := hs.defineHere name.lexeme trivial
    cases superclass with
    | none =>
      simp only [exec]
      exact counts_declareClass hnamed ht
    | some ref => exact ⟨hnamed, trivial, allBelow_plain rfl ht⟩
  | _ => exact ⟨hs, trivial, allBelow_plain rfl ht⟩

/-- A call makes one object, or none. -/
theorem counts_call {paren : Token} {callee : Value} {args : List Value}
    (hargs : ∀ v ∈ args, v.Below n) : ∃ n', (call paren callee args tasks s).Counts n' := by
  unfold call
  split
  · exact ⟨n, hs, trivial, ht⟩
  · split
    · exact ⟨n, hs, trivial, ht⟩
    · split
      · exact ⟨n, hs, trivial, ht⟩
      · have hs := hs.log (.call callee.inspect args.length)
        generalize s.log (.call callee.inspect args.length) = s at hs
        cases callee with
        | function f =>
          have hcalled : State.Counts { s with callDepth := s.callDepth + 1 } n :=
            hs.congr rfl rfl
          refine ⟨n, counts_enterFunction hcalled ht hargs ?_⟩
          cases f.closure.isInit <;> simp [Task.values]
        | cls c =>
          obtain ⟨hs, ho⟩ := hs.newObject c
          have ht : Task.AllBelow (n + 1) tasks := fun t hmem v hv => (ht t hmem v hv).succ
          refine ⟨n + 1, ?_⟩
          simp only [invoke]
          split
          · rename_i init _
            have hbound := hs.bindMethod init ho
            generalize (s.newObject c).2.bindMethod init (s.newObject c).1 = made at hbound ⊢
            have hcalled : State.Counts { made.2 with callDepth := made.2.callDepth + 1 }
              (n + 1) := hbound.congr rfl rfl
            refine counts_enterFunction hcalled ht (fun v hv => (hargs v hv).succ) fun v hv => ?_
            rw [List.mem_singleton.1 hv]
            exact ho
          · exact ⟨hs, ho, ht⟩
        | builtin b => cases b; exact ⟨n, hs.congr rfl rfl, trivial, ht⟩
        | _ => exact ⟨n, hs, trivial, ht⟩

theorem counts_resume {v : Value} {task : Task} (hv : v.Below n)
    (htask : ∀ u ∈ task.values, u.Below n) : ∃ n', (resume v task tasks s).Counts n' := by
  cases task with
  | callee paren args =>
    cases args with
    | nil => exact counts_call hs ht (by simp)
    | cons arg rest =>
      exact ⟨n, hs, trivial, allBelow_cons (by simpa [Task.values] using hv) ht⟩
  | argument paren callee done rest =>
    have hdone : ∀ u ∈ v :: done, u.Below n := by
      intro u hu
      rcases List.mem_cons.1 hu with rfl | hu
      · exact hv
      · exact htask u (List.mem_cons_of_mem _ hu)
    cases rest with
    | nil => exact counts_call hs ht fun u hu => hdone u (List.mem_reverse.1 hu)
    | cons arg rest =>
      refine ⟨n, hs, trivial, allBelow_cons (fun u hu => ?_) ht⟩
      rcases List.mem_cons.1 hu with rfl | hu
      · exact htask u List.mem_cons_self
      · exact hdone u hu
  | unary op token =>
    refine ⟨n, ?_⟩
    simp only [resume]
    split
    · rename_i r hr; exact ⟨hs, Value.below_applyUnary hr, ht⟩
    · exact ⟨hs, trivial, ht⟩
  | binaryRight op token right =>
    exact ⟨n, hs, trivial, allBelow_cons (by simpa [Task.values] using hv) ht⟩
  | binary op token left =>
    refine ⟨n, ?_⟩
    simp only [resume]
    split
    · rename_i r hr; exact ⟨hs, Value.below_applyBinary hr, ht⟩
    · exact ⟨hs, trivial, ht⟩
  | logical op right =>
    refine ⟨n, ?_⟩
    simp only [resume]
    split
    · exact ⟨hs, hv, ht⟩
    · exact ⟨hs, trivial, ht⟩
  | assign ref => exact ⟨n, counts_assign hs ht hv⟩
  | get name =>
    refine ⟨n, ?_⟩
    cases v with
    | obj o =>
      simp only [resume, State.property?]
      cases hfield : s.field? o name.lexeme with
      | some u => exact ⟨hs, hs.fields o _ u hfield, ht⟩
      | none =>
        cases o.cls.findMethod name.lexeme with
        | some m => exact counts_bound hs ht hv
        | none => exact ⟨hs, trivial, ht⟩
    | _ => exact ⟨hs, trivial, ht⟩
  | setObject name value =>
    refine ⟨n, ?_⟩
    cases v with
    | obj o => exact ⟨hs, trivial, allBelow_cons (by simpa [Task.values] using hv) ht⟩
    | _ => exact ⟨hs, trivial, ht⟩
  | setField o name => exact ⟨n, hs.setField o name.lexeme hv, hv, ht⟩
  | discard => exact ⟨n, hs, trivial, ht⟩
  | print => exact ⟨n, hs.congr rfl rfl, trivial, ht⟩
  | define name => exact ⟨n, hs.defineHere name.lexeme hv, trivial, ht⟩
  | choose yes no =>
    refine ⟨n, ?_⟩
    simp only [resume]
    split
    · exact ⟨hs, trivial, ht⟩
    · cases no <;> exact ⟨hs, trivial, ht⟩
  | loopTest cond body =>
    refine ⟨n, ?_⟩
    simp only [resume]
    split
    · exact ⟨hs, trivial, allBelow_plain rfl ht⟩
    · exact ⟨hs, trivial, ht⟩
  | superclass name ref ms =>
    refine ⟨n, ?_⟩
    cases v with
    | cls c =>
      simp only [resume]
      exact counts_declareClass hs ht
    | _ => exact ⟨hs, trivial, ht⟩
  | _ => exact ⟨n, hs, hv, ht⟩

omit ht in
theorem counts_exitValue {v : Value} {exit : CallExit} (hv : v.Below n)
    (hexit : ∀ u ∈ (Task.endCall exit).values, u.Below n) : (exitValue s v exit).Below n := by
  cases exit with
  | returned => exact hv
  | receiver chain => exact hs.getAt chain 0 _
  | object o => exact hexit _ List.mem_cons_self

theorem counts_proceed {task : Task} (htask : ∀ u ∈ task.values, u.Below n) :
    (proceed task tasks s).Counts n := by
  cases task with
  | sequence rest =>
    cases rest with
    | nil => exact ⟨hs, trivial, ht⟩
    | cons stmt rest => exact ⟨hs, trivial, allBelow_plain rfl ht⟩
  | program rest =>
    cases rest with
    | nil => exact ⟨hs, trivial, ht⟩
    | cons stmt rest => exact ⟨hs, trivial, allBelow_plain rfl ht⟩
  | loopBody cond body => exact ⟨hs, trivial, allBelow_plain rfl ht⟩
  | leave saved => exact ⟨hs.leave saved, trivial, ht⟩
  | endCall exit => exact ⟨hs.congr rfl rfl, counts_exitValue hs (v := .nil) trivial htask, ht⟩
  | _ => exact ⟨hs, trivial, ht⟩

theorem counts_unwindReturn {v : Value} {task : Task} (hv : v.Below n)
    (htask : ∀ u ∈ task.values, u.Below n) : (unwindReturn v task tasks s).Counts n := by
  cases task with
  | leave saved => exact ⟨hs.leave saved, hv, ht⟩
  | endCall exit => exact ⟨hs.congr rfl rfl, counts_exitValue hs hv htask, ht⟩
  | program rest => exact ⟨hs, trivial, allBelow_plain rfl ht⟩
  | _ => exact ⟨hs, hv, ht⟩

theorem counts_unwindError {e : RuntimeError} {task : Task} :
    (unwindError e task tasks s).Counts n := by
  cases task with
  | leave saved => exact ⟨hs.leave saved, trivial, ht⟩
  | endCall exit => exact ⟨hs.congr rfl rfl, trivial, ht⟩
  | _ => exact ⟨hs, trivial, ht⟩

end

namespace Counts

variable {m : Machine}

/-- A step leaves every object with its place in the store, a new one included. -/
theorem step (h : m.Counts n) : ∃ n', m.step.Counts n' := by
  obtain ⟨focus, tasks, s⟩ := m
  obtain ⟨hs, hf, ht⟩ := h
  cases focus with
  | eval e => exact ⟨n, counts_eval hs ht⟩
  | exec stmt => exact ⟨n, counts_exec hs ht⟩
  | value v =>
    cases tasks with
    | nil => exact ⟨n, hs, hf, ht⟩
    | cons task tasks =>
      obtain ⟨htask, ht⟩ := allBelow_inv ht
      exact counts_resume hs ht hf htask
  | done =>
    cases tasks with
    | nil => exact ⟨n, hs, hf, ht⟩
    | cons task tasks =>
      obtain ⟨htask, ht⟩ := allBelow_inv ht
      exact ⟨n, counts_proceed hs ht htask⟩
  | returned v =>
    cases tasks with
    | nil => exact ⟨n, hs, hf, ht⟩
    | cons task tasks =>
      obtain ⟨htask, ht⟩ := allBelow_inv ht
      exact ⟨n, counts_unwindReturn hs ht hf htask⟩
  | raised e =>
    cases tasks with
    | nil => exact ⟨n, hs, hf, ht⟩
    | cons task tasks => exact ⟨n, counts_unwindError hs (allBelow_inv ht).2⟩

theorem run (k : Nat) (h : m.Counts n) : ∃ n', (m.run k).Counts n' := by
  induction k generalizing m n with
  | zero => exact ⟨n, h⟩
  | succ k ih =>
    simp only [Machine.run]
    split
    · exact ⟨n, h⟩
    · obtain ⟨n', h'⟩ := h.step
      exact ih h'

theorem holds (h : m.Counts n) {v : Value} (hv : m.Holds v) : v.Below n := by
  cases hv with
  | frame hv => exact h.state.frames _ _ _ hv
  | field hv => exact h.state.fields _ _ _ hv
  | result hv => exact (hv ▸ h.focus : (Focus.value v).Below n)
  | returned hv => exact (hv ▸ h.focus : (Focus.returned v).Below n)
  | waiting ht hv => exact h.tasks _ ht _ hv

/-- The next object is not equal to anything that the machine can see. -/
theorem fresh (h : m.Counts n) {c : Class} {v : Value} (hv : m.Holds v) :
    v.isEqual (.obj ⟨m.state.fields.size, c⟩) = false := by
  have hbelow := h.holds hv
  cases v with
  | obj o =>
    have hlt : o.id < n := hbelow
    rw [← h.state.size] at hlt
    exact beq_false_of_ne (Nat.ne_of_lt hlt)
  | _ => rfl

end Counts

end Machine

/-! ## Sessions -/

namespace Session

variable {sources : List Bytes} {log : List Declaration} {session : Session}

theorem counts_machine {n : Nat} (h : session.state.Counts n) (program : List Stmt) :
    (session.machine program).Counts n :=
  ⟨h.congr rfl rfl, trivial, Machine.allBelow_plain rfl (by simp [Task.AllBelow])⟩

theorem Reached.counts (h : Reached sources log session) : ∃ n, session.state.Counts n := by
  induction h with
  | new tracing =>
    refine ⟨0, rfl, fun f x v hv => ?_, fun o x v hv => ?_⟩
    · rw [State.lookup_initial hv]
      trivial
    · simp [State.field?, State.initial] at hv
  | @run sources log session fuel source _ ho ih =>
    obtain ⟨n, hn⟩ := ih
    cases ha : analyse source with
    | error problems =>
      simp only [Session.run, ha]
      exact ⟨n, hn⟩
    | ok program =>
      obtain ⟨n', h'⟩ := (counts_machine hn program).run fuel
      exact ⟨n', (run_halted ha ho).2 ▸ h'.state⟩
  | reset _ ih => exact ih
  | wait now _ ih =>
    obtain ⟨n, hn⟩ := ih
    exact ⟨n, hn.congr rfl rfl⟩

end Session

end Lox
