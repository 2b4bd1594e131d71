import Lox.Proofs.Machine.Stack
import Lox.Proofs.Scope.Returns
/-!
# Calls and the code that they own

A run makes calls, and a call is active while its end waits on the stack of tasks (`Call.Active`).
Every piece of code that runs or waits stands in the body of the innermost call whose end is below
it, or at the top level of the program; `Call.Owns` says so for a whole stack, and every step keeps
it (`Call.Owned.step`).
-/

namespace Lox

/-! ## Calls in a run -/

/-- The function whose body runs when a value is called: of a class, its initializer. -/
def Value.code? : Value → Option Closure
  | .function f => some f.closure
  | .cls c => c.initializer?
  | _ => none

/-- The value that the machine is about to call, and the tasks that wait for the call. -/
def Machine.calling? (m : Machine) : Option (Value × List Task) :=
  match m.focus, m.tasks with
  | .value v, .callee _ [] :: below => some (v, below)
  | .value _, .argument _ callee _ [] :: below => some (callee, below)
  | _, _ => none

/-- A call of a function in a run. -/
structure Call where
  /-- When it is made. -/
  moment : Nat
  /-- The function whose body runs. -/
  code : Closure
  exit : CallExit
  /-- The tasks that wait for the value of the call. -/
  below : List Task

namespace Call

variable {run : Nat → Machine} {k : Nat} {call : Call}

/-- The end of the call on the stack of tasks. -/
def ending (call : Call) : List Task := .endCall call.exit :: call.below

/-- The run makes the call: a value is called and the body of its function is entered. -/
structure Made (run : Nat → Machine) (call : Call) : Prop where
  calling : ∃ callee, (run call.moment).calling? = some (callee, call.below) ∧
    callee.code? = some call.code
  entered : ∃ env, (run (call.moment + 1)).tasks =
    .sequence call.code.decl.body :: .leave env :: call.ending

/-- The call has been made before moment `k`, and its end has been waiting since. -/
structure Active (run : Nat → Machine) (k : Nat) (call : Call) : Prop where
  made : call.Made run
  since : call.moment < k
  waiting : ∀ i, call.moment < i → i ≤ k → call.ending <:+ (run i).tasks

/-- The last of the active calls. -/
structure Innermost (run : Nat → Machine) (k : Nat) (call : Call) : Prop where
  active : call.Active run k
  latest : ∀ other : Call, other.Active run k → other.moment ≤ call.moment

theorem Active.succ (h : call.Active run k) (hw : call.ending <:+ (run (k + 1)).tasks) :
    call.Active run (k + 1) := by
  refine ⟨h.made, Nat.lt_succ_of_lt h.since, fun i hi hik => ?_⟩
  rcases Nat.lt_or_eq_of_le hik with hlt | rfl
  · exact h.waiting i hi (Nat.le_of_lt_succ hlt)
  · exact hw

end Call

/-- Whether a task ends a call. -/
def Task.endsCall : Task → Bool
  | .endCall _ => true
  | _ => false

/-- A call is made once the last of its parts has a value: the callee, or an argument. -/
theorem Machine.calling_cases {m : Machine} {callee : Value} {below : List Task}
    (h : m.calling? = some (callee, below)) :
    (∃ paren, m = ⟨.value callee, .callee paren [] :: below, m.state⟩) ∨
      ∃ v paren done, m = ⟨.value v, .argument paren callee done [] :: below, m.state⟩ := by
  obtain ⟨focus, tasks, s⟩ := m
  unfold Machine.calling? at h
  split at h
  · rename_i hfocus htasks
    obtain ⟨rfl, rfl⟩ : _ ∧ _ := by simpa using h
    subst hfocus htasks
    exact .inl ⟨_, rfl⟩
  · rename_i hfocus htasks
    obtain ⟨rfl, rfl⟩ : _ ∧ _ := by simpa using h
    subst hfocus htasks
    exact .inr ⟨_, _, _, rfl⟩
  · cases h

theorem Machine.tasks_of_calling {m : Machine} {callee : Value} {below : List Task}
    (h : m.calling? = some (callee, below)) :
    ∃ task, m.tasks = task :: below ∧ task.endsCall = false := by
  rcases calling_cases h with ⟨paren, hm⟩ | ⟨v, paren, done, hm⟩
  · exact ⟨_, congrArg Machine.tasks hm, rfl⟩
  · exact ⟨_, congrArg Machine.tasks hm, rfl⟩

/-- No end of a call stands above the first one. -/
theorem suffix_above {above below below' : List Task} {t t' : Task}
    (h : t' :: below' <:+ above ++ t :: below) (hlen : below.length ≤ below'.length)
    (ht : t'.endsCall = true) (habove : ∀ u ∈ above, u.endsCall = false) : below' = below := by
  induction above with
  | nil =>
    have heq := List.IsSuffix.eq_of_length_le h (by simpa using hlen)
    exact (List.cons.inj heq).2
  | cons u above ih =>
    rcases List.suffix_cons_iff.1 h with heq | h
    · obtain ⟨rfl, -⟩ := List.cons.inj heq
      rw [habove t' List.mem_cons_self] at ht
      cases ht
    · exact ih h fun v hv => habove v (List.mem_cons_of_mem u hv)

/-- A call whose end comes first on the stack is the last of the active ones. -/
theorem Call.innermost_of_top {run : Nat → Machine} {k : Nat} {call : Call}
    (h : call.Active run k) {above : List Task} (ht : (run k).tasks = above ++ call.ending)
    (habove : ∀ t ∈ above, t.endsCall = false) : call.Innermost run k := by
  refine ⟨h, fun other ho => Nat.not_lt.1 fun hlt => ?_⟩
  obtain ⟨env, hentered⟩ := ho.made.entered
  obtain ⟨callee, hcalling, -⟩ := ho.made.calling
  -- the end of a later call stands above that of `call`
  have hover : call.ending <:+ other.ending := by
    have hw := h.waiting (other.moment + 1) (by omega) ho.since
    rw [hentered] at hw
    rcases List.suffix_cons_iff.1 hw with heq | hw
    · cases heq
    · rcases List.suffix_cons_iff.1 hw with heq | hw
      · cases heq
      · exact hw
  have hlen : call.below.length ≤ other.below.length := by
    simpa [Call.ending] using hover.length_le
  have hwait := ho.waiting k ho.since (Nat.le_refl k)
  rw [ht] at hwait
  have hbelow : other.below = call.below := suffix_above hwait hlen rfl habove
  -- but then it has been made by what should have been the end of `call`
  obtain ⟨task, htasks, hends⟩ := Machine.tasks_of_calling hcalling
  have hw := h.waiting other.moment hlt (Nat.le_of_lt ho.since)
  rw [htasks, hbelow] at hw
  have heq := List.IsSuffix.eq_of_length_le hw (by simp [Call.ending])
  obtain ⟨rfl, -⟩ := List.cons.inj heq
  cases hends

/-! ## Code on the stack -/

/-- A task that goes on with the code of a body. -/
def Task.Of (body : List Stmt) : Task → Prop
  | .sequence rest => ∀ s ∈ rest, s.Within body
  | .choose yes no => yes.Within body ∧ ∀ s, no = some s → s.Within body
  | .loopTest _ s | .loopBody _ s => s.Within body
  | .ret => ∃ keyword e, Stmt.Within body (.ret keyword (some e))
  | .endCall _ | .program _ => False
  | _ => True

/-- What is run or returned comes from a body. -/
def Focus.Of (body : List Stmt) : Focus → Prop
  | .exec s => s.Within body
  | .returned v => ∃ keyword value, Stmt.Within body (.ret keyword value) ∧
      (value = none → v = .nil)
  | _ => True

namespace Machine

/-- The machine has gone on with the code of a body, above the tasks `ts`. -/
structure Stays (body : List Stmt) (ts : List Task) (m : Machine) : Prop where
  focus : m.focus.Of body
  tasks : ∃ pushed, m.tasks = pushed ++ ts ∧ ∀ t ∈ pushed, t.Of body

variable {body : List Stmt} {ts : List Task} {s : State} {f : Focus}

theorem stays_here (hf : f.Of body) : Stays body ts ⟨f, ts, s⟩ := ⟨hf, [], rfl, by simp⟩

theorem stays_push {t : Task} (hf : f.Of body) (ht : t.Of body) : Stays body ts ⟨f, t :: ts, s⟩ :=
  ⟨hf, [t], rfl, by simpa using ht⟩

theorem stays_assignNearest {chain : Chain} {name : Token} {v : Value} (hf : f.Of body) :
    Stays body ts (assignNearest chain name v f ts s) := by
  unfold assignNearest
  split
  · exact stays_here hf
  · exact stays_here trivial

theorem stays_eval {e : Expr} : Stays body ts (eval e ts s) := by
  cases e with
  | var ref => simp only [eval]; split <;> exact stays_here trivial
  | this ref => simp only [eval]; split <;> exact stays_here trivial
  | super ref method => simp only [eval]; split <;> exact stays_here trivial
  | literal _ _ => exact stays_here trivial
  | grouping _ _ => exact stays_here trivial
  | _ => exact stays_push trivial trivial

/-- The tasks of a block or body that has been entered. -/
theorem entered_of {inner : List Stmt} {env : Chain} (h : ∀ u ∈ inner, u.Within body) :
    ∀ t ∈ [Task.sequence inner, .leave env], t.Of body := by
  intro t ht
  rcases List.mem_cons.1 ht with rfl | ht
  · exact h
  · rw [List.mem_singleton.1 ht]
    trivial

theorem stays_exec {stmt : Stmt} (h : stmt.Within body) : Stays body ts (exec stmt ts s) := by
  cases stmt with
  | varDecl _ name init =>
    cases init with
    | none => exact stays_here trivial
    | some e => exact stays_push trivial trivial
  | block ending inner =>
    exact ⟨trivial, [.sequence inner, .leave s.env], rfl, entered_of fun u hu => h.block hu⟩
  | ifElse keyword cond yes no =>
    refine stays_push trivial ⟨h.yes, fun u hu => ?_⟩
    subst hu
    exact h.no
  | loop keyword cond u => exact stays_push trivial h.loop
  | funDecl decl => exact stays_here trivial
  | ret keyword value =>
    cases value with
    | none => exact stays_here ⟨keyword, none, h, fun _ => rfl⟩
    | some e => exact stays_push trivial ⟨keyword, e, h⟩
  | classDecl _ name superclass ms =>
    cases superclass with
    | none => exact stays_assignNearest trivial
    | some ref => exact stays_push trivial trivial
  | _ => exact stays_push trivial trivial

/-- A value is given to a task of the body, which goes on or makes a call. -/
theorem stays_resume {v : Value} {task : Task} (h : task.Of body) :
    Stays body ts (resume v task ts s) ∨ ∃ paren callee args,
      calling? ⟨.value v, task :: ts, s⟩ = some (callee, ts) ∧
      resume v task ts s = call paren callee args ts s := by
  cases task with
  | callee paren args =>
    cases args with
    | nil => exact .inr ⟨paren, v, [], rfl, rfl⟩
    | cons arg rest => exact .inl (stays_push trivial trivial)
  | argument paren callee done rest =>
    cases rest with
    | nil => exact .inr ⟨paren, callee, (v :: done).reverse, rfl, rfl⟩
    | cons arg rest => exact .inl (stays_push trivial trivial)
  | unary op token => left; simp only [resume]; split <;> exact stays_here trivial
  | binaryRight op token right => exact .inl (stays_push trivial trivial)
  | binary op token operand => left; simp only [resume]; split <;> exact stays_here trivial
  | logical op right => left; simp only [resume]; split <;> exact stays_here trivial
  | assign ref =>
    left
    simp only [resume, Machine.assign]
    split
    · exact stays_here trivial
    · exact stays_assignNearest trivial
  | get name =>
    left
    cases v with
    | obj o => simp only [resume]; split <;> exact stays_here trivial
    | _ => exact stays_here trivial
  | setObject name value =>
    left
    cases v with
    | obj o => exact stays_push trivial trivial
    | _ => exact stays_here trivial
  | choose yes no =>
    left
    simp only [resume]
    split
    · exact stays_here h.1
    · split
      · exact stays_here (h.2 _ rfl)
      · exact stays_here trivial
  | loopTest cond stmt =>
    left
    simp only [resume]
    split
    · exact stays_push h h
    · exact stays_here trivial
  | ret =>
    obtain ⟨keyword, e, hret⟩ := h
    exact .inl (stays_here ⟨keyword, some e, hret, fun h => by cases h⟩)
  | superclass name ref ms =>
    left
    cases v with
    | cls c => exact stays_assignNearest trivial
    | _ => exact stays_here trivial
  | _ => exact .inl (stays_here trivial)

theorem stays_proceed {task : Task} (h : task.Of body) : Stays body ts (proceed task ts s) := by
  cases task with
  | sequence rest =>
    cases rest with
    | nil => exact stays_here trivial
    | cons stmt rest =>
      exact stays_push (h stmt List.mem_cons_self) fun u hu => h u (List.mem_cons_of_mem _ hu)
  | loopBody cond stmt => exact stays_push trivial h
  | endCall _ => exact h.elim
  | program _ => exact h.elim
  | _ => exact stays_here trivial

theorem stays_unwindReturn {v : Value} {task : Task} (h : task.Of body)
    (hv : (Focus.returned v).Of body) : Stays body ts (unwindReturn v task ts s) := by
  cases task with
  | endCall _ => exact h.elim
  | program _ => exact h.elim
  | _ => exact stays_here hv

theorem stays_unwindError {e : RuntimeError} {task : Task} :
    Stays body ts (unwindError e task ts s) := by
  cases task <;> exact stays_here trivial

/-- A call gives a result at once, or the body of a function is entered. -/
theorem call_cases (body : List Stmt) (paren : Token) (callee : Value) (args : List Value)
    (ts : List Task) (s : State) : Stays body ts (call paren callee args ts s) ∨
      ∃ code exit env, callee.code? = some code ∧
        (call paren callee args ts s).focus = .done ∧
        (call paren callee args ts s).tasks =
          .sequence code.decl.body :: .leave env :: .endCall exit :: ts ∧
        (exit = .returned ∨ code.isInit = true ∨ ∃ c, callee = .cls c) := by
  unfold call
  split
  · exact .inl (stays_here trivial)
  · split
    · exact .inl (stays_here trivial)
    · split
      · exact .inl (stays_here trivial)
      · cases callee with
        | function g =>
          refine .inr ⟨g.closure, _, _, rfl, rfl, rfl, ?_⟩
          cases g.closure.isInit with
          | true => exact .inr (.inl rfl)
          | false => exact .inl rfl
        | cls c =>
          simp only [invoke]
          split
          · rename_i init hinit
            exact .inr ⟨init, _, _, hinit, rfl, rfl, .inr (.inr ⟨c, rfl⟩)⟩
          · exact .inl (stays_here trivial)
        | builtin b => cases b; exact .inl (stays_here trivial)
        | _ => exact .inl (stays_here trivial)

end Machine

/-! ## Owners -/

/-- What the resolver's checks come to for the function that is called. -/
structure Call.Lawful (call : Call) : Prop where
  plain : call.code.isInit = false → call.exit = .returned
  initializer : call.code.isInit = true → ∀ keyword value,
    Stmt.Within call.code.decl.body (.ret keyword value) → value = none

/-- The code that an owner runs: the body of a call, or the program. -/
def Call.bodyOf (program : List Stmt) : Option Call → List Stmt
  | none => program
  | some call => call.code.decl.body

/-- The tasks on a stack go on with the code of the calls that are active, and below them all
with the program. The owner is the call whose code comes first. -/
inductive Call.Owns (run : Nat → Machine) (program : List Stmt) (k : Nat) :
    Option Call → List Task → Prop
  | halt : Owns run program k none []
  | program {rest : List Stmt} : (∀ s ∈ rest, s.Within program) →
    Owns run program k none [.program rest]
  | task {owner : Option Call} {t : Task} {ts : List Task} : t.Of (Call.bodyOf program owner) →
    Owns run program k owner ts → Owns run program k owner (t :: ts)
  | call {call : Call} {owner : Option Call} : call.Active run k → call.Lawful →
    Owns run program k owner call.below → Owns run program k (some call) call.ending

namespace Call

variable {run : Nat → Machine} {program : List Stmt} {k : Nat} {owner : Option Call}
  {ts : List Task}

/-- Tasks that are still waiting a step later keep their owners. -/
theorem Owns.succ (h : Owns run program k owner ts) (hw : ts <:+ (run (k + 1)).tasks) :
    Owns run program (k + 1) owner ts := by
  induction h with
  | halt => exact .halt
  | program hrest => exact .program hrest
  | task ht _ ih => exact .task ht (ih ((List.suffix_cons _ _).trans hw))
  | call ha hl _ ih => exact .call (ha.succ hw) hl (ih ((List.suffix_cons _ _).trans hw))

theorem Owns.append {pushed : List Task} (h : Owns run program k owner ts)
    (hp : ∀ t ∈ pushed, t.Of (bodyOf program owner)) : Owns run program k owner (pushed ++ ts) := by
  induction pushed with
  | nil => exact h
  | cons t pushed ih =>
    exact .task (hp t List.mem_cons_self) (ih fun u hu => hp u (List.mem_cons_of_mem t hu))

/-- The end of the owner is the first end of a call on the stack. -/
theorem Owns.top {call : Call} (h : Owns run program k (some call) ts) :
    call.Active run k ∧ call.Lawful ∧ ∃ above, ts = above ++ call.ending ∧
      ∀ t ∈ above, t.Of call.code.decl.body := by
  generalize ho : some call = owner at h
  induction h with
  | halt => cases ho
  | program _ => cases ho
  | @task owner t ts ht _ ih =>
    subst ho
    obtain ⟨ha, hl, above, rfl, habove⟩ := ih rfl
    refine ⟨ha, hl, t :: above, rfl, fun u hu => ?_⟩
    rcases List.mem_cons.1 hu with rfl | hu
    · exact ht
    · exact habove u hu
  | call ha hl _ _ =>
    cases ho
    exact ⟨ha, hl, [], rfl, by simp⟩

/-- At moment `k` the code that runs or waits has its owners. -/
def Owned (run : Nat → Machine) (program : List Stmt) (k : Nat) : Prop :=
  ∃ owner, Owns run program k owner (run k).tasks ∧ (run k).focus.Of (bodyOf program owner)

/-- A step that goes on with the owner's code. -/
theorem Owns.stays (h : Owns run program k owner ts)
    (hs : Machine.Stays (bodyOf program owner) ts (run (k + 1))) : Owned run program (k + 1) := by
  obtain ⟨hf, pushed, htasks, hp⟩ := hs
  refine ⟨owner, ?_, hf⟩
  have hw : ts <:+ (run (k + 1)).tasks := htasks ▸ List.suffix_append pushed ts
  rw [htasks]
  exact (h.succ hw).append hp

/-- A step that leaves the tasks `ts` and runs nothing. -/
theorem Owns.left (h : Owns run program k owner ts) {f : Focus} {s : State}
    (hstep : run (k + 1) = ⟨f, ts, s⟩) (hf : f.Of (bodyOf program owner)) :
    Owned run program (k + 1) :=
  h.stays (hstep ▸ Machine.stays_here hf)

/-- A run of an accepted program, with what the resolver's checks come to for its functions. -/
structure Checked (run : Nat → Machine) (program : List Stmt) : Prop where
  step : ∀ k, run (k + 1) = (run k).step
  top : ∀ keyword value, ¬ Stmt.Within program (.ret keyword value)
  ofClass : ∀ k c below code, (run k).calling? = some (.cls c, below) →
    c.initializer? = some code → code.isInit = true
  initializer : ∀ k callee below code, (run k).calling? = some (callee, below) →
    callee.code? = some code → code.isInit = true →
    ∀ keyword value, Stmt.Within code.decl.body (.ret keyword value) → value = none

theorem Checked.not_returned (hrun : Checked run program) {v : Value} :
    ¬ (Focus.returned v).Of (bodyOf program none) := by
  rintro ⟨keyword, value, hret, -⟩
  exact hrun.top keyword value hret

/-- A value is called. -/
theorem Owns.called (hrun : Checked run program) {paren : Token} {callee : Value}
    {args : List Value} {s : State} (h : Owns run program k owner ts)
    (hcalling : (run k).calling? = some (callee, ts))
    (hstep : run (k + 1) = Machine.call paren callee args ts s) : Owned run program (k + 1) := by
  rcases Machine.call_cases (bodyOf program owner) paren callee args ts s with
    hs | ⟨code, exit, env, hfun, hfocus, htasks, hexit⟩
  · exact h.stays (hstep ▸ hs)
  · rw [← hstep] at hfocus htasks
    let call : Call := ⟨k, code, exit, ts⟩
    have hmade : call.Made run := ⟨⟨callee, hcalling, hfun⟩, env, htasks⟩
    have hending : call.ending <:+ (run (k + 1)).tasks :=
      htasks ▸ (List.suffix_cons _ _).trans (List.suffix_cons _ _)
    have hactive : call.Active run (k + 1) := by
      refine ⟨hmade, Nat.lt_succ_self k, fun i hi hik => ?_⟩
      obtain rfl : i = k + 1 := Nat.le_antisymm hik hi
      exact hending
    have hlawful : call.Lawful := by
      refine ⟨fun hplain => ?_, hrun.initializer k callee ts code hcalling hfun⟩
      have hplain : code.isInit = false := hplain
      rcases hexit with hret | hinit | ⟨c, rfl⟩
      · exact hret
      · rw [hinit] at hplain
        cases hplain
      · rw [hrun.ofClass k c ts code hcalling hfun] at hplain
        cases hplain
    have hbelow : Owns run program (k + 1) owner ts :=
      h.succ ((List.suffix_cons _ _).trans hending)
    refine ⟨some call, ?_, hfocus ▸ trivial⟩
    rw [htasks]
    exact (Owns.call hactive hlawful hbelow).append (Machine.entered_of fun u hu => .here hu)

/-- A step keeps the owners. -/
theorem Owned.step (hrun : Checked run program) (h : Owned run program k) :
    Owned run program (k + 1) := by
  obtain ⟨owner, ho, hf⟩ := h
  have hstep := hrun.step k
  generalize hm : run k = m at ho hf hstep
  obtain ⟨focus, tasks, s⟩ := m
  simp only at ho hf
  cases focus with
  | eval e => exact ho.stays (hstep ▸ Machine.stays_eval)
  | exec stmt => exact ho.stays (hstep ▸ Machine.stays_exec hf)
  | value v =>
    cases ho with
    | halt => exact Owns.halt.left hstep trivial
    | program _ => exact Owns.halt.left hstep trivial
    | task ht ho =>
      rcases Machine.stays_resume ht with hs | ⟨paren, callee, args, hcalling, hcall⟩
      · exact ho.stays (hstep ▸ hs)
      · exact ho.called hrun (hm ▸ hcalling) (hstep.trans hcall)
    | call _ _ ho => exact ho.left hstep trivial
  | done =>
    cases ho with
    | halt => exact Owns.halt.left hstep trivial
    | @program rest hrest =>
      cases rest with
      | nil => exact Owns.halt.left hstep trivial
      | cons stmt rest =>
        refine ⟨none, ?_, ?_⟩
        · rw [hstep]
          exact .program fun u hu => hrest u (List.mem_cons_of_mem stmt hu)
        · rw [hstep]
          exact hrest stmt List.mem_cons_self
    | task ht ho => exact ho.stays (hstep ▸ Machine.stays_proceed ht)
    | call _ _ ho => exact ho.left hstep trivial
  | returned v =>
    cases ho with
    | halt => exact absurd hf hrun.not_returned
    | program _ => exact absurd hf hrun.not_returned
    | task ht ho => exact ho.stays (hstep ▸ Machine.stays_unwindReturn ht hf)
    | call _ _ ho => exact ho.left hstep trivial
  | raised e =>
    cases ho with
    | halt => exact Owns.halt.left hstep trivial
    | program _ => exact Owns.halt.left hstep trivial
    | task _ ho => exact ho.stays (hstep ▸ Machine.stays_unwindError)
    | call _ _ ho => exact ho.left hstep trivial

theorem Owned.all (hrun : Checked run program) (h : Owned run program 0) :
    ∀ k, Owned run program k
  | 0 => h
  | k + 1 => (Owned.all hrun h k).step hrun

end Call

end Lox
