import Lox.Proofs.Machine.Invariant
/-!
# The stack of tasks

A step looks at the innermost task at most, so a piece of a program runs the same way whatever
waits for its result (`Machine.step_above`, `Machine.run_above`). A value only ever meets a task
that waits for a value, and the end of a statement one that waits for that (`Machine.Linked`).
-/

namespace Lox

namespace Machine

/-! ## Tasks below -/

/-- The machine with more tasks waiting below its own. -/
def above (m : Machine) (base : List Task) : Machine := { m with tasks := m.tasks ++ base }

variable {m : Machine} (base : List Task) {tasks : List Task} {s : State}

theorem assignNearest_above {chain : Chain} {name : Token} {v : Value} {result : Focus} :
    assignNearest chain name v result (tasks ++ base) s =
      (assignNearest chain name v result tasks s).above base := by
  unfold assignNearest
  split <;> rfl

theorem assign_above {ref : Ref} {v : Value} :
    assign ref v (tasks ++ base) s = (assign ref v tasks s).above base := by
  unfold assign
  split
  · rfl
  · exact assignNearest_above base

theorem declareClass_above {name : Token} {superclass : Option Class} {ms : List FunDecl} :
    declareClass name superclass ms (tasks ++ base) s =
      (declareClass name superclass ms tasks s).above base :=
  assignNearest_above base

theorem invoke_above {callee : Value} {args : List Value} :
    invoke callee args (tasks ++ base) s = (invoke callee args tasks s).above base := by
  cases callee with
  | cls c =>
    simp only [invoke]
    split <;> rfl
  | builtin b => cases b; rfl
  | _ => rfl

theorem call_above {paren : Token} {callee : Value} {args : List Value} :
    call paren callee args (tasks ++ base) s = (call paren callee args tasks s).above base := by
  unfold call
  split
  · rfl
  · split
    · rfl
    · split
      · rfl
      · exact invoke_above base

theorem eval_above {e : Expr} : eval e (tasks ++ base) s = (eval e tasks s).above base := by
  cases e with
  | var ref => simp only [eval]; split <;> rfl
  | this ref => simp only [eval]; split <;> rfl
  | super ref method => simp only [eval]; split <;> rfl
  | _ => rfl

theorem exec_above {stmt : Stmt} :
    exec stmt (tasks ++ base) s = (exec stmt tasks s).above base := by
  cases stmt with
  | varDecl _ name init => cases init <;> rfl
  | ret _ value => cases value <;> rfl
  | classDecl _ name superclass ms =>
    cases superclass with
    | none =>
      simp only [exec]
      exact declareClass_above base
    | some ref => rfl
  | _ => rfl

theorem resume_above {v : Value} {task : Task} :
    resume v task (tasks ++ base) s = (resume v task tasks s).above base := by
  cases task with
  | unary op token => simp only [resume]; split <;> rfl
  | binary op token left => simp only [resume]; split <;> rfl
  | logical op right => simp only [resume]; split <;> rfl
  | assign ref => exact assign_above base
  | callee paren args =>
    cases args with
    | nil => exact call_above base
    | cons arg rest => rfl
  | argument paren callee done rest =>
    cases rest with
    | nil => exact call_above base
    | cons arg rest => rfl
  | get name =>
    cases v with
    | obj o => simp only [resume]; split <;> rfl
    | _ => rfl
  | setObject name value => cases v <;> rfl
  | choose yes no =>
    simp only [resume]
    split
    · rfl
    · cases no <;> rfl
  | loopTest cond body => simp only [resume]; split <;> rfl
  | superclass name ref ms =>
    cases v with
    | cls c =>
      simp only [resume]
      exact declareClass_above base
    | _ => rfl
  | _ => rfl

theorem proceed_above {task : Task} :
    proceed task (tasks ++ base) s = (proceed task tasks s).above base := by
  cases task with
  | sequence rest => cases rest <;> rfl
  | program rest => cases rest <;> rfl
  | _ => rfl

theorem unwindReturn_above {v : Value} {task : Task} :
    unwindReturn v task (tasks ++ base) s = (unwindReturn v task tasks s).above base := by
  cases task <;> rfl

theorem unwindError_above {e : RuntimeError} {task : Task} :
    unwindError e task (tasks ++ base) s = (unwindError e task tasks s).above base := by
  cases task <;> rfl

/-- What waits below is not looked at while there is something left to do above it. -/
theorem step_above (h : m.halted = false) : (m.above base).step = m.step.above base := by
  obtain ⟨focus, tasks, s⟩ := m
  cases focus with
  | eval e => exact eval_above base
  | exec stmt => exact exec_above base
  | value v =>
    cases tasks with
    | nil => cases h
    | cons task tasks => exact resume_above base
  | done =>
    cases tasks with
    | nil => cases h
    | cons task tasks => exact proceed_above base
  | returned v =>
    cases tasks with
    | nil => cases h
    | cons task tasks => exact unwindReturn_above base
  | raised e =>
    cases tasks with
    | nil => cases h
    | cons task tasks => exact unwindError_above base

theorem halted_above (h : m.halted = false) : (m.above base).halted = false := by
  obtain ⟨focus, tasks, s⟩ := m
  cases focus <;> cases tasks <;> first | rfl | cases h

theorem run_succ (h : m.halted = false) (n : Nat) : m.run (n + 1) = m.step.run n := by
  simp [run, h]

theorem run_of_halted (h : m.halted = true) (n : Nat) : m.run n = m := by
  cases n with
  | zero => rfl
  | succ n => simp [run, h]

theorem run_add (n k : Nat) : m.run (n + k) = (m.run n).run k := by
  induction n generalizing m with
  | zero => rw [Nat.zero_add]; rfl
  | succ n ih =>
    cases h : m.halted with
    | true => rw [run_of_halted h, run_of_halted h, run_of_halted h]
    | false => rw [Nat.add_right_comm, run_succ h, run_succ h, ih]

/-- A piece runs the same way whatever waits for it, for as long as it is not done. -/
theorem run_above {n : Nat} (h : ∀ k < n, (m.run k).halted = false) :
    (m.above base).run n = (m.run n).above base := by
  induction n generalizing m with
  | zero => rfl
  | succ n ih =>
    have h₀ : m.halted = false := h 0 (Nat.succ_pos n)
    rw [run_succ h₀, run_succ (halted_above base h₀), step_above base h₀]
    refine ih fun k hk => ?_
    rw [← run_succ h₀]
    exact h (k + 1) (Nat.succ_lt_succ hk)

end Machine

/-! ## What tasks wait for -/

/-- What a task waits for. -/
def Task.awaits : Task → Awaited
  | .loopBody .. | .sequence _ | .leave _ | .endCall _ | .program _ => .done
  | _ => .value

/-- What the task below a task is given in the end. -/
def Task.gives : Task → Awaited
  | .discard | .print | .define _ | .choose .. | .loopTest .. | .loopBody .. | .ret
  | .superclass .. | .sequence _ | .leave _ | .program _ => .done
  | _ => .value

/-- The first task waits for `a`, and every other one for what the task above it gives. -/
def Task.Linked : Awaited → List Task → Prop
  | _, [] => True
  | a, task :: tasks => task.awaits = a ∧ Linked task.gives tasks

/-- What a focus comes to when it meets no error. -/
def Focus.brings? : Focus → Option Awaited
  | .eval _ | .value _ => some .value
  | .exec _ | .done | .returned _ => some .done
  | .raised _ => none

namespace Machine

/-- The machine brings what its innermost task waits for, or it unwinds an error. -/
def Linked (m : Machine) : Prop := ∀ a, m.focus.brings? = some a → Task.Linked a m.tasks

variable {m : Machine} {tasks : List Task} {s : State}

theorem linked_value {v : Value} (h : Task.Linked .value tasks) : Linked ⟨.value v, tasks, s⟩ := by
  rintro _ ⟨⟩
  exact h

theorem linked_eval {e : Expr} (h : Task.Linked .value tasks) : Linked ⟨.eval e, tasks, s⟩ := by
  rintro _ ⟨⟩
  exact h

theorem linked_done (h : Task.Linked .done tasks) : Linked ⟨.done, tasks, s⟩ := by
  rintro _ ⟨⟩
  exact h

theorem linked_exec {stmt : Stmt} (h : Task.Linked .done tasks) :
    Linked ⟨.exec stmt, tasks, s⟩ := by
  rintro _ ⟨⟩
  exact h

theorem linked_returned {v : Value} (h : Task.Linked .done tasks) :
    Linked ⟨.returned v, tasks, s⟩ := by
  rintro _ ⟨⟩
  exact h

theorem linked_raised {e : RuntimeError} : Linked ⟨.raised e, tasks, s⟩ := by
  rintro _ ⟨⟩

end Machine

end Lox
