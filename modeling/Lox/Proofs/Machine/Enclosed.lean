import Lox.Proofs.Machine.Assignment
import Lox.Proofs.Machine.Endings
import Lox.Proofs.Scope.ForLoops
/-!
# What runs inside a frame leaves the names around it alone

Names are declared in the innermost frame only. So a piece of a program that is run in a new frame
binds no name in a frame that was there before (`Machine.Ends.enclosed`): calls and blocks in it
have frames that are newer still, and an assignment makes no name but in the innermost frame.
-/

namespace Lox

/-- The innermost frame of a chain is not one of the first `n`. -/
def Chain.Beyond (n : Nat) (chain : Chain) : Prop := ∃ f outer, chain = f :: outer ∧ n ≤ f

/-- The machine stands in a frame that is not one of the first `n`, and those bind the names that
they bind in `old`. -/
structure State.Encloses (n : Nat) (old : Frames) (s : State) : Prop where
  here : s.env.Beyond n
  size : n ≤ s.frames.size
  names : ∀ f < n, ∀ x, s.frames.binds f x = old.binds f x

/-- The chain that a task goes back to. -/
def Task.saved? : Task → Option Chain
  | .leave saved => some saved
  | _ => none

/-- Blocks and calls that are being run go back to frames that are not among the first `n`. -/
def Task.AllBeyond (n : Nat) (tasks : List Task) : Prop :=
  ∀ task ∈ tasks, ∀ saved, task.saved? = some saved → saved.Beyond n

structure Machine.Enclosed (n : Nat) (old : Frames) (m : Machine) : Prop where
  state : m.state.Encloses n old
  tasks : Task.AllBeyond n m.tasks

variable {n : Nat} {old : Frames}

namespace State.Encloses

variable {s s' : State}

theorem congr (h : s.Encloses n old) (he : s'.env = s.env) (hf : s'.frames = s.frames) :
    s'.Encloses n old :=
  ⟨he ▸ h.here, hf ▸ h.size, hf ▸ h.names⟩

theorem log (h : s.Encloses n old) (e : TraceEvent) : (s.log e).Encloses n old :=
  h.congr (env_log s e) (frames_log s e)

theorem define (h : s.Encloses n old) {f : FrameId} {x : Bytes} {v : Value}
    (hf : n ≤ f ∨ s.frames.binds f x = true) :
    State.Encloses n old { s with frames := s.frames.define f x v } := by
  refine ⟨h.here, Frames.size_define.symm ▸ h.size, fun g hg y => ?_⟩
  rw [← h.names g hg y]
  rcases hf with hnew | hbound
  · have hne : f ≠ g := Nat.ne_of_gt (Nat.lt_of_lt_of_le hg hnew)
    exact congrArg Option.isSome (Frames.lookup_define_of_ne (.inl hne))
  · exact Frames.binds_define_of_binds hbound g y

theorem defineHere (h : s.Encloses n old) (x : Bytes) (v : Value) :
    (s.defineHere x v).Encloses n old := by
  obtain ⟨f, outer, henv, hf⟩ := h.here
  have hdefined := h.define (x := x) (v := v) (.inl hf)
  exact hdefined.congr rfl (by simp only [State.defineHere, henv, Frames.defineHere])

theorem newFrame (h : s.Encloses n old) (outer : Chain) (vars : Bindings Value) :
    (s.newFrame outer vars).2.Encloses n old := by
  refine ⟨h.here, ?_, fun f hf x => ?_⟩
  · exact (Array.size_push _).symm ▸ Nat.le_succ_of_le h.size
  · rw [← h.names f hf x]
    exact congrArg Option.isSome (Frames.lookup_push_old (Nat.lt_of_lt_of_le hf h.size))

theorem enter (h : s.Encloses n old) {chain : Chain} (hc : chain.Beyond n) :
    (s.enter chain).Encloses n old :=
  ⟨(env_enter s chain).symm ▸ hc, (frames_enter s chain).symm ▸ h.size,
    (frames_enter s chain).symm ▸ h.names⟩

theorem leave (h : s.Encloses n old) {saved : Chain} (hc : saved.Beyond n) :
    (s.leave saved).Encloses n old :=
  ⟨hc, (frames_leave s saved).symm ▸ h.size, (frames_leave s saved).symm ▸ h.names⟩

end State.Encloses

/-! ## Steps -/

namespace Task.AllBeyond

variable {task : Task} {tasks : List Task}

theorem nil : AllBeyond n [] := fun _ hmem => absurd hmem List.not_mem_nil

theorem head (h : AllBeyond n (task :: tasks)) :
    ∀ saved, task.saved? = some saved → saved.Beyond n := h task List.mem_cons_self

theorem tail (h : AllBeyond n (task :: tasks)) : AllBeyond n tasks :=
  fun t hmem => h t (List.mem_cons_of_mem _ hmem)

theorem cons (h : AllBeyond n tasks)
    (ht : ∀ saved, task.saved? = some saved → saved.Beyond n) : AllBeyond n (task :: tasks) := by
  intro t hmem
  rcases List.mem_cons.1 hmem with rfl | hmem
  · exact ht
  · exact h t hmem

/-- Most tasks go back nowhere. -/
theorem push (h : AllBeyond n tasks) (ht : task.saved? = none) : AllBeyond n (task :: tasks) := by
  refine h.cons fun saved hsaved => ?_
  rw [ht] at hsaved
  cases hsaved

end Task.AllBeyond

namespace Machine

variable {s : State} {tasks : List Task}

section

variable (hs : s.Encloses n old) (ht : Task.AllBeyond n tasks)
include hs ht

theorem enclosed_bound {m : Closure} {o : Instance} : (bound m o tasks s).Enclosed n old :=
  ⟨(hs.newFrame m.chain _).congr rfl rfl, ht⟩

theorem enclosed_assignNearest {chain : Chain} {name : Token} {v : Value} {result : Focus} :
    (assignNearest chain name v result tasks s).Enclosed n old := by
  unfold assignNearest
  split
  · rename_i f hf
    have hb : s.frames.binds f name.lexeme = true :=
      List.find?_some (p := fun f => s.frames.binds f name.lexeme) hf
    exact ⟨hs.define (.inr hb), ht⟩
  · exact ⟨hs, ht⟩

theorem enclosed_assign {ref : Ref} {v : Value}
    (hbound : ∀ d f, ref.hops = some d → s.env[d]? = some f →
      n ≤ f ∨ s.frames.binds f ref.name.lexeme = true) :
    (assign ref v tasks s).Enclosed n old := by
  unfold assign
  split
  · rename_i d hd
    refine ⟨?_, ht⟩
    unfold Frames.assignAt
    cases hf : s.env[d]? with
    | none => exact hs.congr rfl rfl
    | some f => exact hs.define (hbound d f hd hf)
  · exact enclosed_assignNearest hs ht

theorem enclosed_declareClass {name : Token} {superclass : Option Class} {ms : List FunDecl} :
    (declareClass name superclass ms tasks s).Enclosed n old := by
  have hchain : (s.classChain superclass).2.Encloses n old := by
    cases superclass with
    | none => exact hs
    | some c => exact hs.newFrame s.env _
  have hclass : ∀ table, ((s.classChain superclass).2.newClass name.lexeme superclass
      table).2.Encloses n old := fun table =>
    hchain.congr (State.env_log _ _) (State.frames_log _ _)
  exact enclosed_assignNearest (hclass _) ht

theorem enclosed_enterBody {body : List Stmt} {chain : Chain} (hc : chain.Beyond n) :
    (enterBody body chain tasks s).Enclosed n old := by
  refine ⟨hs.enter hc, (ht.cons fun saved heq => ?_).push rfl⟩
  cases heq
  exact hs.here

theorem enclosed_enterFunction {c : Closure} {args : List Value} {exit : CallExit} :
    (enterFunction c args exit tasks s).Enclosed n old := by
  have hexit : Task.AllBeyond n (.endCall exit :: tasks) := ht.push rfl
  exact enclosed_enterBody (hs.newFrame c.chain _) hexit ⟨_, _, rfl, hs.size⟩

theorem enclosed_eval {e : Expr} : (eval e tasks s).Enclosed n old := by
  cases e with
  | literal _ _ | grouping _ _ => exact ⟨hs, ht⟩
  | var ref | this ref =>
    simp only [eval]
    split <;> exact ⟨hs, ht⟩
  | super ref method =>
    simp only [eval]
    split
    · exact enclosed_bound hs ht
    · exact ⟨hs, ht⟩
  | _ => exact ⟨hs, ht.push rfl⟩

theorem enclosed_exec {stmt : Stmt} : (exec stmt tasks s).Enclosed n old := by
  cases stmt with
  | varDecl _ name init =>
    cases init with
    | none => exact ⟨hs.defineHere _ _, ht⟩
    | some e => exact ⟨hs, ht.push rfl⟩
  | block _ body =>
    exact enclosed_enterBody (hs.newFrame s.env []) ht ⟨_, _, rfl, hs.size⟩
  | funDecl decl =>
    have hmade : (s.newFunction ⟨decl, s.env, false⟩).2.Encloses n old := hs.congr rfl rfl
    exact ⟨hmade.defineHere _ _, ht⟩
  | ret _ value =>
    cases value with
    | none => exact ⟨hs, ht⟩
    | some e => exact ⟨hs, ht.push rfl⟩
  | classDecl _ name superclass ms =>
    have hnamed := hs.defineHere name.lexeme .nil
    cases superclass with
    | none =>
      simp only [exec]
      exact enclosed_declareClass hnamed ht
    | some ref => exact ⟨hnamed, ht.push rfl⟩
  | _ => exact ⟨hs, ht.push rfl⟩

theorem enclosed_call {paren : Token} {callee : Value} {args : List Value} :
    (call paren callee args tasks s).Enclosed n old := by
  unfold call
  split
  · exact ⟨hs, ht⟩
  · split
    · exact ⟨hs, ht⟩
    · split
      · exact ⟨hs, ht⟩
      · have hs := hs.log (.call callee.inspect args.length)
        generalize s.log (.call callee.inspect args.length) = s at hs
        cases callee with
        | function f =>
          have hcalled : State.Encloses n old { s with callDepth := s.callDepth + 1 } :=
            hs.congr rfl rfl
          exact enclosed_enterFunction hcalled ht
        | cls c =>
          have hmade : (s.newObject c).2.Encloses n old := hs.congr rfl rfl
          simp only [invoke]
          split
          · rename_i init _
            have hbound : ((s.newObject c).2.bindMethod init (s.newObject c).1).2.Encloses n old :=
              hmade.newFrame init.chain _
            generalize (s.newObject c).2.bindMethod init (s.newObject c).1 = made at hbound ⊢
            have hcalled : State.Encloses n old { made.2 with callDepth := made.2.callDepth + 1 } :=
              hbound.congr rfl rfl
            exact enclosed_enterFunction hcalled ht
          · exact ⟨hmade, ht⟩
        | builtin b => cases b; exact ⟨hs.congr rfl rfl, ht⟩
        | _ => exact ⟨hs, ht⟩

theorem enclosed_resume {v : Value} {task : Task}
    (hbound : ∀ ref d f, task = .assign ref → ref.hops = some d → s.env[d]? = some f →
      n ≤ f ∨ s.frames.binds f ref.name.lexeme = true) :
    (resume v task tasks s).Enclosed n old := by
  cases task with
  | callee paren args =>
    cases args with
    | nil => exact enclosed_call hs ht
    | cons arg rest => exact ⟨hs, ht.push rfl⟩
  | argument paren callee done rest =>
    cases rest with
    | nil => exact enclosed_call hs ht
    | cons arg rest => exact ⟨hs, ht.push rfl⟩
  | unary op token | binary op token left | logical op right =>
    simp only [resume]
    split <;> exact ⟨hs, ht⟩
  | assign ref => exact enclosed_assign hs ht fun d f => hbound ref d f rfl
  | get name =>
    cases v with
    | obj o =>
      simp only [resume]
      split
      · exact ⟨hs, ht⟩
      · exact enclosed_bound hs ht
      · exact ⟨hs, ht⟩
    | _ => exact ⟨hs, ht⟩
  | setObject name value =>
    cases v with
    | obj o => exact ⟨hs, ht.push rfl⟩
    | _ => exact ⟨hs, ht⟩
  | setField o name | print => exact ⟨hs.congr rfl rfl, ht⟩
  | define name => exact ⟨hs.defineHere _ _, ht⟩
  | choose yes no =>
    simp only [resume]
    split
    · exact ⟨hs, ht⟩
    · cases no <;> exact ⟨hs, ht⟩
  | loopTest cond body =>
    simp only [resume]
    split
    · exact ⟨hs, ht.push rfl⟩
    · exact ⟨hs, ht⟩
  | superclass name ref ms =>
    cases v with
    | cls c =>
      simp only [resume]
      exact enclosed_declareClass hs ht
    | _ => exact ⟨hs, ht⟩
  | binaryRight _ _ _ => exact ⟨hs, ht.push rfl⟩
  | _ => exact ⟨hs, ht⟩

theorem enclosed_proceed {task : Task}
    (htask : ∀ saved, task.saved? = some saved → saved.Beyond n) :
    (proceed task tasks s).Enclosed n old := by
  cases task with
  | sequence rest | program rest =>
    cases rest with
    | nil => exact ⟨hs, ht⟩
    | cons stmt rest => exact ⟨hs, ht.push rfl⟩
  | loopBody cond body => exact ⟨hs, ht.push rfl⟩
  | leave saved => exact ⟨hs.leave (htask saved rfl), ht⟩
  | endCall exit => exact ⟨hs.congr rfl rfl, ht⟩
  | _ => exact ⟨hs, ht⟩

theorem enclosed_unwindReturn {v : Value} {task : Task}
    (htask : ∀ saved, task.saved? = some saved → saved.Beyond n) :
    (unwindReturn v task tasks s).Enclosed n old := by
  cases task with
  | leave saved => exact ⟨hs.leave (htask saved rfl), ht⟩
  | endCall exit => exact ⟨hs.congr rfl rfl, ht⟩
  | program rest => exact ⟨hs, ht.push rfl⟩
  | _ => exact ⟨hs, ht⟩

theorem enclosed_unwindError {e : RuntimeError} {task : Task}
    (htask : ∀ saved, task.saved? = some saved → saved.Beyond n) :
    (unwindError e task tasks s).Enclosed n old := by
  cases task with
  | leave saved => exact ⟨hs.leave (htask saved rfl), ht⟩
  | endCall exit => exact ⟨hs.congr rfl rfl, ht⟩
  | _ => exact ⟨hs, ht⟩

end

variable {m : Machine}

/-- A step inside a frame stays inside it, as long as no assignment makes a name outside. -/
theorem Enclosed.step (h : m.Enclosed n old)
    (hbound : ∀ v ref ts d f, m.assigning? = some (v, ref, ts) → ref.hops = some d →
      m.state.env[d]? = some f → n ≤ f ∨ m.state.frames.binds f ref.name.lexeme = true) :
    m.step.Enclosed n old := by
  obtain ⟨hs, ht⟩ := h
  obtain ⟨focus, tasks, s⟩ := m
  cases focus with
  | eval e => exact enclosed_eval hs ht
  | exec stmt => exact enclosed_exec hs ht
  | value v =>
    cases tasks with
    | nil => exact ⟨hs, ht⟩
    | cons task rest =>
      refine enclosed_resume hs ht.tail fun ref d f htask hd hf => ?_
      subst htask
      exact hbound v ref rest d f rfl hd hf
  | done =>
    cases tasks with
    | nil => exact ⟨hs, ht⟩
    | cons task rest => exact enclosed_proceed hs ht.tail ht.head
  | returned v =>
    cases tasks with
    | nil => exact ⟨hs, ht⟩
    | cons task rest => exact enclosed_unwindReturn hs ht.tail ht.head
  | raised e =>
    cases tasks with
    | nil => exact ⟨hs, ht⟩
    | cons task rest => exact enclosed_unwindError hs ht.tail ht.head

theorem assigning?_above {v : Value} {ref : Ref} {ts : List Task} (base : List Task)
    (h : m.assigning? = some (v, ref, ts)) :
    (m.above base).assigning? = some (v, ref, ts ++ base) := by
  rw [eq_of_assigning h]
  rfl

/-- A piece that is run inside a frame stays inside it until it is done. -/
theorem Enclosed.run {w : World} (base : List Task) {j : Nat}
    (hw : w.Invariant Acceptable (m.above base)) (h : m.Enclosed n old)
    (hbusy : ∀ i < j, (m.run i).halted = false) : (m.run j).Enclosed n old := by
  induction j generalizing w m with
  | zero => exact h
  | succ j ih =>
    have hgoing : m.halted = false := hbusy 0 (Nat.succ_pos j)
    rw [run_succ hgoing]
    obtain ⟨w', -, -, hw'⟩ := hw.step Acceptable.admissible
    rw [step_above base hgoing] at hw'
    refine ih hw' (h.step fun v ref ts d f hassign hd hf => ?_) fun i hi => ?_
    · have htarget : (m.above base).state.target? ref = some f := by
        rw [State.target?, hd]
        exact hf
      rcases hw.assigns Acceptable.admissible (assigning?_above base hassign) with
        ⟨g, hg, -, hb⟩ | ⟨hnone, -⟩ | ⟨g, name, hhere, hg, -⟩
      · rw [htarget] at hg
        cases hg
        exact .inr hb
      · rw [hd] at hnone
        cases hnone
      · rw [hd] at hhere
        cases hhere
        obtain ⟨f', outer, henv, hf'⟩ := h.state.here
        rw [henv] at hf
        cases hf
        exact .inl hf'
    · rw [← run_succ hgoing]
      exact hbusy (i + 1) (Nat.succ_lt_succ hi)

/-- **A piece that is run inside a new frame binds no names in older frames.** -/
theorem Ends.enclosed {w : World} {piece r : Focus} {s s' : State} {ts : List Task}
    (hw : w.Invariant Acceptable ⟨piece, ts, s⟩) (hs : s.Encloses n old)
    (h : Ends piece s r s') : s'.Encloses n old := by
  obtain ⟨j, hc, hrun⟩ := h
  have henclosed : ((Machine.mk piece [] s).run j).Enclosed n old :=
    Enclosed.run ts hw ⟨hs, .nil⟩ fun i hi => hc.busy hi
  rw [hrun] at henclosed
  exact henclosed.state

end Machine

end Lox
