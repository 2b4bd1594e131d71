import Lox.Proofs.Machine.Sessions
import Lox.Proofs.Machine.Stack
/-!
# Every way out restores the frames

Frames are entered by blocks and bodies and left by falling off the end, by `return` and by
runtime errors. Every step either leaves frames and calls alone, enters or leaves one frame, or
makes or ends one call (`Machine.Moves`), and the tasks that wait know the way back
(`Exit.Back`). So an expression or statement that is done, however it ended, is back in the scope
chain and at the depths it started from, and what it has logged about frames is bracketed.
-/

namespace Lox

/-! ## Brackets in a trace -/

/-- An event that tells neither of entering nor of leaving a frame. -/
def TraceEvent.Quiet : TraceEvent → Prop
  | .pushFrame _ | .popFrame _ => False
  | _ => True

namespace TraceEvent

/-- Frames are entered and left in pairs, and both events of a pair tell the depth at which
they are nested, `level` being the depth around them all. -/
inductive Bracketed : Nat → List TraceEvent → Prop
  | nil {level : Nat} : Bracketed level []
  | quiet {level : Nat} {e : TraceEvent} {es : List TraceEvent} :
    e.Quiet → Bracketed level es → Bracketed level (e :: es)
  | frame {level : Nat} {inner es : List TraceEvent} :
    Bracketed (level + 1) inner → Bracketed level es →
    Bracketed level (.pushFrame (level + 1) :: (inner ++ .popFrame (level + 1) :: es))

/-- Brackets of which those from `low` to `high` are still open. -/
inductive Opened : Nat → Nat → List TraceEvent → Prop
  | none {low : Nat} {es : List TraceEvent} : Bracketed low es → Opened low low es
  | frame {low high : Nat} {es inner : List TraceEvent} :
    Bracketed low es → Opened (low + 1) high inner →
    Opened low high (es ++ .pushFrame (low + 1) :: inner)

variable {low high : Nat} {es es' : List TraceEvent} {e : TraceEvent}

theorem Bracketed.append (h : Bracketed low es) (h' : Bracketed low es') :
    Bracketed low (es ++ es') := by
  induction h with
  | nil => exact h'
  | quiet hq _ ih => exact .quiet hq (ih h')
  | frame hi _ _ ih =>
    rw [List.cons_append, List.append_assoc]
    exact .frame hi (ih h')

namespace Opened

theorem le (h : Opened low high es) : low ≤ high := by
  induction h with
  | none _ => exact Nat.le_refl _
  | frame _ _ ih => omega

theorem closed (h : Opened low low es) : Bracketed low es := by
  cases h with
  | none h => exact h
  | frame _ h => exact absurd h.le (Nat.not_succ_le_self low)

theorem quiet (h : Opened low high es) (hq : e.Quiet) : Opened low high (es ++ [e]) := by
  induction h with
  | none h => exact .none (h.append (.quiet hq .nil))
  | frame h _ ih =>
    rw [List.append_assoc]
    exact .frame h ih

theorem quietAll (h : Opened low high es) (hq : ∀ e ∈ es', e.Quiet) :
    Opened low high (es ++ es') := by
  induction es' generalizing es with
  | nil => simpa using h
  | cons e es' ih =>
    rw [List.append_cons]
    exact ih (h.quiet (hq e List.mem_cons_self)) fun e' he => hq e' (List.mem_cons_of_mem e he)

theorem push (h : Opened low high es) :
    Opened low (high + 1) (es ++ [.pushFrame (high + 1)]) := by
  induction h with
  | none h => exact .frame h (.none .nil)
  | frame h _ ih =>
    rw [List.append_assoc]
    exact .frame h ih

theorem pop (h : Opened low (high + 1) es) (hle : low ≤ high) :
    Opened low high (es ++ [.popFrame (high + 1)]) := by
  generalize hd : high + 1 = depth at h
  induction h with
  | none _ => omega
  | @frame low depth es inner hes hinner ih =>
    rw [List.append_assoc]
    by_cases hlow : low = high
    · -- the innermost open frame is the one that is left
      subst hlow hd
      exact .none (hes.append (.frame hinner.closed .nil))
    · exact .frame hes (ih (by omega) hd)

end Opened

end TraceEvent

/-! ## Places -/

/-- The scope chain and the depths of a machine. -/
structure Place where
  env : Chain
  callDepth : Nat
  frameDepth : Nat

def State.place (s : State) : Place := ⟨s.env, s.callDepth, s.frameDepth⟩

/-- What a task will leave. -/
inductive Exit where
  | frame (saved : Chain)
  | call

def Task.exit? : Task → Option Exit
  | .leave saved => some (.frame saved)
  | .endCall _ => some .call
  | _ => none

/-- All that the tasks will leave, innermost first. -/
def Task.exits (tasks : List Task) : List Exit := tasks.filterMap Task.exit?

/-- The exits lead from a place back home. -/
inductive Exit.Back (home : Place) : List Exit → Place → Prop
  | here : Back home [] home
  | frame {env saved : Chain} {calls frames : Nat} {exits : List Exit} :
    Back home exits ⟨saved, calls, frames⟩ →
    Back home (.frame saved :: exits) ⟨env, calls, frames + 1⟩
  | call {env : Chain} {calls frames : Nat} {exits : List Exit} :
    Back home exits ⟨env, calls, frames⟩ →
    Back home (.call :: exits) ⟨env, calls + 1, frames⟩

namespace Exit.Back

variable {home p : Place} {exits : List Exit}

theorem frameDepth_le (h : Back home exits p) : home.frameDepth ≤ p.frameDepth := by
  induction h with
  | here => exact Nat.le_refl _
  | frame _ ih => exact Nat.le_succ_of_le ih
  | call _ ih => exact ih

theorem nil_inv (h : Back home [] p) : p = home := by
  cases h
  rfl

theorem frame_inv {saved : Chain} (h : Back home (.frame saved :: exits) p) :
    ∃ depth, p.frameDepth = depth + 1 ∧ Back home exits ⟨saved, p.callDepth, depth⟩ := by
  cases h with
  | frame h => exact ⟨_, rfl, h⟩

theorem call_inv (h : Back home (.call :: exits) p) :
    ∃ depth, p.callDepth = depth + 1 ∧ Back home exits ⟨p.env, depth, p.frameDepth⟩ := by
  cases h with
  | call h => exact ⟨_, rfl, h⟩

end Exit.Back

/-- Frames, calls and the trace of frames are as before. -/
structure State.Steady (s s' : State) : Prop where
  place : s'.place = s.place
  tracing : s'.tracing = s.tracing
  trace : ∃ es, s'.trace.toList = s.trace.toList ++ es ∧ (∀ e ∈ es, e.Quiet) ∧
    (s.tracing = false → es = [])

namespace State

variable {s s' s'' : State}

theorem Steady.of_eq (hp : s'.place = s.place) (ht : s'.tracing = s.tracing)
    (htrace : s'.trace = s.trace) : s.Steady s' :=
  ⟨hp, ht, [], by simp [htrace], by simp, fun _ => rfl⟩

theorem Steady.refl (s : State) : s.Steady s := .of_eq rfl rfl rfl

theorem Steady.trans (h : s.Steady s') (h' : s'.Steady s'') : s.Steady s'' := by
  obtain ⟨hp, ht, es, htr, hq, hn⟩ := h
  obtain ⟨hp', ht', es', htr', hq', hn'⟩ := h'
  refine ⟨hp'.trans hp, ht'.trans ht, es ++ es', by simp [htr, htr'], fun e he => ?_, fun hf => ?_⟩
  · exact (List.mem_append.1 he).elim (hq e) (hq' e)
  · rw [hn hf, hn' (ht.trans hf)]
    rfl

theorem steady_log {e : TraceEvent} (he : e.Quiet) : s.Steady (s.log e) := by
  unfold log
  split
  · rename_i ht
    exact ⟨rfl, rfl, [e], by simp, by simpa using he, fun hf => by simp [ht] at hf⟩
  · exact .refl s

end State

/-! ## What a step does to frames and calls -/

namespace Machine

inductive Moves : Machine → Machine → Prop
  /-- Frames and calls stay as they are. -/
  | stay {f f' : Focus} {ts ts' : List Task} {s s' : State} :
    s.Steady s' → Task.exits ts' = Task.exits ts → Linked ⟨f', ts', s'⟩ →
    Moves ⟨f, ts, s⟩ ⟨f', ts', s'⟩
  /-- A block is entered. -/
  | enter {f : Focus} {body : List Stmt} {chain : Chain} {ts : List Task} {s s' : State} :
    s.Steady s' → Task.Linked .done ts → Moves ⟨f, ts, s⟩ (enterBody body chain ts s')
  /-- A function is called. -/
  | call {f : Focus} {c : Closure} {args : List Value} {exit : CallExit} {ts ts' : List Task}
      {s s' : State} : s.Steady s' → Task.exits ts' = Task.exits ts → Task.Linked .value ts' →
    Moves ⟨f, ts, s⟩ (enterFunction c args exit ts' { s' with callDepth := s'.callDepth + 1 })
  | leave {f f' : Focus} {saved : Chain} {ts : List Task} {s : State} :
    Linked ⟨f', ts, s.leave saved⟩ → Moves ⟨f, .leave saved :: ts, s⟩ ⟨f', ts, s.leave saved⟩
  | endCall {f f' : Focus} {exit : CallExit} {ts : List Task} {s : State} :
    Linked ⟨f', ts, { s with callDepth := s.callDepth - 1 }⟩ →
    Moves ⟨f, .endCall exit :: ts, s⟩ ⟨f', ts, { s with callDepth := s.callDepth - 1 }⟩

variable {f : Focus} {ts ts' : List Task} {s s' : State}

/-- Nothing but the focus, variables and fields have changed. -/
theorem Moves.plain {f' : Focus} (he : Task.exits ts' = Task.exits ts)
    (hs : (s'.place, s'.tracing, s'.trace) = (s.place, s.tracing, s.trace))
    (hl : Linked ⟨f', ts', s'⟩) : Moves ⟨f, ts, s⟩ ⟨f', ts', s'⟩ := by
  simp only [Prod.mk.injEq] at hs
  exact .stay (.of_eq hs.1 hs.2.1 hs.2.2) he hl

theorem moves_assignNearest {chain : Chain} {name : Token} {v : Value} {result : Focus}
    (hs : s.Steady s') (he : Task.exits ts' = Task.exits ts) (hl : ∀ s, Linked ⟨result, ts', s⟩) :
    Moves ⟨f, ts, s⟩ (assignNearest chain name v result ts' s') := by
  unfold assignNearest
  split
  · exact .stay (hs.trans (.of_eq rfl rfl rfl)) he (hl _)
  · exact .stay hs he linked_raised

theorem steady_classChain (superclass : Option Class) :
    s.Steady (s.classChain superclass).2 := by
  cases superclass <;> exact .of_eq rfl rfl rfl

theorem steady_newClass (name : Bytes) (superclass : Option Class) (table : Bindings Closure) :
    s.Steady (s.newClass name superclass table).2 := by
  have hquiet : (TraceEvent.declareClass name table.length).Quiet := trivial
  have hid : s.Steady { s with nextId := s.nextId + 1 } := .of_eq rfl rfl rfl
  exact hid.trans (State.steady_log hquiet)

theorem moves_declareClass {name : Token} {superclass : Option Class} {ms : List FunDecl}
    (hs : s.Steady s') (he : Task.exits ts' = Task.exits ts) (hl : Task.Linked .done ts') :
    Moves ⟨f, ts, s⟩ (declareClass name superclass ms ts' s') := by
  have hclass := hs.trans (steady_classChain superclass)
  exact moves_assignNearest (hclass.trans (steady_newClass _ superclass _)) he
    fun s => linked_done hl

theorem moves_call {paren : Token} {callee : Value} {args : List Value}
    (he : Task.exits ts' = Task.exits ts) (hl : Task.Linked .value ts') :
    Moves ⟨f, ts, s⟩ (Machine.call paren callee args ts' s) := by
  have hlog : s.Steady (s.log (.call callee.inspect args.length)) := State.steady_log trivial
  unfold Machine.call
  split
  · exact .plain he rfl linked_raised
  · split
    · exact .plain he rfl linked_raised
    · split
      · exact .plain he rfl linked_raised
      · cases callee with
        | function g => exact .call hlog he hl
        | cls c =>
          simp only [invoke]
          split
          · exact .call (hlog.trans (.of_eq rfl rfl rfl)) he hl
          · exact .stay (hlog.trans (.of_eq rfl rfl rfl)) he (linked_value hl)
        | builtin b =>
          cases b
          exact .stay (hlog.trans (.of_eq rfl rfl rfl)) he (linked_value hl)
        | _ => exact .stay hlog he (linked_value hl)

theorem moves_eval {e : Expr} (hl : Task.Linked .value ts) : Moves ⟨f, ts, s⟩ (eval e ts s) := by
  cases e with
  | var ref =>
    simp only [eval]
    split
    · exact .plain rfl rfl (linked_value hl)
    · exact .plain rfl rfl linked_raised
  | this ref =>
    simp only [eval]
    split
    · exact .plain rfl rfl (linked_value hl)
    · exact .plain rfl rfl linked_raised
  | super ref method =>
    simp only [eval]
    split
    · exact .plain rfl rfl (linked_value hl)
    · exact .plain rfl rfl linked_raised
  | literal _ _ => exact .plain rfl rfl (linked_value hl)
  | grouping _ _ => exact .plain rfl rfl (linked_eval hl)
  | _ => exact .plain rfl rfl (linked_eval ⟨rfl, hl⟩)

theorem moves_exec {stmt : Stmt} (hl : Task.Linked .done ts) :
    Moves ⟨f, ts, s⟩ (exec stmt ts s) := by
  cases stmt with
  | varDecl _ name init =>
    cases init with
    | none => exact .plain rfl rfl (linked_done hl)
    | some e => exact .plain rfl rfl (linked_eval ⟨rfl, hl⟩)
  | block _ body => exact .enter (.of_eq rfl rfl rfl) hl
  | funDecl decl => exact .plain rfl rfl (linked_done hl)
  | ret _ value =>
    cases value with
    | none => exact .plain rfl rfl (linked_returned hl)
    | some e => exact .plain rfl rfl (linked_eval ⟨rfl, hl⟩)
  | classDecl _ name superclass ms =>
    cases superclass with
    | none =>
      simp only [exec]
      exact moves_declareClass (.of_eq rfl rfl rfl) rfl hl
    | some ref => exact .plain rfl rfl (linked_eval ⟨rfl, hl⟩)
  | _ => exact .plain rfl rfl (linked_eval ⟨rfl, hl⟩)

theorem moves_resume {v : Value} {task : Task} (hl : Task.Linked .value (task :: ts)) :
    Moves ⟨f, task :: ts, s⟩ (resume v task ts s) := by
  obtain ⟨hawaits, hl⟩ := hl
  cases task with
  | unary op token =>
    simp only [resume]
    split
    · exact .plain rfl rfl (linked_value hl)
    · exact .plain rfl rfl linked_raised
  | binaryRight op token right => exact .plain rfl rfl (linked_eval ⟨rfl, hl⟩)
  | binary op token left =>
    simp only [resume]
    split
    · exact .plain rfl rfl (linked_value hl)
    · exact .plain rfl rfl linked_raised
  | logical op right =>
    simp only [resume]
    split
    · exact .plain rfl rfl (linked_value hl)
    · exact .plain rfl rfl (linked_eval hl)
  | assign ref =>
    simp only [resume, Machine.assign]
    split
    · exact .plain rfl rfl (linked_value hl)
    · exact moves_assignNearest (.refl s) rfl fun s => linked_value hl
  | callee paren args =>
    cases args with
    | nil => exact moves_call rfl hl
    | cons arg rest => exact .plain rfl rfl (linked_eval ⟨rfl, hl⟩)
  | argument paren callee done rest =>
    cases rest with
    | nil => exact moves_call rfl hl
    | cons arg rest => exact .plain rfl rfl (linked_eval ⟨rfl, hl⟩)
  | get name =>
    cases v with
    | obj o =>
      simp only [resume]
      split
      · exact .plain rfl rfl (linked_value hl)
      · exact .plain rfl rfl (linked_value hl)
      · exact .plain rfl rfl linked_raised
    | _ => exact .plain rfl rfl linked_raised
  | setObject name value =>
    cases v with
    | obj o => exact .plain rfl rfl (linked_eval ⟨rfl, hl⟩)
    | _ => exact .plain rfl rfl linked_raised
  | setField o name => exact .plain rfl rfl (linked_value hl)
  | discard => exact .plain rfl rfl (linked_done hl)
  | print => exact .plain rfl rfl (linked_done hl)
  | define name => exact .plain rfl rfl (linked_done hl)
  | choose yes no =>
    simp only [resume]
    split
    · exact .plain rfl rfl (linked_exec hl)
    · cases no with
      | none => exact .plain rfl rfl (linked_done hl)
      | some stmt => exact .plain rfl rfl (linked_exec hl)
  | loopTest cond body =>
    simp only [resume]
    split
    · exact .plain rfl rfl (linked_exec ⟨rfl, hl⟩)
    · exact .plain rfl rfl (linked_done hl)
  | ret => exact .plain rfl rfl (linked_returned hl)
  | superclass name ref ms =>
    cases v with
    | cls c =>
      simp only [resume]
      exact moves_declareClass (.refl s) rfl hl
    | _ => exact .plain rfl rfl linked_raised
  | _ => cases hawaits

theorem moves_proceed {task : Task} (hl : Task.Linked .done (task :: ts)) :
    Moves ⟨f, task :: ts, s⟩ (proceed task ts s) := by
  obtain ⟨hawaits, hl⟩ := hl
  cases task with
  | sequence rest =>
    cases rest with
    | nil => exact .plain rfl rfl (linked_done hl)
    | cons stmt rest => exact .plain rfl rfl (linked_exec ⟨rfl, hl⟩)
  | program rest =>
    cases rest with
    | nil => exact .plain rfl rfl (linked_done hl)
    | cons stmt rest => exact .plain rfl rfl (linked_exec ⟨rfl, hl⟩)
  | loopBody cond body => exact .plain rfl rfl (linked_eval ⟨rfl, hl⟩)
  | leave saved => exact .leave (linked_done hl)
  | endCall exit => exact .endCall (linked_value hl)
  | _ => cases hawaits

theorem moves_unwindReturn {v : Value} {task : Task} (hl : Task.Linked .done (task :: ts)) :
    Moves ⟨f, task :: ts, s⟩ (unwindReturn v task ts s) := by
  obtain ⟨hawaits, hl⟩ := hl
  cases task with
  | leave saved => exact .leave (linked_returned hl)
  | endCall exit => exact .endCall (linked_value hl)
  | program rest => exact .plain rfl rfl (linked_done ⟨rfl, hl⟩)
  | loopBody cond body => exact .plain rfl rfl (linked_returned hl)
  | sequence rest => exact .plain rfl rfl (linked_returned hl)
  | _ => cases hawaits

theorem moves_unwindError {e : RuntimeError} {task : Task} :
    Moves ⟨f, task :: ts, s⟩ (unwindError e task ts s) := by
  cases task with
  | leave saved => exact .leave linked_raised
  | endCall exit => exact .endCall linked_raised
  | _ => exact .plain rfl rfl linked_raised

/-- A step changes frames and calls in one of these ways only. -/
theorem Linked.moves {m : Machine} (h : m.Linked) : Moves m m.step := by
  obtain ⟨focus, tasks, s⟩ := m
  cases focus with
  | eval e => exact moves_eval (h _ rfl)
  | exec stmt => exact moves_exec (h _ rfl)
  | value v =>
    cases tasks with
    | nil => exact .plain rfl rfl h
    | cons task tasks => exact moves_resume (h _ rfl)
  | done =>
    cases tasks with
    | nil => exact .plain rfl rfl h
    | cons task tasks => exact moves_proceed (h _ rfl)
  | returned v =>
    cases tasks with
    | nil => exact .plain rfl rfl h
    | cons task tasks => exact moves_unwindReturn (h _ rfl)
  | raised e =>
    cases tasks with
    | nil => exact .plain rfl rfl h
    | cons task tasks => exact moves_unwindError

theorem Moves.linked {m m' : Machine} (h : Moves m m') : m'.Linked := by
  cases h with
  | stay _ _ h => exact h
  | enter _ h => exact linked_done ⟨rfl, rfl, h⟩
  | call _ _ h => exact linked_done ⟨rfl, rfl, rfl, h⟩
  | leave h => exact h
  | endCall h => exact h

end Machine

/-! ## The way back -/

namespace State

variable {s s' : State}

theorem place_log (e : TraceEvent) : (s.log e).place = s.place := by unfold log; split <;> rfl

theorem place_enter (chain : Chain) :
    (s.enter chain).place = ⟨chain, s.callDepth, s.frameDepth + 1⟩ := place_log _

theorem place_leave (saved : Chain) :
    (s.leave saved).place = ⟨saved, s.callDepth, s.frameDepth - 1⟩ := by
  simp only [leave, log]
  split <;> rfl

theorem tracing_log (e : TraceEvent) : (s.log e).tracing = s.tracing := by
  unfold log; split <;> rfl

theorem trace_log (e : TraceEvent) :
    (s.log e).trace.toList = s.trace.toList ++ if s.tracing then [e] else [] := by
  unfold log; split <;> simp

/-- What a run from `s` has logged so far: frames that are still open are those above `s`. -/
def Logged (s s' : State) : Prop :=
  s'.tracing = s.tracing ∧ ∃ es, s'.trace.toList = s.trace.toList ++ es ∧
    (s.tracing = true → TraceEvent.Opened s.frameDepth s'.frameDepth es) ∧
    (s.tracing = false → es = [])

namespace Logged

theorem refl (s : State) : s.Logged s := ⟨rfl, [], by simp, fun _ => .none .nil, fun _ => rfl⟩

theorem steady {s'' : State} (h : s.Logged s') (hs : s'.Steady s'') : s.Logged s'' := by
  obtain ⟨ht, es, htrace, ho, hn⟩ := h
  obtain ⟨hp, ht', es', htrace', hq, hn'⟩ := hs
  have hdepth : s''.frameDepth = s'.frameDepth := congrArg Place.frameDepth hp
  refine ⟨ht'.trans ht, es ++ es', by simp [htrace, htrace'], fun h => ?_, fun h => ?_⟩
  · rw [hdepth]
    exact (ho h).quietAll hq
  · rw [hn h, hn' (ht.trans h)]
    rfl

theorem congr {s'' : State} (h : s.Logged s') (hd : s''.frameDepth = s'.frameDepth)
    (ht : s''.tracing = s'.tracing) (htrace : s''.trace = s'.trace) : s.Logged s'' := by
  unfold Logged
  rw [hd, ht, htrace]
  exact h

theorem enter (h : s.Logged s') (chain : Chain) : s.Logged (s'.enter chain) := by
  obtain ⟨ht, es, htrace, ho, hn⟩ := h
  have hdepth : (s'.enter chain).frameDepth = s'.frameDepth + 1 :=
    congrArg Place.frameDepth (place_enter chain)
  refine ⟨(tracing_log _).trans ht,
    es ++ if s'.tracing then [.pushFrame (s'.frameDepth + 1)] else [],
    ?_, fun h => ?_, fun h => ?_⟩
  · rw [State.enter, trace_log]
    simp [htrace]
  · rw [hdepth, ht, h]
    exact (ho h).push
  · rw [hn h, ht, h]
    rfl

theorem leave (h : s.Logged s') {saved : Chain} {depth : Nat} (hd : s'.frameDepth = depth + 1)
    (hle : s.frameDepth ≤ depth) : s.Logged (s'.leave saved) := by
  obtain ⟨ht, es, htrace, ho, hn⟩ := h
  have hdepth : (s'.leave saved).frameDepth = s'.frameDepth - 1 :=
    congrArg Place.frameDepth (place_leave saved)
  refine ⟨(tracing_log _).trans ht, es ++ if s'.tracing then [.popFrame s'.frameDepth] else [],
    ?_, fun h => ?_, fun h => ?_⟩
  · simp only [State.leave]
    rw [trace_log]
    simp [htrace]
  · have ho := ho h
    rw [hd] at ho
    rw [hdepth, ht, h, hd, Nat.add_sub_cancel]
    exact ho.pop hle
  · rw [hn h, ht, h]
    rfl

end Logged

end State

/-- The machine has come from the state `s`, and the tasks that wait lead back to it. -/
structure Machine.Returns (s : State) (m : Machine) : Prop where
  linked : m.Linked
  back : Exit.Back s.place (Task.exits m.tasks) m.state.place
  logged : s.Logged m.state

namespace Machine.Returns

variable {s : State} {m : Machine}

theorem start {focus : Focus} {tasks : List Task} (hl : Linked ⟨focus, tasks, s⟩)
    (he : Task.exits tasks = []) : Returns s ⟨focus, tasks, s⟩ := by
  refine ⟨hl, ?_, .refl s⟩
  rw [he]
  exact .here

/-- A step keeps the way back. -/
theorem step (h : Returns s m) : Returns s m.step := by
  have hmoves := h.linked.moves
  obtain ⟨-, hback, hlogged⟩ := h
  generalize m.step = m' at hmoves
  refine ⟨hmoves.linked, ?_, ?_⟩
  · cases hmoves with
    | stay hs he _ =>
      simp only at hback ⊢
      rw [he, hs.place]
      exact hback
    | @enter f body chain ts s₁ s' hs _ =>
      simp only at hback
      rw [← hs.place] at hback
      exact State.place_enter chain ▸ .frame hback
    | @call f c args exit ts ts' s₁ s' hs he _ =>
      simp only at hback
      rw [← hs.place, ← he] at hback
      exact State.place_enter _ ▸ .frame (.call hback)
    | @leave f f' saved ts s₁ _ =>
      obtain ⟨depth, hdepth, hback⟩ := hback.frame_inv
      have hdepth : s₁.frameDepth = depth + 1 := hdepth
      rw [State.place_leave, hdepth, Nat.add_sub_cancel]
      exact hback
    | @endCall f f' exit ts s₁ _ =>
      obtain ⟨depth, hdepth, hback⟩ := hback.call_inv
      have hdepth : s₁.callDepth = depth + 1 := hdepth
      simp only [State.place, hdepth, Nat.add_sub_cancel]
      exact hback
  · cases hmoves with
    | stay hs _ _ => exact hlogged.steady hs
    | @enter f body chain ts s₁ s' hs _ => exact (hlogged.steady hs).enter chain
    | @call f c args exit ts ts' s₁ s' hs _ _ =>
      refine State.Logged.enter ?_ _
      exact (hlogged.steady hs).congr rfl rfl rfl
    | @leave f f' saved ts s₁ _ =>
      obtain ⟨depth, hdepth, hback⟩ := hback.frame_inv
      exact hlogged.leave hdepth hback.frameDepth_le
    | @endCall f f' exit ts s₁ _ => exact hlogged

theorem run (n : Nat) {m : Machine} (h : Returns s m) : Returns s (m.run n) := by
  induction n generalizing m with
  | zero => exact h
  | succ n ih =>
    simp only [Machine.run]
    split
    · exact h
    · exact ih h.step

/-- A machine with nothing left to do is back where it came from. -/
theorem halted (h : Returns s m) (hm : m.halted = true) : m.state.place = s.place ∧
    ∃ es, m.state.trace.toList = s.trace.toList ++ es ∧
      TraceEvent.Bracketed s.frameDepth es := by
  obtain ⟨focus, tasks, s'⟩ := m
  obtain rfl : tasks = [] := by
    cases focus with
    | eval _ => cases hm
    | exec _ => cases hm
    | _ => exact List.isEmpty_iff.1 hm
  obtain ⟨-, hback, -, es, htrace, ho, hn⟩ := h
  have hplace : s'.place = s.place := hback.nil_inv
  refine ⟨hplace, es, htrace, ?_⟩
  cases ht : s.tracing with
  | true =>
    have hdepth : s'.frameDepth = s.frameDepth := congrArg Place.frameDepth hplace
    have ho := ho ht
    simp only [hdepth] at ho
    exact ho.closed
  | false =>
    rw [hn ht]
    exact .nil

end Machine.Returns

/-! ## Pieces of a run -/

namespace Machine

/-- Whether the machine has a result and no piece of syntax to open. -/
def hasResult (m : Machine) : Bool :=
  match m.focus with
  | .eval _ | .exec _ => false
  | _ => true

/-- The piece that the machine is about to run is done after `n` steps: for the first time there
is a result and only the tasks wait that have been waiting for it. -/
structure Completes (m : Machine) (n : Nat) : Prop where
  opens : m.hasResult = false
  result : (m.run n).hasResult = true
  tasks : (m.run n).tasks = m.tasks
  first : ∀ k < n, (m.run k).hasResult = true → (m.run k).tasks ≠ m.tasks

/-- The machine with nothing that waits. -/
def alone (m : Machine) : Machine := { m with tasks := [] }

theorem above_alone (m : Machine) : m.alone.above m.tasks = m := rfl

theorem halted_iff {m : Machine} : m.halted = true ↔ m.hasResult = true ∧ m.tasks = [] := by
  obtain ⟨focus, tasks, s⟩ := m
  cases focus <;> simp [halted, hasResult]

/-- Until it is done, a piece has not come to its end on its own either. -/
theorem Completes.busy {m : Machine} {n : Nat} (h : m.Completes n) {k : Nat} (hk : k < n) :
    (m.alone.run k).halted = false := by
  induction k using Nat.strongRecOn with
  | ind k ih =>
    have hrun := run_above m.tasks fun j hj => ih j hj (Nat.lt_trans hj hk)
    rw [above_alone] at hrun
    rw [Bool.eq_false_iff]
    intro hhalt
    obtain ⟨hresult, htasks⟩ := halted_iff.1 hhalt
    refine h.first k hk ?_ ?_
    · rw [hrun]; exact hresult
    · rw [hrun]; simp [above, htasks]

theorem Completes.run_eq {m : Machine} {n : Nat} (h : m.Completes n) {k : Nat} (hk : k ≤ n) :
    m.run k = (m.alone.run k).above m.tasks := by
  have hrun := run_above m.tasks fun j hj => h.busy (Nat.lt_of_lt_of_le hj hk)
  rwa [above_alone] at hrun

/-- A piece that is done has been run as if nothing waited for it. -/
theorem Completes.alone {m : Machine} {n : Nat} (h : m.Completes n) :
    (m.alone.run n).halted = true ∧ m.run n = (m.alone.run n).above m.tasks := by
  have hrun := h.run_eq (Nat.le_refl n)
  refine ⟨halted_iff.2 ⟨?_, ?_⟩, hrun⟩
  · have := h.result
    rw [hrun] at this
    exact this
  · have := h.tasks
    rw [hrun] at this
    simpa [above] using this

/-- A run that comes to its end does so at a first moment. -/
theorem halts_first {m : Machine} {n : Nat} (h : (m.run n).halted = true) :
    ∃ k, (m.run k).halted = true ∧ ∀ j < k, (m.run j).halted = false := by
  induction n using Nat.strongRecOn with
  | ind n ih =>
    by_cases hearlier : ∃ j < n, (m.run j).halted = true
    · obtain ⟨j, hj, hhalt⟩ := hearlier
      exact ih j hj hhalt
    · exact ⟨n, h, fun j hj => Bool.eq_false_iff.2 fun hhalt => hearlier ⟨j, hj, hhalt⟩⟩

/-- A piece is done when it has first come to its end on its own. -/
theorem completes_of_first {m : Machine} (ho : m.hasResult = false) {n : Nat}
    (h : (m.alone.run n).halted = true) (busy : ∀ k < n, (m.alone.run k).halted = false) :
    m.Completes n := by
  have hrun : ∀ j ≤ n, m.run j = (m.alone.run j).above m.tasks := fun j hj =>
    run_above m.tasks fun i hi => busy i (Nat.lt_of_lt_of_le hi hj)
  obtain ⟨hresult, htasks⟩ := halted_iff.1 h
  refine ⟨ho, ?_, ?_, fun j hj hr ht => ?_⟩
  · rw [hrun n (Nat.le_refl n)]; exact hresult
  · rw [hrun n (Nat.le_refl n)]; simp [above, htasks]
  · rw [hrun j (Nat.le_of_lt hj)] at hr ht
    have hnil : (m.alone.run j).tasks = [] := by simpa [above] using ht
    have hhalt : (m.alone.run j).halted = true := halted_iff.2 ⟨hr, hnil⟩
    rw [busy j hj] at hhalt
    cases hhalt

/-- A piece of a run that has come to its end is done at some point, be it by an error. -/
theorem completes_of_alone {m : Machine} (ho : m.hasResult = false) {n : Nat}
    (h : (m.alone.run n).halted = true) : ∃ k, m.Completes k := by
  obtain ⟨k, hk, busy⟩ := halts_first h
  exact ⟨k, completes_of_first ho hk busy⟩

theorem completes_of_halted {m : Machine} (ho : m.hasResult = false) {n : Nat}
    (h : (m.run n).halted = true) : ∃ k, m.Completes k := by
  by_cases hall : ∀ j < n + 1, (m.alone.run j).halted = false
  · have hrun := run_above m.tasks fun j hj => hall j (Nat.lt_succ_of_lt hj)
    have hbusy := halted_above m.tasks (hall n (Nat.lt_succ_self n))
    rw [← hrun, above_alone, h] at hbusy
    cases hbusy
  · obtain ⟨j, hj⟩ := Classical.not_forall.1 hall
    obtain ⟨-, hhalt⟩ := Classical.not_imp.1 hj
    exact completes_of_alone ho (Bool.of_not_eq_false hhalt)

/-- **A piece of a program that is done is back where it started**, and what it has logged about
frames is bracketed. -/
theorem Completes.restores {m : Machine} {n : Nat} (h : m.Completes n) :
    (m.run n).state.place = m.state.place ∧
      ∃ es, (m.run n).state.trace.toList = m.state.trace.toList ++ es ∧
        TraceEvent.Bracketed m.state.frameDepth es := by
  obtain ⟨hhalted, hrun⟩ := h.alone
  have hreturns : Returns m.state m.alone := .start (fun _ _ => trivial) rfl
  rw [hrun]
  exact (hreturns.run n).halted hhalted

end Machine

/-! ## Sessions -/

/-- Where a session stands between two sources: it sees the globals only. -/
def Place.rest : Place := ⟨globalChain, 0, 0⟩

namespace Session

variable {fuel : Nat} {source : Bytes} {session : Session}

/-- What a source logs when it is run to its end. -/
theorem run_trace {program : List Stmt} (ha : analyse source = .ok program) :
    (session.run fuel source).1.trace =
      ((session.machine program).run fuel).state.trace.toList := by
  rw [run_eq_runOn]
  simp only [runOn, ha]
  rw [Machine.ending_state]

theorem run_restores (hs : session.state.place = .rest)
    (ho : (session.run fuel source).1.outcome.ended = true) :
    (session.run fuel source).2.state.place = .rest ∧
      TraceEvent.Bracketed 0 (session.run fuel source).1.trace := by
  cases ha : analyse source with
  | error problems =>
    simp only [Session.run, ha]
    exact ⟨hs, .nil⟩
  | ok program =>
    obtain ⟨hhalted, hstate⟩ := run_halted ha ho
    have hstart : Machine.Returns { session.state with output := #[], trace := #[] }
        (session.machine program) := .start (Machine.linked_done ⟨rfl, trivial⟩) rfl
    obtain ⟨hplace, es, htrace, hes⟩ := (hstart.run fuel).halted hhalted
    have hdepth : session.state.frameDepth = 0 := congrArg Place.frameDepth hs
    rw [hstate, run_trace ha, htrace]
    refine ⟨hplace.trans hs, ?_⟩
    simp only [hdepth] at hes
    exact hes

theorem Reached.place {sources : List Bytes} {log : List Declaration}
    (h : Reached sources log session) : session.state.place = .rest := by
  induction h with
  | new tracing => rfl
  | run _ ho ih => exact (run_restores ih ho).1
  | reset _ ih => exact ih
  | wait now _ ih => exact ih

/-- **Every way out restores the interpreter.** A source that was run in a session that can come
about, or was rejected there, leaves the session at the globals and at depth 0, and its trace is
bracketed from depth 1 on. Within a run that has ended each expression and statement that was
opened is done at some point, and whenever one is done it is back in the scope chain and at the
depths it started from, with its part of the trace bracketed. -/
theorem every_exit_restores {sources : List Bytes} {log : List Declaration}
    (hr : Reached sources log session) (fuel : Nat) (source : Bytes) :
    ((session.run fuel source).1.outcome.ended = true →
      (session.run fuel source).2.state.place = .rest ∧
        TraceEvent.Bracketed 0 (session.run fuel source).1.trace) ∧
    ∀ program, analyse source = .ok program →
      ∀ k, ((session.machine program).run k).hasResult = false →
        ((session.run fuel source).1.outcome.ended = true →
          ∃ n, ((session.machine program).run k).Completes n) ∧
        ∀ n, ((session.machine program).run k).Completes n →
          ((session.machine program).run (k + n)).state.place =
              ((session.machine program).run k).state.place ∧
            ∃ es, ((session.machine program).run (k + n)).state.trace.toList =
                ((session.machine program).run k).state.trace.toList ++ es ∧
              TraceEvent.Bracketed ((session.machine program).run k).state.frameDepth es := by
  refine ⟨run_restores hr.place, fun program ha k hk => ⟨fun ho => ?_, fun n hc => ?_⟩⟩
  · have hhalted := (run_halted ha ho).1
    refine Machine.completes_of_halted hk (n := fuel) ?_
    rw [← Machine.run_add, Nat.add_comm, Machine.run_add, Machine.run_of_halted hhalted]
    exact hhalted
  · rw [Machine.run_add]
    exact hc.restores

/-- A method and a function that are left by `return` once and by an error once. -/
def failing : Bytes :=
  utf8 "fun f(x) \x7b \x7b if (x) return 1; \x7d return -\"s\"; \x7d
class A \x7b init() \x7b f(true); f(false); \x7d \x7d
\x7b A(); \x7d"

/-- A new session that keeps a trace. -/
def traced : Session := ⟨.clear, { State.initial with tracing := true }⟩

theorem every_exit_restores_failing :
    (traced.run 200 failing).2.state.place = .rest ∧
      TraceEvent.Bracketed 0 (traced.run 200 failing).1.trace ∧
      ∃ program n, analyse failing = .ok program ∧
        ((traced.machine program).run 5).Completes n ∧
        ((traced.machine program).run (5 + n)).state.place =
          ((traced.machine program).run 5).state.place := by
  have hr : Reached [] [] traced := .new true
  have ho : (traced.run 200 failing).1.outcome.ended = true := by decide +kernel
  have hopens : ((analyse failing).toOption.any fun program =>
      !((traced.machine program).run 5).hasResult) = true := by decide +kernel
  cases ha : analyse failing with
  | error problems => rw [ha] at hopens; cases hopens
  | ok program =>
    rw [ha] at hopens
    obtain ⟨hall, hpieces⟩ := every_exit_restores hr 200 failing
    have hopens : ((traced.machine program).run 5).hasResult = false := by
      simpa [Except.toOption] using hopens
    obtain ⟨hcompletes, hrestores⟩ := hpieces program ha 5 hopens
    obtain ⟨n, hn⟩ := hcompletes ho
    exact ⟨(hall ho).1, (hall ho).2, program, n, rfl, hn, (hrestores n hn).1⟩

end Session

end Lox
