import Lox.Proofs.Machine.Answers
/-!
# How deep calls go

The depth of calls is a number in the state; what it should count are the calls that have been made
and are not over. A step that makes no call puts no end of a call on the stack and raises no
overflow (`Machine.step_cases`), so the number, the ends that wait and the calls that are open stay
the same at every moment, and none of them passes the limit. Main statement:
`Session.calls_are_counted`; `runaway` is a program that meets the limit.
-/

namespace Lox

/-! ## Steps that make no call -/

/-- The closing parenthesis of the call that has failed for want of room. -/
def Focus.overflow? : Focus → Option Token
  | .raised ⟨t, .stackOverflow⟩ => some t
  | _ => none

theorem Focus.overflow?_eq_some {f : Focus} {t : Token} :
    f.overflow? = some t ↔ f = .raised ⟨t, .stackOverflow⟩ := by
  constructor
  · intro h
    unfold overflow? at h
    split at h
    · cases h
      rfl
    · cases h
  · rintro rfl
    rfl

/-- How many ends of calls wait. -/
def Task.callEnds (tasks : List Task) : Nat := tasks.countP Task.endsCall

namespace Machine

/-- The closing parenthesis of the call that the machine is about to make. -/
def paren? (m : Machine) : Option Token :=
  match m.focus, m.tasks with
  | .value _, .callee paren [] :: _ => some paren
  | .value _, .argument paren _ _ [] :: _ => some paren
  | _, _ => none

/-- No call has been made on the way from one machine to the other, and none has been refused for
want of room. -/
structure Uncalled (m m' : Machine) : Prop where
  ends : Task.callEnds m'.tasks ≤ Task.callEnds m.tasks
  overflow : m'.focus.overflow? = none ∨ m'.focus = m.focus

variable {f : Focus} {ts : List Task} {s s' : State}

theorem callEnds_cons {t : Task} (h : t.endsCall = false) :
    Task.callEnds (t :: ts) = Task.callEnds ts := List.countP_cons_of_neg (by simp [h])

theorem callEnds_le (t : Task) : Task.callEnds ts ≤ Task.callEnds (t :: ts) :=
  (List.sublist_cons_self t ts).countP_le

theorem Uncalled.same {f' : Focus} (h : f'.overflow? = none) :
    Uncalled ⟨f, ts, s⟩ ⟨f', ts, s'⟩ := ⟨Nat.le_refl _, .inl h⟩

theorem Uncalled.push {f' : Focus} {t : Task} (h : f'.overflow? = none) (ht : t.endsCall = false) :
    Uncalled ⟨f, ts, s⟩ ⟨f', t :: ts, s'⟩ := ⟨Nat.le_of_eq (callEnds_cons ht), .inl h⟩

/-- What a task of the stack leaves to do. -/
theorem Uncalled.pop {m' : Machine} {t : Task} (h : Uncalled ⟨f, ts, s⟩ m') :
    Uncalled ⟨f, t :: ts, s⟩ m' := ⟨Nat.le_trans h.ends (callEnds_le t), h.overflow⟩

theorem uncalled_assignNearest {chain : Chain} {name : Token} {v : Value} {result : Focus}
    (h : result.overflow? = none) :
    Uncalled ⟨f, ts, s⟩ (assignNearest chain name v result ts s') := by
  unfold assignNearest
  split
  · exact .same h
  · exact .same rfl

theorem uncalled_eval {e : Expr} : Uncalled ⟨f, ts, s⟩ (eval e ts s) := by
  have hread : ∀ ref e, s.read ref = .error e → (Focus.raised e).overflow? = none := by
    intro ref e h
    unfold State.read at h
    repeat' split at h
    all_goals cases h
    rfl
  cases e with
  | var ref =>
    simp only [eval]
    split
    · exact .same rfl
    · exact .same (hread _ _ ‹_›)
  | this ref =>
    simp only [eval]
    split
    · exact .same rfl
    · exact .same (hread _ _ ‹_›)
  | super ref method =>
    simp only [eval]
    split
    · exact .same rfl
    · rename_i e h
      refine .same ?_
      unfold State.superMethod at h
      simp only at h
      repeat' split at h
      all_goals cases h
      all_goals rfl
  | literal _ _ => exact .same rfl
  | grouping _ _ => exact .same rfl
  | _ => exact .push rfl rfl

theorem uncalled_exec {stmt : Stmt} : Uncalled ⟨f, ts, s⟩ (exec stmt ts s) := by
  cases stmt with
  | varDecl _ name init =>
    cases init with
    | none => exact .same rfl
    | some e => exact .push rfl rfl
  | block _ body => exact ⟨Nat.le_of_eq ((callEnds_cons rfl).trans (callEnds_cons rfl)), .inl rfl⟩
  | funDecl decl => exact .same rfl
  | ret _ value =>
    cases value with
    | none => exact .same rfl
    | some e => exact .push rfl rfl
  | classDecl _ name superclass ms =>
    cases superclass with
    | none => exact uncalled_assignNearest rfl
    | some ref => exact .push rfl rfl
  | _ => exact .push rfl rfl

theorem uncalled_resume {v : Value} {task : Task} :
    Uncalled ⟨.value v, task :: ts, s⟩ (resume v task ts s) ∨ ∃ paren callee,
      calling? ⟨.value v, task :: ts, s⟩ = some (callee, ts) ∧
      paren? ⟨.value v, task :: ts, s⟩ = some paren ∧
      resume v task ts s =
        call paren callee (arguments ⟨.value v, task :: ts, s⟩) ts s := by
  cases task with
  | callee paren args =>
    cases args with
    | nil => exact .inr ⟨paren, v, rfl, rfl, rfl⟩
    | cons arg rest => exact .inl (Uncalled.push rfl rfl).pop
  | argument paren callee done rest =>
    cases rest with
    | nil => exact .inr ⟨paren, callee, rfl, rfl, rfl⟩
    | cons arg rest => exact .inl (Uncalled.push rfl rfl).pop
  | unary op token =>
    left
    simp only [resume]
    split
    · exact (Uncalled.same rfl).pop
    · rename_i fault h
      refine (Uncalled.same ?_).pop
      cases op <;> cases v <;> cases h <;> rfl
  | binaryRight op token right => exact .inl (Uncalled.push rfl rfl).pop
  | binary op token left =>
    left
    simp only [resume]
    split
    · exact (Uncalled.same rfl).pop
    · rename_i fault h
      refine (Uncalled.same ?_).pop
      cases op <;> cases left <;> cases v <;> cases h <;> rfl
  | logical op right => left; simp only [resume]; split <;> exact (Uncalled.same rfl).pop
  | assign ref =>
    left
    simp only [resume, Machine.assign]
    split
    · exact (Uncalled.same rfl).pop
    · exact (uncalled_assignNearest rfl).pop
  | get name =>
    left
    cases v with
    | obj o => simp only [resume]; split <;> exact (Uncalled.same rfl).pop
    | _ => exact (Uncalled.same rfl).pop
  | setObject name value =>
    left
    cases v with
    | obj o => exact (Uncalled.push rfl rfl).pop
    | _ => exact (Uncalled.same rfl).pop
  | choose yes no =>
    left
    simp only [resume]
    split
    · exact (Uncalled.same rfl).pop
    · split <;> exact (Uncalled.same rfl).pop
  | loopTest cond body =>
    left
    simp only [resume]
    split
    · exact (Uncalled.push rfl rfl).pop
    · exact (Uncalled.same rfl).pop
  | superclass name ref ms =>
    left
    cases v with
    | cls c => exact (uncalled_assignNearest rfl).pop
    | _ => exact (Uncalled.same rfl).pop
  | _ => exact .inl (Uncalled.same rfl).pop

theorem uncalled_proceed {task : Task} : Uncalled ⟨f, task :: ts, s⟩ (proceed task ts s) := by
  cases task with
  | sequence rest =>
    cases rest with
    | nil => exact (Uncalled.same rfl).pop
    | cons stmt rest => exact (Uncalled.push rfl rfl).pop
  | program rest =>
    cases rest with
    | nil => exact (Uncalled.same rfl).pop
    | cons stmt rest => exact (Uncalled.push rfl rfl).pop
  | loopBody cond body => exact (Uncalled.push rfl rfl).pop
  | _ => exact (Uncalled.same rfl).pop

theorem uncalled_unwindReturn {v : Value} {task : Task} :
    Uncalled ⟨f, task :: ts, s⟩ (unwindReturn v task ts s) := by
  cases task with
  | program rest => exact (Uncalled.push rfl rfl).pop
  | _ => exact (Uncalled.same rfl).pop

theorem uncalled_unwindError {e : RuntimeError} {task : Task} :
    Uncalled ⟨.raised e, task :: ts, s⟩ (unwindError e task ts s) := by
  cases task <;> exact ⟨callEnds_le _, .inr rfl⟩

/-- A step makes a call, or it puts no end of a call on the stack and raises no overflow. -/
theorem step_cases (m : Machine) : m.Uncalled m.step ∨ ∃ paren callee below,
    m.calling? = some (callee, below) ∧ m.paren? = some paren ∧
      m.step = call paren callee m.arguments below m.state := by
  obtain ⟨focus, tasks, s⟩ := m
  cases focus with
  | eval e => exact .inl uncalled_eval
  | exec stmt => exact .inl uncalled_exec
  | value v =>
    cases tasks with
    | nil => exact .inl (.same rfl)
    | cons task ts =>
      rcases uncalled_resume with h | ⟨paren, callee, hc, hp, h⟩
      · exact .inl h
      · exact .inr ⟨paren, callee, ts, hc, hp, h⟩
  | done =>
    cases tasks with
    | nil => exact .inl (.same rfl)
    | cons task ts => exact .inl uncalled_proceed
  | returned v =>
    cases tasks with
    | nil => exact .inl (.same rfl)
    | cons task ts => exact .inl uncalled_unwindReturn
  | raised e =>
    cases tasks with
    | nil => exact .inl ⟨Nat.le_refl _, .inr rfl⟩
    | cons task ts => exact .inl uncalled_unwindError

/-! ## The limit -/

variable {paren : Token} {callee : Value} {args : List Value}

theorem step_of_calling {m : Machine} {below : List Task}
    (h : m.calling? = some (callee, below)) : ∃ paren, m.paren? = some paren ∧
      m.step = call paren callee m.arguments below m.state := by
  rcases calling_cases h with ⟨paren, hm⟩ | ⟨v, paren, done, hm⟩
  · rw [hm]
    exact ⟨paren, rfl, rfl⟩
  · rw [hm]
    exact ⟨paren, rfl, rfl⟩

/-- Once a call is admitted, one more end of a call waits at most. -/
theorem callEnds_invoke_le :
    Task.callEnds (invoke callee args ts s).tasks ≤ Task.callEnds ts + 1 := by
  have hbody : ∀ c exit s, Task.callEnds (enterFunction c args exit ts s).tasks =
      Task.callEnds ts + 1 := fun c exit s => by
    have hend : Task.callEnds (.endCall exit :: ts) = Task.callEnds ts + 1 :=
      List.countP_cons_of_pos rfl
    exact (callEnds_cons rfl).trans ((callEnds_cons rfl).trans hend)
  cases callee with
  | function g => exact Nat.le_of_eq (hbody ..)
  | cls c =>
    simp only [invoke]
    split
    · exact Nat.le_of_eq (hbody ..)
    · exact Nat.le_succ _
  | builtin b => cases b; exact Nat.le_succ _
  | _ => exact Nat.le_succ _

theorem overflow?_invoke : (invoke callee args ts s).focus.overflow? = none := by
  cases callee with
  | cls c => simp only [invoke]; split <;> rfl
  | builtin b => cases b; rfl
  | _ => rfl

theorem callEnds_call_le (hs : Task.callEnds ts = s.callDepth) (hmax : s.callDepth ≤ maxCallDepth) :
    Task.callEnds (call paren callee args ts s).tasks ≤ maxCallDepth := by
  unfold call
  split
  · exact hs ▸ hmax
  · split
    · exact hs ▸ hmax
    · split
      · exact hs ▸ hmax
      · exact Nat.le_trans callEnds_invoke_le (by omega)

/-- A call finds no room exactly when it is a proper call and the limit has been reached. -/
theorem overflow?_call {t : Token} : (call paren callee args ts s).focus.overflow? = some t ↔
    paren = t ∧ callee.arity? = some args.length ∧ maxCallDepth ≤ s.callDepth := by
  unfold call
  split
  · rename_i harity
    simp [Focus.overflow?, harity]
  · rename_i arity harity
    by_cases hlen : args.length = arity
    · by_cases hroom : maxCallDepth ≤ s.callDepth
      · simp [Focus.overflow?, harity, hlen, hroom]
      · simp [overflow?_invoke, hlen, hroom]
    · have hne : arity ≠ args.length := fun h => hlen h.symm
      simp [Focus.overflow?, harity, hlen, hne]

/-- The depth is the number of ends that wait, and it keeps to the limit. -/
structure Deep (m : Machine) : Prop where
  ends : m.state.callDepth = Task.callEnds m.tasks
  limit : m.state.callDepth ≤ maxCallDepth

/-- What tells the depth is the way back, so a step has only to keep the limit. -/
theorem Deep.step {m : Machine} (h : m.Deep)
    (hback : m.step.state.callDepth = Task.callEnds m.step.tasks) : m.step.Deep := by
  refine ⟨hback, ?_⟩
  rw [hback]
  rcases m.step_cases with hun | ⟨paren, callee, below, hc, -, hcall⟩
  · exact Nat.le_trans hun.ends (h.ends ▸ h.limit)
  · obtain ⟨task, htasks, hends⟩ := tasks_of_calling hc
    rw [hcall]
    refine callEnds_call_le ?_ h.limit
    rw [h.ends, htasks, callEnds_cons hends]

/-! ## What a step does to the tasks that wait -/

theorem tail_suffix_step (m : Machine) : m.tasks.tail <:+ m.step.tasks := by
  obtain ⟨focus, tasks, s⟩ := m
  cases tasks with
  | nil => exact List.nil_suffix
  | cons t ts =>
    have hbusy : (Machine.mk focus [t] s).halted = false := by cases focus <;> rfl
    have hstep : (Machine.mk focus (t :: ts) s).step = ((Machine.mk focus [t] s).step).above ts :=
      step_above ts hbusy
    rw [hstep]
    exact List.suffix_append _ _

/-- The end of a call goes on waiting, or the call is over. -/
theorem step_at_endCall {m : Machine} {exit : CallExit} {below : List Task}
    (h : m.tasks = .endCall exit :: below) :
    m.tasks <:+ m.step.tasks ∨ m.step.tasks = below := by
  obtain ⟨focus, tasks, s⟩ := m
  have hopens : (Machine.mk focus [] s).halted = false →
      (Machine.mk focus tasks s).step = ((Machine.mk focus [] s).step).above tasks :=
    fun hbusy => step_above tasks hbusy
  cases focus with
  | eval e => left; rw [hopens rfl]; exact List.suffix_append _ _
  | exec stmt => left; rw [hopens rfl]; exact List.suffix_append _ _
  | _ => cases h; exact .inr rfl

end Machine

/-! ## Ends that wait and calls that are open -/

def Exit.isCall : Exit → Bool
  | .call => true
  | .frame _ => false

theorem Exit.Back.callDepth {home p : Place} {exits : List Exit} (h : Back home exits p) :
    p.callDepth = home.callDepth + exits.countP Exit.isCall := by
  induction h with
  | here => rfl
  | frame _ ih => exact ih
  | call _ ih =>
    rw [List.countP_cons_of_pos rfl, ← Nat.add_assoc]
    exact congrArg (· + 1) ih

theorem Task.countP_exits (tasks : List Task) :
    (Task.exits tasks).countP Exit.isCall = Task.callEnds tasks := by
  induction tasks with
  | nil => rfl
  | cons task tasks ih =>
    unfold Task.exits Task.callEnds at ih ⊢
    cases task with
    | endCall exit =>
      have hexit : (Task.endCall exit).exit? = some .call := rfl
      rw [List.filterMap_cons_some hexit, List.countP_cons_of_pos rfl, List.countP_cons_of_pos rfl,
        ih]
    | _ => exact ih

namespace Call

variable {run : Nat → Machine} {program : List Stmt} {k : Nat} {a b call : Call}

/-- The call has been made before moment `k`, and its value has not come by then, nor an error in
its place. -/
structure Open (run : Nat → Machine) (k : Nat) (call : Call) : Prop where
  made : call.Made run
  since : call.moment < k
  unanswered : ∀ n, (run call.moment).Answers call.below n → k < call.moment + n

/-- An end does not wait among what stands below it. -/
theorem not_ending_suffix : ¬ call.ending <:+ call.below := fun h =>
  absurd h.length_le (Nat.not_succ_le_self _)

/-- A call waits for the calls that are made later. -/
theorem Active.below_later (ha : a.Active run k) (hb : b.Active run k) (h : a.moment < b.moment) :
    a.ending <:+ b.below := by
  obtain ⟨callee, hcalling, -⟩ := hb.made.calling
  obtain ⟨task, htasks, hends⟩ := Machine.tasks_of_calling hcalling
  have hw := ha.waiting b.moment h (Nat.le_of_lt hb.since)
  rw [htasks] at hw
  rcases List.suffix_cons_iff.1 hw with heq | hw
  · obtain ⟨rfl, -⟩ := List.cons.inj heq
    cases hends
  · exact hw

theorem Active.moment_lt (ha : a.Active run k) (hb : b.Active run k) (h : b.ending <:+ a.below) :
    b.moment < a.moment := by
  rcases Nat.lt_trichotomy b.moment a.moment with hlt | heq | hlt
  · exact hlt
  · obtain rfl := hb.made.unique ha.made heq
    exact absurd h not_ending_suffix
  · have hbelow := (List.suffix_cons _ a.below).trans (ha.below_later hb hlt)
    exact absurd (h.trans hbelow) not_ending_suffix

theorem Active.eq_of_ending (ha : a.Active run k) (hb : b.Active run k) (h : a.ending = b.ending) :
    a = b := by
  rcases Nat.lt_trichotomy a.moment b.moment with hlt | heq | hlt
  · exact absurd (h ▸ ha.below_later hb hlt) not_ending_suffix
  · exact ha.made.unique hb.made heq
  · exact absurd (h ▸ hb.below_later ha hlt) not_ending_suffix

/-- The active calls whose ends wait among the given tasks, the last one first. -/
theorem Owns.calls {owner : Option Call} {ts : List Task} (h : Owns run program k owner ts) :
    ∃ calls : List Call, calls.length = Task.callEnds ts ∧
      calls.Pairwise (fun a b => b.moment < a.moment) ∧
      ∀ call : Call, call ∈ calls ↔ call.Active run k ∧ call.ending <:+ ts := by
  induction h with
  | halt => exact ⟨[], rfl, .nil, fun call => by simp [ending]⟩
  | program _ =>
    refine ⟨[], rfl, .nil, fun call => ?_⟩
    simp [ending, List.suffix_cons_iff]
  | @task owner t ts ht _ ih =>
    obtain ⟨calls, hlen, hsorted, hmem⟩ := ih
    have hends : t.endsCall = false := by
      cases t with
      | endCall _ => exact ht.elim
      | _ => rfl
    refine ⟨calls, hlen.trans (Machine.callEnds_cons hends).symm, hsorted, fun call => ?_⟩
    rw [hmem, List.suffix_cons_iff]
    refine and_congr_right fun _ => ⟨.inr, fun hs => hs.resolve_left fun heq => ?_⟩
    obtain ⟨rfl, -⟩ := List.cons.inj heq
    cases hends
  | @call call owner ha _ _ ih =>
    obtain ⟨calls, hlen, hsorted, hmem⟩ := ih
    refine ⟨call :: calls, ?_, List.pairwise_cons.2 ⟨fun b hb => ?_, hsorted⟩, fun b => ?_⟩
    · rw [List.length_cons, hlen]
      exact (List.countP_cons_of_pos rfl).symm
    · obtain ⟨hb, hsuffix⟩ := (hmem b).1 hb
      exact ha.moment_lt hb hsuffix
    · rw [List.mem_cons, hmem]
      constructor
      · rintro (rfl | ⟨hb, hsuffix⟩)
        · exact ⟨ha, List.suffix_refl _⟩
        · exact ⟨hb, hsuffix.trans (List.suffix_cons _ _)⟩
      · rintro ⟨hb, hsuffix⟩
        rcases List.suffix_cons_iff.1 hsuffix with heq | hsuffix
        · exact .inl (hb.eq_of_ending ha heq)
        · exact .inr ⟨hb, hsuffix⟩

section
variable (hadd : ∀ j n, run (j + n) = (run j).run n) (hstep : ∀ k, run (k + 1) = (run k).step)

include hadd in
theorem Active.open (h : call.Active run k) : call.Open run k := by
  refine ⟨h.made, h.since, fun n hn => Nat.lt_of_not_le fun hle => ?_⟩
  have hw := h.waiting (call.moment + n) (Nat.lt_add_of_pos_right hn.later) hle
  rw [hadd, hn.back] at hw
  exact not_ending_suffix hw

include hadd hstep in
/-- As long as a call is not over, its end waits. -/
theorem Open.active (h : call.Open run k) : call.Active run k := by
  refine ⟨h.made, h.since, fun i hi hik => ?_⟩
  -- by induction on `i`: an end that stops waiting does so because the call is over
  induction i using Nat.strongRecOn with
  | ind i ih =>
    obtain ⟨i, rfl⟩ := Nat.exists_eq_add_of_lt hi
    obtain ⟨env, hentered⟩ := h.made.entered
    cases i with
    | zero =>
      rw [Nat.add_zero, hentered]
      exact (List.suffix_cons _ _).trans (List.suffix_cons _ _)
    | succ i =>
      have hwaited : ∀ j ≤ i, call.ending <:+ (run (call.moment + j + 1)).tasks := fun j hj =>
        ih (call.moment + j + 1) (by omega) (by omega) (by omega)
      have hlast := hwaited i (Nat.le_refl i)
      have hnext : run (call.moment + (i + 1) + 1) = (run (call.moment + i + 1)).step := hstep _
      rw [hnext]
      have hcases : (run (call.moment + i + 1)).tasks = call.ending ∨
          call.ending <:+ (run (call.moment + i + 1)).tasks.tail := by
        obtain ⟨pushed, heq⟩ := hlast
        rw [← heq]
        cases pushed with
        | nil => exact .inl rfl
        | cons t pushed => exact .inr (List.suffix_append _ _)
      rcases hcases with heq | htail
      · rcases Machine.step_at_endCall heq with hkept | hover
        · exact heq ▸ hkept
        · have hanswers : (run call.moment).Answers call.below (i + 2) := by
            refine ⟨Nat.succ_pos _, ?_, fun j hj hji => ?_⟩
            · rw [← hadd]
              exact hnext ▸ hover
            · rw [← hadd]
              intro hback
              obtain ⟨j, rfl⟩ := Nat.exists_eq_add_of_lt hj
              have hw := hwaited j (by omega)
              rw [show call.moment + j + 1 = call.moment + (0 + j + 1) by omega, hback] at hw
              exact not_ending_suffix hw
          have := h.unanswered _ hanswers
          omega
      · exact htail.trans (Machine.tail_suffix_step _)

end

end Call

/-! ## Bodies that are being run -/

namespace Machine

variable {m : Machine} {run : Nat → Machine} {exit : CallExit} {below : List Task} {k j : Nat}

/-- In its next step the machine hands a value on and enters the body of a function, whatever it is
that has the body run. -/
def EntersBody (m : Machine) (exit : CallExit) (below : List Task) : Prop :=
  ∃ v task c args s, m.focus = .value v ∧ m.tasks = task :: below ∧
    m.step = enterFunction c args exit below s

/-- The body of a function, method or initializer that is entered at moment `j` is being run at
moment `k`: its frame has not been left. -/
def InBody (run : Nat → Machine) (k j : Nat) : Prop :=
  ∃ exit below, (run j).EntersBody exit below ∧ j < k ∧ ∀ i, j < i → i ≤ k →
    ∃ saved, .leave saved :: .endCall exit :: below <:+ (run i).tasks

/-- A body is entered by a call only. -/
theorem EntersBody.calling (h : m.EntersBody exit below) : ∃ callee code,
    m.calling? = some (callee, below) ∧ callee.code? = some code ∧
      ∃ env, m.step.tasks = .sequence code.decl.body :: .leave env :: .endCall exit :: below := by
  obtain ⟨v, task, c, args, s, hfocus, htasks, hstep⟩ := h
  have hnew : m.step.tasks = .sequence c.decl.body :: .leave s.env :: .endCall exit :: below :=
    congrArg Machine.tasks hstep
  have hcount : Task.callEnds m.step.tasks = Task.callEnds below + 1 := by
    rw [hnew, callEnds_cons rfl, callEnds_cons rfl]
    exact List.countP_cons_of_pos rfl
  rcases m.step_cases with hun | ⟨paren, callee, below', hc, -, -⟩
  · -- only the end of a call could make up for the new one, and it brings no body
    have hends : task.endsCall = true := Bool.of_not_eq_false fun hends => by
      have hle := hun.ends
      rw [hcount, htasks, callEnds_cons hends] at hle
      omega
    have hover : m.step.tasks = below := by
      obtain ⟨focus, tasks, s⟩ := m
      subst hfocus htasks
      cases task with
      | endCall _ => rfl
      | _ => cases hends
    rw [hover] at hnew
    exact absurd (congrArg List.length hnew) (by simp only [List.length_cons]; omega)
  · obtain ⟨task', htasks', -⟩ := tasks_of_calling hc
    obtain ⟨-, rfl⟩ := List.cons.inj (htasks.symm.trans htasks')
    have hcalls := (calls_step hc).2
    generalize hm : m.step = m' at hcalls hnew
    cases hcalls with
    | refused => exact absurd (congrArg List.length hnew) (by simp only [List.length_cons]; omega)
    | answered _ _ =>
      exact absurd (congrArg List.length hnew) (by simp only [List.length_cons]; omega)
    | @entered code c' exit' s' hcode hdecl _ _ _ =>
      refine ⟨callee, code, hc, hcode, s'.env, ?_⟩
      rw [← hdecl]
      have hexit : Task.endCall exit' = .endCall exit := by
        have htail := (List.cons.inj (List.cons.inj hnew).2).2
        exact (List.cons.inj htail).1
      cases hexit
      rfl

/-- A body that is being run belongs to an active call. -/
theorem InBody.active (hstep : ∀ k, run (k + 1) = (run k).step) (h : InBody run k j) :
    ∃ call : Call, call.Active run k ∧ call.moment = j := by
  obtain ⟨exit, below, henters, hjk, hinside⟩ := h
  obtain ⟨callee, code, hcalling, hcode, env, htasks⟩ := henters.calling
  refine ⟨⟨j, code, exit, below⟩, ⟨⟨⟨callee, hcalling, hcode⟩, env, ?_⟩, hjk,
    fun i hi hik => ?_⟩, rfl⟩
  · rw [hstep]
    exact htasks
  · obtain ⟨saved, hw⟩ := hinside i hi hik
    exact (List.suffix_cons _ _).trans hw

end Machine

/-! ## Recursion without end -/

/-- The global variable that a statement calls without arguments, if that is all it does. -/
def Stmt.callsGlobal? : Stmt → Option Bytes
  | .expr _ (.call _ (.var ⟨name, none⟩) []) => some name.lexeme
  | _ => none

theorem Stmt.exists_of_callsGlobal {stmt : Stmt} {x : Bytes} (h : stmt.callsGlobal? = some x) :
    ∃ first paren name, stmt = .expr first (.call paren (.var ⟨name, none⟩) []) ∧
      name.lexeme = x := by
  unfold callsGlobal? at h
  split at h
  · exact ⟨_, _, _, rfl, Option.some.inj h⟩
  · cases h

/-- These global variables are functions or classes that do nothing but call one of them again. -/
def State.Endless (s : State) (names : List Bytes) : Prop :=
  ∀ x ∈ names, ∃ v code stmt y, s.frames.lookup globalFrame x = some v ∧ v.code? = some code ∧
    code.decl.params = [] ∧ code.decl.body = [stmt] ∧ stmt.callsGlobal? = some y ∧ y ∈ names

theorem State.Endless.mono {s s' : State} {names : List Bytes} (h : s.Endless names)
    (hkeeps : ∀ x v, s.frames.lookup globalFrame x = some v →
      s'.frames.lookup globalFrame x = some v) : s'.Endless names := by
  intro x hx
  obtain ⟨v, code, stmt, y, hv, hcode⟩ := h x hx
  exact ⟨v, code, stmt, y, hkeeps x v hv, hcode⟩

namespace Machine

variable {m : Machine} {names : List Bytes} {callee : Value} {code : Closure} {ts : List Task}
  {s : State}

/-- The machine is about to call one of the global variables that call each other for ever. -/
def Recurses (names : List Bytes) (m : Machine) : Prop :=
  ∃ paren name ts s, m = ⟨.eval (.call paren (.var ⟨name, none⟩) []), ts, s⟩ ∧
    name.lexeme ∈ names ∧ s.Endless names

/-- The body of a function is entered, and older bindings stay. -/
theorem exists_enterFunction (c : Closure) (args : List Value) (exit : CallExit) (ts : List Task)
    (s : State) : ∃ env s', enterFunction c args exit ts s =
      ⟨.done, .sequence c.decl.body :: .leave env :: .endCall exit :: ts, s'⟩ ∧
      s'.callDepth = s.callDepth ∧
      ∀ f x v, s.frames.lookup f x = some v → s'.frames.lookup f x = some v := by
  refine ⟨_, _, rfl, congrArg Place.callDepth (State.place_enter _), fun f x v hv => ?_⟩
  rw [State.frames_enter]
  exact Frames.lookup_push_of_some hv

/-- A call that is admitted enters the body one level deeper. -/
theorem exists_invoke (h : callee.code? = some code) (args : List Value) (ts : List Task)
    (s : State) : ∃ env exit s', invoke callee args ts s =
      ⟨.done, .sequence code.decl.body :: .leave env :: .endCall exit :: ts, s'⟩ ∧
      s'.callDepth = s.callDepth + 1 ∧
      ∀ f x v, s.frames.lookup f x = some v → s'.frames.lookup f x = some v := by
  cases callee with
  | function g =>
    obtain rfl : g.closure = code := Option.some.inj h
    obtain ⟨env, s', hs', hdepth, hkeeps⟩ := exists_enterFunction g.closure args
      (if g.closure.isInit then .receiver g.closure.chain else .returned) ts
      { s with callDepth := s.callDepth + 1 }
    exact ⟨env, _, s', hs', hdepth, hkeeps⟩
  | cls c =>
    have hinit : c.initializer? = some code := h
    simp only [invoke, hinit]
    obtain ⟨env, s', hs', hdepth, hkeeps⟩ := exists_enterFunction
      ((s.newObject c).2.bindMethod code (s.newObject c).1).1 args (.object (s.newObject c).1) ts
      { ((s.newObject c).2.bindMethod code (s.newObject c).1).2 with
        callDepth := s.callDepth + 1 }
    exact ⟨env, _, s', hs', hdepth, fun f x v hv => hkeeps f x v (Frames.lookup_push_of_some hv)⟩
  | _ => cases h

theorem arity?_of_code {n : Nat} (h : callee.code? = some code) (hn : code.decl.params.length = n) :
    callee.arity? = some n := by
  cases callee with
  | function g =>
    obtain rfl : g.closure = code := Option.some.inj h
    exact congrArg some hn
  | cls c =>
    have hinit : c.initializer? = some code := h
    simp [Value.arity?, Class.arity, hinit, Closure.arity, hn]
  | _ => cases h

/-- Two steps look up what is called. -/
theorem Recurses.calling (h : m.Recurses names) : ∃ callee code stmt y paren ts,
    m.run 2 = ⟨.value callee, .callee paren [] :: ts, m.state⟩ ∧ callee.code? = some code ∧
      code.decl.params = [] ∧ code.decl.body = [stmt] ∧ stmt.callsGlobal? = some y ∧ y ∈ names ∧
      m.state.Endless names := by
  obtain ⟨paren, name, ts, s, rfl, hname, hs⟩ := h
  obtain ⟨v, code, stmt, y, hv, hcode, hparams, hbody, hstmt, hy⟩ := hs name.lexeme hname
  refine ⟨v, code, stmt, y, paren, ts, ?_, hcode, hparams, hbody, hstmt, hy, hs⟩
  have hread : s.read ⟨name, none⟩ = .ok v := by
    have hget : s.frames.get? globalChain name.lexeme = some v := by
      simp [Frames.get?, globalChain, hv]
    simp [State.read, hget]
  have hstep : step ⟨.eval (.var ⟨name, none⟩), .callee paren [] :: ts, s⟩ =
      ⟨.value v, .callee paren [] :: ts, s⟩ := by
    simp [step, eval, hread]
  exact hstep

/-- While there is room, the recursion goes one level deeper every five steps. -/
theorem Recurses.deeper (h : m.Recurses names) (hroom : m.state.callDepth < maxCallDepth) :
    (m.run 5).Recurses names ∧ (m.run 5).state.callDepth = m.state.callDepth + 1 := by
  obtain ⟨callee, code, stmt, y, paren, ts, hrun, hcode, hparams, hbody, hstmt, hy, hs⟩ := h.calling
  obtain ⟨first, paren', name, rfl, rfl⟩ := Stmt.exists_of_callsGlobal hstmt
  generalize m.state = s at hrun hroom hs ⊢
  have harity : callee.arity? = some 0 := arity?_of_code hcode (by rw [hparams]; rfl)
  have hlog : (s.log (.call callee.inspect 0)).callDepth = s.callDepth :=
    congrArg Place.callDepth (State.place_log _)
  obtain ⟨env, exit, s', hinvoke, hdepth, hkeeps⟩ :=
    exists_invoke hcode [] ts (s.log (.call callee.inspect 0))
  have hcall : step ⟨.value callee, .callee paren [] :: ts, s⟩ =
      ⟨.done, .sequence code.decl.body :: .leave env :: .endCall exit :: ts, s'⟩ := by
    have hnot : ¬ maxCallDepth ≤ s.callDepth := Nat.not_le.2 hroom
    simp only [step, resume, call, harity, List.length_nil, bne_self_eq_false, hnot, if_false]
    exact hinvoke
  have hrun' : m.run 5 = ⟨.eval (.call paren' (.var ⟨name, none⟩) []),
      .discard :: .sequence [] :: .leave env :: .endCall exit :: ts, s'⟩ := by
    rw [run_add 2 3, hrun, run_succ rfl, hcall, hbody]
    rfl
  rw [hrun']
  refine ⟨⟨paren', name, _, s', rfl, hy, hs.mono fun x v hv => hkeeps _ x v ?_⟩, ?_⟩
  · rwa [State.frames_log]
  · rw [hdepth, hlog]

/-- The recursion gets to any depth that there is room for. -/
theorem Recurses.reaches (h : m.Recurses names) (d : Nat)
    (hroom : m.state.callDepth + d ≤ maxCallDepth) :
    (m.run (5 * d)).Recurses names ∧ (m.run (5 * d)).state.callDepth = m.state.callDepth + d := by
  induction d with
  | zero => exact ⟨h, rfl⟩
  | succ d ih =>
    obtain ⟨hd, hdepth⟩ := ih (by omega)
    obtain ⟨hnext, hdepth'⟩ := hd.deeper (by omega)
    rw [Nat.mul_succ, run_add]
    exact ⟨hnext, by omega⟩

/-- An error finds its way out. -/
theorem halts_of_raised (e : RuntimeError) (ts : List Task) (s : State) :
    ((Machine.mk (.raised e) ts s).run ts.length).halted = true := by
  induction ts generalizing s with
  | nil => rfl
  | cons task ts ih =>
    rw [List.length_cons, run_succ rfl]
    cases task <;> exact ih _

/-- At the limit the next call fails, and with it the run. -/
theorem Recurses.halts (h : m.Recurses names) (hdepth : m.state.callDepth = maxCallDepth) :
    ∃ n, (m.run n).halted = true := by
  obtain ⟨callee, code, stmt, y, paren, ts, hrun, hcode, hparams, -⟩ := h.calling
  generalize m.state = s at hrun hdepth
  have harity : callee.arity? = some 0 := arity?_of_code hcode (by rw [hparams]; rfl)
  have hcall : step ⟨.value callee, .callee paren [] :: ts, s⟩ =
      ⟨.raised ⟨paren, .stackOverflow⟩, ts, s⟩ := by
    have hle : maxCallDepth ≤ s.callDepth := Nat.le_of_eq hdepth.symm
    simp only [step, resume, call, harity, List.length_nil, bne_self_eq_false, hle, if_true]
    rfl
  refine ⟨2 + (ts.length + 1), ?_⟩
  rw [run_add, hrun, run_succ rfl, hcall]
  exact halts_of_raised _ ts s

/-- A function is declared among the globals. -/
theorem exec_funDecl_global (decl : FunDecl) (ts : List Task) (henv : s.env = globalChain) :
    ∃ f s', exec (.funDecl decl) ts s = ⟨.done, ts, s'⟩ ∧
      f.code? = some ⟨decl, globalChain, false⟩ ∧
      s'.frames = s.frames.define globalFrame decl.name.lexeme f ∧ s'.place = s.place := by
  refine ⟨.function ⟨s.nextId, ⟨decl, s.env, false⟩⟩, _, rfl, by rw [henv]; rfl, ?_, rfl⟩
  show s.frames.defineHere s.env decl.name.lexeme _ = _
  rw [henv]
  rfl

/-- A class with nothing but an initializer is declared among the globals. -/
theorem exec_classDecl_global (first name : Token) {init : FunDecl}
    (hinit : init.name.lexeme = utf8 "init") (ts : List Task) (henv : s.env = globalChain)
    (hglobals : globalFrame < s.frames.size) :
    ∃ c s', exec (.classDecl first name none [init]) ts s = ⟨.done, ts, s'⟩ ∧
      c.code? = some ⟨init, globalChain, true⟩ ∧
      s'.frames.lookup globalFrame name.lexeme = some c ∧ s'.place = s.place := by
  let c := Value.cls ⟨⟨s.nextId, name.lexeme, State.methodTable s.env [init]⟩, []⟩
  let fs := s.frames.define globalFrame name.lexeme .nil
  obtain ⟨s₁, hs₁, hframes, hplace⟩ : ∃ s₁, exec (.classDecl first name none [init]) ts s =
      assignNearest s₁.env name c .done ts s₁ ∧ s₁.frames = fs ∧ s₁.place = s.place := by
    refine ⟨_, rfl, (State.frames_log _ _).trans ?_, State.place_log _⟩
    show s.frames.defineHere s.env name.lexeme .nil = fs
    rw [henv]
    rfl
  have hbound : fs.binds globalFrame name.lexeme = true :=
    Frames.binds_iff.2 ⟨_, Frames.lookup_define_self hglobals⟩
  have hnearest : s₁.frames.nearest? s₁.env name.lexeme = some globalFrame := by
    rw [hframes, show s₁.env = globalChain from (congrArg Place.env hplace).trans henv]
    simp [Frames.nearest?, globalChain, hbound]
  refine ⟨c, { s₁ with frames := s₁.frames.define globalFrame name.lexeme c }, ?_, ?_, ?_, hplace⟩
  · rw [hs₁, assignNearest, hnearest]
  · simp [c, Value.code?, Class.initializer?, Class.findMethod, Class.lineage, State.methodTable,
      hinit, henv, Bindings.insert, Bindings.get?]
  · exact Frames.lookup_define_self (by rw [hframes, Frames.size_define]; exact hglobals)

end Machine

/-- A class whose initializer calls a function that calls the class, and a call of the function. -/
def callInCircle : List Stmt → Bool
  | [.classDecl _ name none [init], .funDecl decl, stmt] =>
    name.lexeme == utf8 "A" && init.name.lexeme == utf8 "init" && init.params.isEmpty &&
    init.body.map Stmt.callsGlobal? == [some (utf8 "f")] &&
    decl.name.lexeme == utf8 "f" && decl.params.isEmpty &&
    decl.body.map Stmt.callsGlobal? == [some (utf8 "A")] && stmt.callsGlobal? == some (utf8 "f")
  | _ => false

def runaway : Bytes :=
  utf8 "class A \x7b init() \x7b f(); \x7d \x7d fun f() \x7b A(); \x7d f();"

theorem exists_runaway :
    ∃ program, analyse runaway = .ok program ∧ callInCircle program = true := by
  have h : (analyse runaway).toOption.any callInCircle = true := by decide +kernel
  cases ha : analyse runaway with
  | ok program => exact ⟨program, rfl, by simpa [ha, Except.toOption] using h⟩
  | error _ => simp [ha, Except.toOption] at h

namespace Session

variable {sources : List Bytes} {log : List Declaration} {session : Session} {source : Bytes}
  {program : List Stmt}

/-- In every session the call comes about after six steps. -/
theorem Reached.recurses (hr : Reached sources log session) (ha : analyse source = .ok program)
    (hcircle : callInCircle program = true) :
    (session.moments program 6).Recurses [utf8 "A", utf8 "f"] ∧
      (session.moments program 6).state.callDepth = 0 := by
  unfold callInCircle at hcircle
  split at hcircle
  case h_2 => cases hcircle
  case h_1 first name init decl stmt =>
  simp only [Bool.and_eq_true, beq_iff_eq, List.isEmpty_iff] at hcircle
  obtain ⟨⟨⟨⟨⟨⟨⟨hname, hinit⟩, hparams⟩, hbody⟩, hname'⟩, hparams'⟩, hbody'⟩, hstmt⟩ := hcircle
  obtain ⟨inner, hinner, hcalls⟩ := List.map_eq_singleton_iff.1 hbody
  obtain ⟨inner', hinner', hcalls'⟩ := List.map_eq_singleton_iff.1 hbody'
  obtain ⟨first', paren, callee, hlast, hcallee⟩ := Stmt.exists_of_callsGlobal hstmt
  obtain ⟨w, -, hw⟩ := hr.invariant accepted_admissible (fun _ h => h) ha 0
  have hglobals : globalFrame < session.state.frames.size := hw.store.globals
  have henv : session.state.env = globalChain := congrArg Place.env hr.place
  obtain ⟨c, s₁, hs₁, hc, hlookup, hplace⟩ := Machine.exec_classDecl_global first name hinit
    [.program [.funDecl decl, stmt]] (s := { session.state with output := #[], trace := #[] })
    henv hglobals
  have hclass : (session.machine [.classDecl first name none [init], .funDecl decl, stmt]).run 2 =
      ⟨.done, [.program [.funDecl decl, stmt]], s₁⟩ := hs₁
  obtain ⟨f, s₂, hs₂, hf, hframes, hplace₂⟩ := Machine.exec_funDecl_global decl
    [.program [stmt]] ((congrArg Place.env hplace).trans henv)
  have hfun : Machine.run 2 ⟨.done, [.program [.funDecl decl, stmt]], s₁⟩ =
      ⟨.done, [.program [stmt]], s₂⟩ := hs₂
  have hrun : session.moments [.classDecl first name none [init], .funDecl decl, stmt] 6 =
      ⟨.eval (.call paren (.var ⟨callee, none⟩) []), [.discard, .program []], s₂⟩ := by
    rw [moments, Machine.run_add 2 4, hclass, Machine.run_add 2 2, hfun, hlast]
    rfl
  have hA : s₂.frames.lookup globalFrame (utf8 "A") = some c := by
    rw [hframes, Frames.lookup_define_of_ne (.inr (by rw [hname']; decide)), ← hname]
    exact hlookup
  have hf' : s₂.frames.lookup globalFrame (utf8 "f") = some f := by
    rw [hframes, hname']
    exact Frames.lookup_define_self (Frames.lookup_eq_some_lt hlookup)
  rw [hrun]
  refine ⟨⟨paren, callee, _, s₂, rfl, by rw [hcallee]; decide, fun x hx => ?_⟩, ?_⟩
  · obtain rfl | rfl : x = utf8 "A" ∨ x = utf8 "f" := by simpa using hx
    · exact ⟨c, _, inner, _, hA, hc, hparams, hinner, hcalls, by decide⟩
    · exact ⟨f, _, inner', _, hf', hf, hparams', hinner', hcalls', by decide⟩
  · exact congrArg Place.callDepth (hplace₂.trans (hplace.trans hr.place))

/-- In every session the recursion gets to its last call. -/
theorem Reached.runaway_reaches (hr : Reached sources log session)
    (ha : analyse source = .ok program) (hcircle : callInCircle program = true) :
    (session.moments program (6 + 5 * maxCallDepth)).Recurses [utf8 "A", utf8 "f"] ∧
      (session.moments program (6 + 5 * maxCallDepth)).state.callDepth = maxCallDepth := by
  obtain ⟨hrec, hdepth⟩ := hr.recurses ha hcircle
  have hlast := hrec.reaches maxCallDepth (Nat.le_of_eq (by rw [hdepth, Nat.zero_add]))
  rwa [hdepth, Nat.zero_add, ← moments_add] at hlast

theorem Reached.runaway_ends (hr : Reached sources log session) :
    ∃ fuel, (session.run fuel runaway).1.outcome.ended = true := by
  obtain ⟨program, ha, hcircle⟩ := exists_runaway
  obtain ⟨hrec, hdepth⟩ := hr.runaway_reaches ha hcircle
  obtain ⟨n, hn⟩ := hrec.halts hdepth
  refine ⟨6 + 5 * maxCallDepth + n, ?_⟩
  rw [run_eq_runOn]
  simp only [runOn, ha]
  rw [Machine.ended_ending, Machine.run_add]
  exact hn

end Session

/-! ## Runs of sessions -/

namespace Session

variable {sources : List Bytes} {log : List Declaration} {session : Session} {source : Bytes}
  {program : List Stmt}

theorem Reached.deep (hr : Reached sources log session) (program : List Stmt) (k : Nat) :
    (session.moments program k).Deep := by
  have hstart : Machine.Returns { session.state with output := #[], trace := #[] }
      (session.machine program) := .start (Machine.linked_done ⟨rfl, trivial⟩) rfl
  have hends : ∀ k, (session.moments program k).state.callDepth =
      Task.callEnds (session.moments program k).tasks := fun k => by
    have hdepth := (hstart.run k).back.callDepth
    have hhome : session.state.callDepth = 0 := congrArg Place.callDepth hr.place
    rw [Task.countP_exits] at hdepth
    exact hdepth.trans (by simp only [State.place, hhome, Nat.zero_add]; rfl)
  induction k with
  | zero => exact ⟨hends 0, by rw [hends 0]; exact Nat.zero_le _⟩
  | succ k ih =>
    rw [moments_succ]
    have hnext := hends (k + 1)
    rw [moments_succ] at hnext
    exact ih.step hnext

/-- **Calls are counted.** At every moment of every run, whatever the session has run before, the
depth is the number of calls that have been made and are not over, and it is 10000 at most. Each
body that is being run, be it of a function, a method or an initializer, belongs to one of these
calls, so there are no more bodies than calls. A call fails with an overflow, at its closing
parenthesis, exactly when its callee can be called with that many arguments and 10000 calls are
open; nothing else raises an overflow. -/
theorem calls_are_counted (hr : Reached sources log session) (ha : analyse source = .ok program)
    (k : Nat) :
    let run := session.moments program
    ∃ calls : List Call, calls.Pairwise (fun a b => b.moment < a.moment) ∧
      (∀ call : Call, call ∈ calls ↔ call.Open run k) ∧
      (run k).state.callDepth = calls.length ∧ calls.length ≤ 10000 ∧
      (∃ bodies : List Nat, bodies.Nodup ∧ (∀ j, j ∈ bodies ↔ Machine.InBody run k j) ∧
        (∀ j ∈ bodies, ∃ call ∈ calls, call.moment = j) ∧ bodies.length ≤ calls.length) ∧
      (∀ callee below t, (run k).calling? = some (callee, below) →
        ((run (k + 1)).focus = .raised ⟨t, .stackOverflow⟩ ↔ (run k).paren? = some t ∧
          callee.arity? = some (run k).arguments.length ∧ calls.length = 10000)) ∧
      ∀ t, (run k).calling? = none → (run (k + 1)).focus = .raised ⟨t, .stackOverflow⟩ →
        (run k).focus = .raised ⟨t, .stackOverflow⟩ := by
  intro run
  obtain ⟨owner, howns, -⟩ := hr.owned ha k
  obtain ⟨calls, hlen, hsorted, hmem⟩ := howns.calls
  have hdeep := hr.deep program k
  have hdepth : (run k).state.callDepth = calls.length := hdeep.ends.trans hlen.symm
  have hactive : ∀ call : Call, call ∈ calls ↔ call.Active run k := fun call =>
    (hmem call).trans (and_iff_left_of_imp fun h => h.waiting k h.since (Nat.le_refl k))
  refine ⟨calls, hsorted, fun call => (hactive call).trans ⟨fun h => h.open moments_add,
    fun h => h.active moments_add moments_succ⟩, hdepth, hdepth ▸ hdeep.limit, ?_,
    fun callee below t hc => ?_, fun t hc ht => ?_⟩
  · classical
    refine ⟨(calls.map Call.moment).filter (Machine.InBody run k), ?_, fun j => ?_, fun j hj => ?_,
      ?_⟩
    · refine List.Pairwise.filter _ (List.pairwise_map.2 ?_)
      exact hsorted.imp fun h => (Nat.ne_of_lt h).symm
    · rw [List.mem_filter, decide_eq_true_eq, and_iff_right_of_imp]
      intro hj
      obtain ⟨call, hcall, rfl⟩ := hj.active moments_succ
      exact List.mem_map_of_mem ((hactive call).2 hcall)
    · exact List.mem_map.1 (List.mem_filter.1 hj).1
    · exact Nat.le_trans (List.length_filter_le _ _) (Nat.le_of_eq (List.length_map _))
  · obtain ⟨paren, hparen, hstep⟩ := Machine.step_of_calling hc
    have hnext : run (k + 1) = (run k).step := moments_succ k
    have hmax : calls.length = 10000 ↔ maxCallDepth ≤ (run k).state.callDepth := by
      rw [hdepth]
      exact ⟨fun h => Nat.le_of_eq h.symm, Nat.le_antisymm (hdepth ▸ hdeep.limit)⟩
    rw [hnext, hstep, ← Focus.overflow?_eq_some, Machine.overflow?_call, hparen, hmax,
      Option.some_inj]
  · rcases (run k).step_cases with hun | ⟨_, _, _, hc', -, -⟩
    · replace ht : (run k).step.focus = .raised ⟨t, .stackOverflow⟩ := moments_succ k ▸ ht
      rcases hun.overflow with hnone | hsame
      · rw [Focus.overflow?_eq_some.2 ht] at hnone
        cases hnone
      · exact hsame ▸ ht
    · rw [hc] at hc'
      cases hc'

/-- In a session that has overflowed before, the same recursion gets to 10000 open calls again,
and then it overflows. -/
theorem calls_are_counted_runaway : ∃ fuel program k, ∃ calls : List Call, ∃ t,
    analyse runaway = .ok program ∧
    let run := (Session.new.run fuel runaway).2.moments program
    calls.length = 10000 ∧ (∀ call : Call, call ∈ calls ↔ call.Open run k) ∧
      (run (k + 1)).focus = .raised ⟨t, .stackOverflow⟩ := by
  obtain ⟨fuel, hends⟩ := (Reached.new false).runaway_ends
  have hr := (Reached.new false).run hends
  obtain ⟨program, ha, hcircle⟩ := exists_runaway
  obtain ⟨hrec, hdepth⟩ := hr.runaway_reaches ha hcircle
  obtain ⟨callee, code, stmt, y, paren, ts, hrun, hcode, hparams, -⟩ := hrec.calling
  rw [← moments_add] at hrun
  obtain ⟨calls, -, hopen, hcount, -, -, hover, -⟩ := calls_are_counted hr ha
    (6 + 5 * maxCallDepth + 2)
  simp only [hrun] at hcount hover
  have hlen : calls.length = 10000 := hcount.symm.trans hdepth
  refine ⟨fuel, program, _, calls, paren, ha, hlen, hopen,
    (hover callee ts paren rfl).2 ⟨rfl, ?_, hlen⟩⟩
  exact Machine.arity?_of_code hcode (by rw [hparams]; rfl)

end Session

end Lox
