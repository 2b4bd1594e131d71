import Lox.Proofs.Machine.Objects
import Lox.Proofs.Machine.Returning
/-!
# What calls come to

The arguments of a call are counted where the call is made, against a number that a class looks up
in its lineage, and they are bound in the body without being counted again; what an initializer
gives back is not returned by it but found in a frame around it. `Machine.Calls` says what a call
can do at all. From there: a body is entered with an argument for each parameter, a class makes an
object of its own that was not there before, and the initializer of an object, called again in
whatever way, gives back that object.
-/

namespace Lox

/-! ## Making a call -/

namespace Machine

/-- The arguments of the call that the machine is about to make. -/
def arguments (m : Machine) : List Value :=
  match m.focus, m.tasks with
  | .value v, .argument _ _ done [] :: _ => (v :: done).reverse
  | _, _ => []

/-- What a call can come to in one step: it is refused, it has its value at once, or a body is
entered with as many arguments as it has parameters. -/
inductive Calls (callee : Value) (args : List Value) (below : List Task) (s : State) :
    Machine → Prop
  | refused {e : RuntimeError} : Calls callee args below s ⟨.raised e, below, s⟩
  | answered {v : Value} {s' : State} : callee.code? = none →
    (∀ c, callee = .cls c → v = .obj ⟨s.fields.size, c⟩) →
    Calls callee args below s ⟨.value v, below, s'⟩
  | entered {code c : Closure} {exit : CallExit} {s' : State} :
    callee.code? = some code → c.decl = code.decl → args.length = code.arity →
    (∀ c, callee = .cls c → exit = .object ⟨s.fields.size, c⟩) →
    (∀ f, callee = .function f → f.closure.isInit = true → exit = .receiver f.closure.chain) →
    Calls callee args below s (enterFunction c args exit below s')

variable {m : Machine} {callee : Value} {args : List Value} {below : List Task} {s : State}

theorem calls_invoke (harity : callee.arity? = some args.length) (e : TraceEvent) :
    Calls callee args below s (invoke callee args below (s.log e)) := by
  cases callee with
  | function f =>
    refine .entered rfl rfl (Option.some.inj harity).symm (by simp) ?_
    rintro g hg hinit
    cases hg
    exact if_pos hinit
  | cls c =>
    have hsize : (s.log e).fields.size = s.fields.size := by rw [State.fields_log]
    simp only [invoke]
    cases hinit : c.initializer? with
    | none =>
      refine .answered hinit fun c' hc => ?_
      cases hc
      rw [← hsize]
      rfl
    | some init =>
      have hlen : args.length = init.arity := by
        simpa [Value.arity?, Class.arity, hinit] using harity.symm
      refine .entered hinit rfl hlen (fun c' hc => ?_) (by simp)
      cases hc
      rw [← hsize]
      rfl
  | builtin b => cases b; exact .answered rfl (by simp)
  | _ => exact .answered rfl (by simp)

theorem calls_call (paren : Token) :
    Calls callee args below s (call paren callee args below s) := by
  unfold call
  split
  · exact .refused
  · rename_i arity harity
    split
    · exact .refused
    · rename_i hlen
      have hlen : args.length = arity := by simpa using hlen
      split
      · exact .refused
      · exact calls_invoke (hlen ▸ harity) _

/-- What the next step does when it makes a call. -/
theorem calls_step (h : m.calling? = some (callee, below)) :
    m.halted = false ∧ Calls callee m.arguments below m.state m.step := by
  rcases calling_cases h with ⟨paren, hm⟩ | ⟨v, paren, done, hm⟩
  · rw [hm]
    exact ⟨rfl, calls_call paren⟩
  · rw [hm]
    exact ⟨rfl, calls_call paren⟩

end Machine

/-! ## Arguments -/

/-- A call whose body has an argument for each of its parameters. -/
structure Call.Matched (run : Nat → Machine) (call : Call) : Prop where
  count : (run call.moment).arguments.length = call.code.decl.params.length
  /-- The parameter finds its argument in the frame of the body, unless a later parameter has
  the same name. -/
  bound : ∃ f, (run (call.moment + 1)).state.env.head? = some f ∧
    ∀ i p, call.code.decl.params[i]? = some p →
      ∃ v, (run call.moment).arguments[i]? = some v ∧
        ((∀ q ∈ call.code.decl.params.drop (i + 1), q.lexeme ≠ p.lexeme) →
          (run (call.moment + 1)).state.frames.lookup f p.lexeme = some v)

namespace World

theorem get?_arguments_of_not_mem : ∀ {params : List Token} (args : List Value)
    (b : Bindings Value) {x : Bytes}, (∀ q ∈ params, q.lexeme ≠ x) →
    ((params.zip args).foldl (fun b (p, v) => Bindings.insert p.lexeme v b) b).get? x = b.get? x
  | [], _, _, _, _ => rfl
  | _ :: _, [], _, _, _ => rfl
  | p :: params, a :: args, b, x, h => by
    have hrest := get?_arguments_of_not_mem args (b.insert p.lexeme a) fun q hq =>
      h q (List.mem_cons_of_mem _ hq)
    exact hrest.trans (Bindings.get?_insert_of_ne (h p List.mem_cons_self) b)

/-- A parameter is bound to its argument. -/
theorem get?_argument : ∀ {params : List Token} {args : List Value} (b : Bindings Value) {i : Nat}
    {p : Token} {v : Value}, params[i]? = some p → args[i]? = some v →
    (∀ q ∈ params.drop (i + 1), q.lexeme ≠ p.lexeme) →
    ((params.zip args).foldl (fun b (p, v) => Bindings.insert p.lexeme v b) b).get? p.lexeme =
      some v
  | q :: params, a :: args, b, 0, p, v, hp, hv, hlast => by
    obtain rfl : q = p := Option.some.inj hp
    obtain rfl : a = v := Option.some.inj hv
    have hrest := get?_arguments_of_not_mem args (b.insert q.lexeme a) hlast
    exact hrest.trans (Bindings.get?_insert_self b)
  | q :: params, a :: args, b, i + 1, p, v, hp, hv, hlast =>
    get?_argument (b.insert q.lexeme a) (i := i) hp hv hlast

end World

namespace Call

variable {run : Nat → Machine} {program : List Stmt} {k : Nat}

theorem Made.matched (hstep : ∀ k, run (k + 1) = (run k).step) {call : Call}
    (h : call.Made run) : call.Matched run := by
  obtain ⟨⟨callee, hcalling, hcode⟩, env, hentered⟩ := h
  have hcalls := (Machine.calls_step hcalling).2
  rw [← hstep] at hcalls
  unfold ending at hentered
  generalize hm : run (call.moment + 1) = m' at hcalls hentered
  cases hcalls with
  | refused => exact absurd (congrArg List.length hentered) (by simp only [List.length_cons]; omega)
  | answered hnone _ => rw [hnone] at hcode; cases hcode
  | @entered code c exit s' hcode' hdecl hlen _ _ =>
    obtain rfl : code = call.code := Option.some.inj (hcode'.symm.trans hcode)
    refine ⟨hlen, s'.frames.size, ?_, fun i p hp => ?_⟩
    · simp [hm, Machine.enterFunction, Machine.enterBody, State.newFrame]
    · obtain ⟨hi, -⟩ := List.getElem?_eq_some_iff.1 hp
      have hi : i < (run call.moment).arguments.length := hlen ▸ hi
      refine ⟨_, List.getElem?_eq_getElem hi, fun hlast => ?_⟩
      simp only [hm, Machine.enterFunction, Machine.enterBody, State.newFrame,
        State.frames_enter, hdecl]
      rw [Frames.lookup_push_new]
      exact World.get?_argument [] hp (List.getElem?_eq_getElem hi) hlast

/-- Every end of a call that waits belongs to a call that was made. -/
theorem Owns.active {owner : Option Call} {ts : List Task} (h : Owns run program k owner ts)
    {exit : CallExit} {below : List Task} (hw : .endCall exit :: below <:+ ts) :
    ∃ call : Call, call.Active run k ∧ call.ending = .endCall exit :: below := by
  induction h with
  | halt => simp at hw
  | program _ =>
    rcases List.suffix_cons_iff.1 hw with heq | hw
    · cases heq
    · simp at hw
  | task ht _ ih =>
    rcases List.suffix_cons_iff.1 hw with heq | hw
    · obtain ⟨rfl, -⟩ := List.cons.inj heq
      exact ht.elim
    · exact ih hw
  | @call call _ ha _ _ ih =>
    rcases List.suffix_cons_iff.1 hw with heq | hw
    · exact ⟨call, ha, heq.symm⟩
    · exact ih hw

end Call

/-! ## Answers -/

namespace Machine

/-- The call that the machine is about to make is over after `n` steps: for the first time only
the tasks wait that wait for its value. -/
structure Answers (m : Machine) (below : List Task) (n : Nat) : Prop where
  later : 0 < n
  back : (m.run n).tasks = below
  first : ∀ i, 0 < i → i < n → (m.run i).tasks ≠ below

/-- After `n` steps there is an error, or else the value. -/
def Yields (m : Machine) (n : Nat) (v : Value) : Prop :=
  (∃ e, (m.run n).focus = .raised e) ∨ (m.run n).focus = .value v

variable {m inner : Machine} {callee : Value} {below : List Task} {exit : CallExit} {n : Nat}

theorem Answers.unique {n' : Nat} (h : m.Answers below n) (h' : m.Answers below n') : n = n' := by
  rcases Nat.lt_trichotomy n n' with hlt | heq | hlt
  · exact absurd h.back (h'.first n h.later hlt)
  · exact heq
  · exact absurd h'.back (h.first n' h'.later hlt)

/-- A call that is over in the step that makes it. -/
theorem answers_one (hm : m.halted = false) (h : m.step.tasks = below) : m.Answers below 1 :=
  ⟨Nat.one_pos, by rwa [run_succ hm], fun i hi hlt => absurd hi (by omega)⟩

theorem Linked.run (k : Nat) (h : m.Linked) : (m.run k).Linked := by
  induction k generalizing m with
  | zero => exact h
  | succ k ih =>
    simp only [Machine.run]
    split
    · exact h
    · exact ih h.moves.linked

/-- The end of a call passes an error on, or gives a value. -/
theorem step_endCall (hr : m.hasResult = true) (hv : m.focus.brings? ≠ some .value)
    (ht : m.tasks = .endCall exit :: below) :
    m.step.tasks = below ∧ ((∃ e, m.step.focus = .raised e) ∨
      ∃ v, m.step.focus = .value (exitValue m.step.state v exit)) := by
  obtain ⟨focus, tasks, s⟩ := m
  subst ht
  have hstate : ∀ v, exitValue s v exit =
      exitValue { s with callDepth := s.callDepth - 1 } v exit := by
    intro v
    cases exit <;> rfl
  cases focus with
  | eval _ => cases hr
  | exec _ => cases hr
  | value v => exact absurd rfl hv
  | done => exact ⟨rfl, .inr ⟨.nil, congrArg Focus.value (hstate .nil)⟩⟩
  | returned v => exact ⟨rfl, .inr ⟨v, congrArg Focus.value (hstate v)⟩⟩
  | raised e => exact ⟨rfl, .inl ⟨e, rfl⟩⟩

section
variable (hm : m.halted = false) (hstep : m.step = inner.above (.endCall exit :: below))
include hm hstep

/-- While the body runs, the end of the call waits. -/
theorem run_inside {j : Nat} (hbusy : ∀ i < j, (inner.run i).halted = false) :
    m.run (j + 1) = (inner.run j).above (.endCall exit :: below) := by
  rw [run_succ hm, hstep]
  exact run_above _ hbusy

theorem run_inside_ne {j : Nat} (hbusy : ∀ i < j, (inner.run i).halted = false) :
    (m.run (j + 1)).tasks ≠ below := by
  rw [run_inside hm hstep hbusy]
  intro h
  have hlen := congrArg List.length h
  simp only [above, List.length_append, List.length_cons] at hlen
  omega

/-- The body of a call that is over has come to its end, and so has that of a call in a run that
is over. -/
theorem body_halts (h : (m.Answers below n) ∨ (m.run n).halted = true) :
    ∃ j, (inner.run j).halted = true := by
  by_cases hend : ∃ j, (inner.run j).halted = true
  · exact hend
  · have hbusy : ∀ j, (inner.run j).halted = false := fun j =>
      Bool.eq_false_iff.2 fun hj => hend ⟨j, hj⟩
    rcases h with h | h
    · obtain ⟨j, rfl⟩ := Nat.exists_eq_add_of_lt h.later
      rw [Nat.zero_add] at h
      exact absurd h.back (run_inside_ne hm hstep fun i _ => hbusy i)
    · cases n with
      | zero =>
        have h : m.halted = true := h
        rw [hm] at h
        cases h
      | succ j =>
        rw [run_inside hm hstep fun i _ => hbusy i, halted_above _ (hbusy j)] at h
        cases h

omit hm hstep in
/-- A body ends with a statement, a returned value or an error, never with a value. -/
theorem body_result (hl : (inner.above [.endCall exit]).Linked) {j : Nat}
    (hbusy : ∀ i < j, (inner.run i).halted = false) (ht : (inner.run j).tasks = []) :
    (inner.run j).focus.brings? ≠ some .value := by
  intro hvalue
  have hlinked := hl.run j
  rw [run_above _ hbusy] at hlinked
  have hend := hlinked .value hvalue
  simp only [above, ht] at hend
  cases hend.1

/-- A call whose body comes to its end is over two steps after the first moment of that. -/
theorem answers_of_body (hl : (inner.above [.endCall exit]).Linked) {j : Nat}
    (h : (inner.run j).halted = true) : ∃ n, m.Answers below n ∧
      ((∃ e, (m.run n).focus = .raised e) ∨
        ∃ v, (m.run n).focus = .value (exitValue (m.run n).state v exit)) := by
  obtain ⟨k, hk, hbusy⟩ := halts_first h
  obtain ⟨hresult, hnil⟩ := halted_iff.1 hk
  have hrun := run_inside hm hstep hbusy
  have htasks : (m.run (k + 1)).tasks = .endCall exit :: below := by
    rw [hrun]
    simp [above, hnil]
  have hgoing : (m.run (k + 1)).halted = false := by
    rw [Bool.eq_false_iff]
    intro hhalt
    have := (halted_iff.1 hhalt).2
    rw [htasks] at this
    cases this
  have hlast : m.run (k + 2) = (m.run (k + 1)).step := by
    rw [run_add (k + 1) 1]
    exact run_succ hgoing 0
  obtain ⟨hback, hfocus⟩ := step_endCall (by rw [hrun]; exact hresult)
    (by rw [hrun]; exact body_result hl hbusy hnil) htasks
  rw [← hlast] at hback hfocus
  refine ⟨k + 2, ⟨Nat.succ_pos _, hback, fun i hi hik => ?_⟩, hfocus⟩
  obtain ⟨i, rfl⟩ := Nat.exists_eq_add_of_lt hi
  rw [Nat.zero_add]
  exact run_inside_ne hm hstep fun j hj => hbusy j (by omega)

end

/-- A function that is entered runs its body above the end of the call. -/
theorem enterFunction_above (c : Closure) (args : List Value) (exit : CallExit)
    (below : List Task) (s : State) : ∃ inner : Machine,
    enterFunction c args exit below s = inner.above (.endCall exit :: below) ∧
      (inner.above [.endCall exit]).Linked :=
  ⟨⟨.done, [.sequence c.decl.body, .leave s.env], _⟩, rfl, linked_done ⟨rfl, rfl, rfl, trivial⟩⟩

/-- A call that has entered a body gives what its end says. -/
theorem Answers.exitValue {c : Closure} {args : List Value} {s : State} (hm : m.halted = false)
    (hstep : m.step = enterFunction c args exit below s) (h : m.Answers below n) :
    ∃ v, m.Yields n (Machine.exitValue (m.run n).state v exit) := by
  obtain ⟨inner, habove, hlinked⟩ := enterFunction_above c args exit below s
  rw [habove] at hstep
  obtain ⟨j, hj⟩ := body_halts hm hstep (.inl h)
  obtain ⟨n', h', hfocus⟩ := answers_of_body hm hstep hlinked hj
  obtain rfl := h.unique h'
  rcases hfocus with he | ⟨v, hv⟩
  · exact ⟨.nil, .inl he⟩
  · exact ⟨v, .inr hv⟩

/-- A call that is over at once gives the result of the step that makes it. -/
theorem Answers.step (hm : m.halted = false) (hstep : m.step.tasks = below)
    (h : m.Answers below n) : m.run n = m.step := by
  obtain rfl := h.unique (answers_one hm hstep)
  exact run_succ hm 0

theorem Answers.refused {e : RuntimeError} {s : State} (hm : m.halted = false)
    (hstep : m.step = ⟨.raised e, below, s⟩) (h : m.Answers below n) (v : Value) :
    m.Yields n v := by
  have hrun := h.step hm (congrArg Machine.tasks hstep)
  exact .inl ⟨e, by rw [hrun, hstep]⟩

/-- In a run that is over, every call is over. -/
theorem answers_of_halted (hc : m.calling? = some (callee, below))
    (h : (m.run n).halted = true) : ∃ k, m.Answers below k := by
  obtain ⟨hm, hcalls⟩ := calls_step hc
  generalize hstep : m.step = m' at hcalls
  cases hcalls with
  | refused => exact ⟨1, answers_one hm (congrArg Machine.tasks hstep)⟩
  | answered _ _ => exact ⟨1, answers_one hm (congrArg Machine.tasks hstep)⟩
  | @entered code c exit s' _ _ _ _ _ =>
    obtain ⟨inner, habove, hlinked⟩ := enterFunction_above c m.arguments exit below s'
    rw [habove] at hstep
    obtain ⟨j, hj⟩ := body_halts hm hstep (.inr h)
    obtain ⟨k, hk, -⟩ := answers_of_body hm hstep hlinked hj
    exact ⟨k, hk⟩

/-- **A class gives a new object of its own**, whichever initializer has run. -/
theorem Answers.object {c : Class} (hc : m.calling? = some (.cls c, below))
    (h : m.Answers below n) : m.Yields n (.obj ⟨m.state.fields.size, c⟩) := by
  obtain ⟨hm, hcalls⟩ := calls_step hc
  generalize hstep : m.step = m' at hcalls
  cases hcalls with
  | refused => exact h.refused hm hstep _
  | answered _ hv =>
    have hrun := h.step hm (congrArg Machine.tasks hstep)
    exact .inr (by rw [hrun, hstep, hv c rfl])
  | entered _ _ _ hexit _ =>
    obtain ⟨v, hv⟩ := h.exitValue hm hstep
    rw [hexit c rfl] at hv
    exact hv

/-- An initializer that is called as a method gives what its chain has for `this`. -/
theorem Answers.receiver {f : Function} (hc : m.calling? = some (.function f, below))
    (hinit : f.closure.isInit = true) (h : m.Answers below n) :
    m.Yields n ((m.run n).state.frames.getAt f.closure.chain 0 (utf8 "this")) := by
  obtain ⟨hm, hcalls⟩ := calls_step hc
  generalize hstep : m.step = m' at hcalls
  cases hcalls with
  | refused => exact h.refused hm hstep _
  | answered hnone _ => cases hnone
  | entered _ _ _ _ hexit =>
    obtain ⟨v, hv⟩ := h.exitValue hm hstep
    rw [hexit f rfl hinit] at hv
    exact hv

/-! ## Initializers that are called again -/

/-- What can follow in a session: more steps, and more sources when there is nothing left to do. -/
inductive Later (m : Machine) : Machine → Prop
  | now : Later m m
  | step {m' : Machine} : Later m m' → Later m m'.step
  | source {m' : Machine} {session : Session} {source : Bytes} {program : List Stmt}
      {now : Clock} : Later m m' → m'.halted = true → session.state = { m'.state with now } →
    analyse source = .ok program → Later m (session.machine program)

/-- The next step fails, or it finds a method that belongs to the object for good: whenever the
method is called from then on, the call fails or gives back the object. -/
def BindsInitializer (m : Machine) (o : Instance) : Prop :=
  (∃ e, m.step.focus = .raised e) ∨ ∃ f, m.step.focus = .value (.function f) ∧
    ∀ m' below n, m.step.Later m' → m'.calling? = some (.function f, below) →
      m'.Answers below n → m'.Yields n (.obj o)

theorem Later.run {m' : Machine} (n : Nat) (h : m.Later m') : m.Later (m'.run n) := by
  induction n generalizing m' with
  | zero => exact h
  | succ n ih =>
    simp only [Machine.run]
    split
    · exact h
    · exact ih h.step

end Machine

namespace World

variable {w : World} {m m' : Machine} {o : Instance}

/-- What follows in a session is in order in a later world. -/
theorem Invariant.later (h : w.Invariant Admissible m) (hl : m.Later m') :
    ∃ w', w.Grows w' ∧ w'.Invariant Admissible m' := by
  induction hl with
  | now => exact ⟨w, .refl w, h⟩
  | step _ ih =>
    obtain ⟨w', hg, hw'⟩ := ih
    obtain ⟨w'', hg', -, hw''⟩ := hw'.step fun _ h => h
    exact ⟨w'', hg.trans hg', hw''⟩
  | @source m' session _ _ _ _ hhalted hstate ha ih =>
    obtain ⟨w', hg, hw'⟩ := ih
    have hrests : w'.Rests Admissible session.state := (hw'.rests hhalted).congr
      (by rw [hstate]) (by rw [hstate]) (by rw [hstate]) (by rw [hstate])
    exact ⟨w', hg, hrests.machine ha (analyse_ok ha).1⟩

/-- A bound initializer keeps its receiver. -/
theorem Invariant.binds (h : w.Invariant Admissible m) {method : Closure} {below : List Task}
    (hstep : m.step = Machine.bound method o below m.state) (hinit : method.isInit = true) :
    m.BindsInitializer o := by
  have hthis : m.step.state.frames.lookup m.state.frames.size (utf8 "this") = some (.obj o) := by
    rw [hstep]
    exact Frames.lookup_push_new
  refine .inr ⟨_, congrArg Machine.focus hstep, fun m' below' n hl hc ha => ?_⟩
  have hyields := ha.receiver hc hinit
  obtain ⟨w', -, -, hw'⟩ := h.step fun _ h => h
  obtain ⟨w'', hg, hw''⟩ := hw'.later (hl.run n)
  have hkept : (m'.run n).state.frames.lookup m.state.frames.size (utf8 "this") =
      some (.obj o) := by
    rw [← hw''.store.frames]
    exact hg.keeps _ _ _ not_ordinary_this (hw'.store.frames ▸ hthis)
  rw [Frames.getAt_of_lookup rfl hkept] at hyields
  exact hyields

/-- `o.init`, where no field of `o` hides the method. -/
theorem Invariant.binds_get (h : w.Invariant Admissible m) {name : Token} {below : List Task}
    (hf : m.focus = .value (.obj o)) (ht : m.tasks = .get name :: below)
    (hname : name.lexeme = utf8 "init") (hfield : m.state.field? o (utf8 "init") = none) :
    m.BindsInitializer o := by
  have hclass : w.ClassOk o.cls := h.holds (.result hf)
  have hstep : m.step = Machine.resume (.obj o) (.get name) below m.state := by
    obtain ⟨focus, tasks, s⟩ := m
    subst hf ht
    rfl
  simp only [Machine.resume, State.property?, hname, hfield] at hstep
  cases hfind : o.cls.findMethod (utf8 "init") with
  | none =>
    rw [hfind] at hstep
    exact .inl ⟨_, congrArg Machine.focus hstep⟩
  | some method =>
    rw [hfind] at hstep
    obtain ⟨d, -, -, hinit⟩ := hclass.initializer h.store.log hfind
    exact h.binds hstep hinit

/-- `super.init`, for the receiver of the method that it stands in. -/
theorem Invariant.binds_super (h : w.Invariant Admissible m) {ref : Ref} {method : Token}
    (hf : m.focus = .eval (.super ref method)) (hname : method.lexeme = utf8 "init") :
    ∃ hops t o, ref.hops = some (hops + 1) ∧ m.state.env[hops]? = some t ∧
      m.state.frames.lookup t (utf8 "this") = some (.obj o) ∧ m.BindsInitializer o := by
  obtain ⟨_, _, _, _, -, -, d, hd, hops, t, o, sup, -, hhops, -, ht, hthis, -, hsup, -, hstep⟩ :=
    h.staticSuper (fun _ h => h) hf
  refine ⟨hops, t, o, hhops, ht, hthis, ?_⟩
  have hclass : w.ClassOk sup := (h.store.inherits hd).superclass sup hsup
  rw [hname] at hstep
  cases hfind : sup.findMethod (utf8 "init") with
  | none =>
    rw [hfind] at hstep
    exact .inl ⟨_, congrArg Machine.focus hstep⟩
  | some found =>
    rw [hfind] at hstep
    obtain ⟨_, -, -, hinit⟩ := hclass.initializer h.store.log hfind
    exact h.binds hstep hinit

end World

/-! ## Runs of sessions -/

/-- No such object exists yet: the store has no place for it, and nothing that the machine can see
is equal to it. -/
structure Machine.Lacks (m : Machine) (o : Instance) : Prop where
  store : m.state.fields[o.id]? = none
  seen : ∀ v, m.Holds v → v.isEqual (.obj o) = false

namespace Session

variable {sources : List Bytes} {log : List Declaration} {session : Session} {source : Bytes}
  {program : List Stmt}

/-- **Calls are safe.** In every run of an accepted source, every call that is under way has been
made with an argument for each parameter. Calling a class fails or gives an object of exactly that
class that did not exist before. The method `init` that is found through an object or through
`super` fails or gives back its receiver, whenever and wherever it is called later in the session.
In a run that comes to its end every call does. -/
theorem call_protocol_safe (hr : Reached sources log session)
    (ha : analyse source = .ok program) :
    let run := session.moments program
    (∀ k exit below, .endCall exit :: below <:+ (run k).tasks →
      ∃ call : Call, call.Active run k ∧ call.ending = .endCall exit :: below ∧
        call.Matched run) ∧
    (∀ k c below, (run k).calling? = some (.cls c, below) →
      ∃ o : Instance, o.cls = c ∧ (run k).Lacks o ∧
        ∀ n, (run k).Answers below n → (run k).Yields n (.obj o)) ∧
    (∀ k o name below, (run k).focus = .value (.obj o) → (run k).tasks = .get name :: below →
      name.lexeme = utf8 "init" → (run k).state.field? o (utf8 "init") = none →
      (run k).BindsInitializer o) ∧
    (∀ k ref method, (run k).focus = .eval (.super ref method) → method.lexeme = utf8 "init" →
      ∃ hops t o, ref.hops = some (hops + 1) ∧ (run k).state.env[hops]? = some t ∧
        (run k).state.frames.lookup t (utf8 "this") = some (.obj o) ∧
        (run k).BindsInitializer o) ∧
    ∀ k callee below n, (run k).calling? = some (callee, below) → (run n).halted = true →
      ∃ i, (run k).Answers below i := by
  intro run
  have hinv : ∀ k, ∃ w : World, w.Invariant Admissible (run k) := fun k => by
    obtain ⟨w, -, hw⟩ := hr.invariant (fun _ h => h) accepted_admissible ha k
    exact ⟨w, hw⟩
  refine ⟨fun k exit below hw => ?_, fun k c below hc => ?_,
    fun k o name below hf ht hname hfield => ?_, fun k ref method hf hname => ?_,
    fun k callee below n hc hn => ?_⟩
  · obtain ⟨owner, howns, -⟩ := hr.owned ha k
    obtain ⟨call, hactive, hending⟩ := howns.active hw
    exact ⟨call, hactive, hending, hactive.made.matched moments_succ⟩
  · obtain ⟨n₀, hn₀⟩ := hr.counts
    obtain ⟨size, hcounts⟩ := (counts_machine hn₀ program).run k
    exact ⟨⟨(run k).state.fields.size, c⟩, rfl,
      ⟨Array.getElem?_eq_none (Nat.le_refl _), fun v hv => hcounts.fresh hv⟩,
      fun n h => h.object hc⟩
  · obtain ⟨w, hw⟩ := hinv k
    exact hw.binds_get hf ht hname hfield
  · obtain ⟨w, hw⟩ := hinv k
    exact hw.binds_super hf hname
  · have hlater : ((run k).run n).halted = true := by
      have hrun : (run k).run n = run n := by
        rw [← moments_add, Nat.add_comm, moments_add, Machine.run_of_halted hn]
      rw [hrun]
      exact hn
    exact Machine.answers_of_halted hc hlater

/-- Classes with an initializer that leaves early, one that hands over to it, and none. -/
def inherited : Bytes :=
  utf8 "class A \x7b init(n) \x7b this.n = n; if (n) return; \x7d \x7d
class B < A \x7b init(n) \x7b super.init(n); \x7d \x7d
class C < B \x7b\x7d"

/-- An object is made and then initialized again, by a method that a variable keeps. -/
def reinitialized : Bytes := utf8 "var c = C(true); var f = c.init; f(false);"

/-- Whether the machine is about to call a class. -/
def callsClass (m : Machine) : Bool :=
  match m.calling? with
  | some (.cls _, _) => true
  | _ => false

theorem exists_of_callsClass {m : Machine} (h : callsClass m = true) :
    ∃ c below, m.calling? = some (.cls c, below) := by
  unfold callsClass at h
  split at h
  · exact ⟨_, _, ‹_›⟩
  · cases h

/-- Whether the machine is about to look up the method `init` of an object. -/
def getsInit (m : Machine) : Bool :=
  match m.focus, m.tasks with
  | .value (.obj o), .get name :: _ =>
    name.lexeme == utf8 "init" && (m.state.field? o (utf8 "init")).isNone
  | _, _ => false

theorem exists_of_getsInit {m : Machine} (h : getsInit m = true) :
    ∃ o name below, m.focus = .value (.obj o) ∧ m.tasks = .get name :: below ∧
      name.lexeme = utf8 "init" ∧ m.state.field? o (utf8 "init") = none := by
  unfold getsInit at h
  split at h
  · rename_i o name below hf ht
    obtain ⟨hname, hnone⟩ : name.lexeme = utf8 "init" ∧ m.state.field? o (utf8 "init") = none := by
      simpa using h
    exact ⟨o, name, below, hf, ht, hname, hnone⟩
  · cases h

/-- Whether the machine is about to evaluate `super.init`. -/
def supersInit (m : Machine) : Bool :=
  match m.focus with
  | .eval (.super _ method) => method.lexeme == utf8 "init"
  | _ => false

theorem exists_of_supersInit {m : Machine} (h : supersInit m = true) :
    ∃ ref method, m.focus = .eval (.super ref method) ∧ method.lexeme = utf8 "init" := by
  unfold supersInit at h
  split at h
  · exact ⟨_, _, ‹_›, by simpa using h⟩
  · cases h

theorem exists_endCall {tasks : List Task} (h : tasks.any Task.endsCall = true) :
    ∃ exit below, .endCall exit :: below <:+ tasks := by
  obtain ⟨task, hmem, hends⟩ := List.any_eq_true.1 h
  obtain ⟨before, below, rfl⟩ := List.append_of_mem hmem
  cases task with
  | endCall exit => exact ⟨exit, below, List.suffix_append _ _⟩
  | _ => cases hends

theorem call_protocol_safe_reinitialized :
    let session := (Session.new.run 300 inherited).2
    ∃ program, analyse reinitialized = .ok program ∧
      let run := session.moments program
      (∃ c below n o, (run 6).calling? = some (.cls c, below) ∧ o.cls = c ∧ (run 6).Lacks o ∧
        (run 6).Answers below n ∧ (run 6).Yields n (.obj o)) ∧
      (∃ o, (run 39).focus = .value (.obj o) ∧ (run 39).BindsInitializer o) ∧
      (∃ ref method o, (run 51).focus = .eval (.super ref method) ∧
        (run 51).BindsInitializer o) ∧
      ∃ call : Call, call.Active run 55 ∧ call.Matched run := by
  intro session
  have hr : Reached [inherited] (Session.new.declared 300 inherited ++ []) session :=
    .run (.new false) (by decide +kernel)
  have hmoments : ((analyse reinitialized).toOption.any fun program =>
      callsClass (session.moments program 6) && getsInit (session.moments program 39) &&
        supersInit (session.moments program 51) &&
        (session.moments program 55).tasks.any Task.endsCall &&
        (session.moments program 100).halted) = true := by decide +kernel
  cases ha : analyse reinitialized with
  | error problems => rw [ha] at hmoments; cases hmoments
  | ok program =>
    rw [ha] at hmoments
    simp only [Except.toOption, Option.any_some, Bool.and_eq_true] at hmoments
    obtain ⟨⟨⟨⟨hclass, hget⟩, hsuper⟩, hends⟩, hhalted⟩ := hmoments
    obtain ⟨c, below, hc⟩ := exists_of_callsClass hclass
    obtain ⟨o, name, _, hf, ht, hname, hfield⟩ := exists_of_getsInit hget
    obtain ⟨ref, method, hf', hname'⟩ := exists_of_supersInit hsuper
    obtain ⟨exit, rest, hw⟩ := exists_endCall hends
    obtain ⟨hcalls, hclasses, hgets, hsupers, hanswers⟩ := call_protocol_safe hr ha
    obtain ⟨o₁, hcls, hlacks, hyields⟩ := hclasses 6 c below hc
    obtain ⟨n, hn⟩ := hanswers 6 (.cls c) below 100 hc hhalted
    obtain ⟨-, -, o₂, -, -, -, hbinds⟩ := hsupers 51 ref method hf' hname'
    obtain ⟨call, hactive, -, hmatched⟩ := hcalls 55 exit rest hw
    exact ⟨program, rfl, ⟨c, below, n, o₁, hc, hcls, hlacks, hn, hyields n hn⟩,
      ⟨o, hf, hgets 39 o name _ hf ht hname hfield⟩, ⟨ref, method, o₂, hf', hbinds⟩,
      call, hactive, hmatched⟩

end Session

end Lox
