import Lox.Proofs.Machine.Endings
import Lox.Proofs.Machine.Owners
/-!
# Returned values reach their calls

A `return` evaluates its expression and brings the value of it, or `nil` if it has none
(`Machine.Brings`). It unwinds the stack of tasks to the innermost end of a call, and at the top
level a returned value would be dropped without a word. With the owners of code, the resolver's
checks carry over to runs: a returned value always belongs to a call, it becomes the value of that
call, and what an initializer returns is `nil`.
-/

namespace Lox

/-- Variables, fields and what has been printed are as before. -/
structure State.SameData (s s' : State) : Prop where
  frames : s'.frames = s.frames
  fields : s'.fields = s.fields
  output : s'.output = s.output

namespace State.SameData

variable {s s' s'' : State}

theorem refl (s : State) : s.SameData s := ⟨rfl, rfl, rfl⟩

theorem trans (h : s.SameData s') (h' : s'.SameData s'') : s.SameData s'' :=
  ⟨h'.frames.trans h.frames, h'.fields.trans h.fields, h'.output.trans h.output⟩

theorem leave (s : State) (saved : Chain) : s.SameData (s.leave saved) := by
  refine ⟨frames_leave s saved, fields_leave s saved, ?_⟩
  simp only [State.leave, State.log]
  split <;> rfl

end State.SameData

/-! ## What a return brings -/

namespace Machine

/-- A `return` that starts in the state `s` brings a value, in the state `s'`: that of its
expression, or `nil` if it has none. -/
inductive Brings : Option Expr → State → Value → State → Prop
  | nothing (s : State) : Brings none s .nil s
  | value {e : Expr} {s s' : State} {v : Value} :
    Ends (.eval e) s (.value v) s' → Brings (some e) s v s'

variable {keyword : Token} {value : Option Expr} {e : Expr} {s s' : State} {v : Value} {r : Focus}

theorem Brings.ends (h : Brings value s v s') :
    Ends (.exec (.ret keyword value)) s (.returned v) s' := by
  refine .of_reaches rfl ?_ rfl
  cases h with
  | nothing => exact ⟨1, rfl⟩
  | value h => exact .trans ⟨1, rfl⟩ ((h.reaches [.ret]).trans ⟨1, rfl⟩)

theorem Ends.ret_error {err : RuntimeError} (h : Ends (.eval e) s (.raised err) s') :
    Ends (.exec (.ret keyword (some e))) s (.raised err) s' :=
  .of_reaches rfl (.trans ⟨1, rfl⟩ ((h.reaches [.ret]).trans ⟨1, rfl⟩)) rfl

/-- A `return` ends with the value that it brings, or with the error of its expression. -/
theorem Ends.ret_cases (h : Ends (.exec (.ret keyword value)) s r s') :
    (∃ v, Brings value s v s' ∧ r = .returned v) ∨
      ∃ e err, value = some e ∧ Ends (.eval e) s (.raised err) s' ∧ r = .raised err := by
  cases value with
  | none =>
    obtain ⟨rfl, rfl⟩ := h.unique (Brings.nothing s).ends
    exact .inl ⟨.nil, .nothing s', rfl⟩
  | some e =>
    -- the expression ends, since what is run after it does
    obtain ⟨n, hrun⟩ : (Machine.mk (.eval e) [.ret] s).Reaches ⟨r, [], s'⟩ :=
      h.reaches_from ⟨1, rfl⟩
    obtain ⟨r₀, s₀, hends⟩ := exists_ends rfl (hrun ▸ h.halted)
    rcases hends.of_expr with ⟨v, rfl⟩ | ⟨err, rfl⟩
    · obtain ⟨rfl, rfl⟩ := h.unique (Brings.value hends).ends
      exact .inl ⟨v, .value hends, rfl⟩
    · obtain ⟨rfl, rfl⟩ := h.unique hends.ret_error
      exact .inr ⟨e, err, rfl, hends, rfl⟩

end Machine

namespace Call

variable {run : Nat → Machine} {program : List Stmt} {k : Nat} {ts : List Task}

/-- A value that is being returned at moment `k` ends the call. Until then nothing is run and
nothing stored or printed; then the tasks go on that have been waiting for the call, with the
value. An initializer has another value, and only `nil` is lost by that. -/
def Takes (run : Nat → Machine) (k : Nat) (v : Value) (call : Call) : Prop :=
  ∃ n, (∀ i ≤ n, (run (k + i)).focus = .returned v) ∧
    (∀ i ≤ n + 1, (run k).state.SameData (run (k + i)).state) ∧
    (run (k + n + 1)).tasks = call.below ∧
    (call.code.isInit = false → (run (k + n + 1)).focus = .value v) ∧
    (call.code.isInit = true → v = .nil)

/-! ## Unwinding -/

section
variable (hstep : ∀ k, run (k + 1) = (run k).step) {call : Call} {body : List Stmt} {v : Value}
include hstep

/-- A task of the body is dropped by a returned value, or leaves its frame. -/
theorem unwind_task {t : Task} (hf : (run k).focus = .returned v) (ht : (run k).tasks = t :: ts)
    (hof : t.Of body) : (run (k + 1)).focus = .returned v ∧ (run (k + 1)).tasks = ts ∧
      (run k).state.SameData (run (k + 1)).state := by
  rw [hstep k]
  generalize run k = m at hf ht
  obtain ⟨focus, tasks, s⟩ := m
  subst hf ht
  cases t with
  | leave saved => exact ⟨rfl, rfl, .leave s saved⟩
  | endCall _ => exact hof.elim
  | program _ => exact hof.elim
  | _ => exact ⟨rfl, rfl, .refl s⟩

/-- The end of the call is met. -/
theorem unwind_call (hf : (run k).focus = .returned v) (ht : (run k).tasks = call.ending) :
    (run (k + 1)).focus = .value (Machine.exitValue (run k).state v call.exit) ∧
      (run (k + 1)).tasks = call.below ∧ (run k).state.SameData (run (k + 1)).state := by
  rw [hstep k]
  generalize run k = m at hf ht
  obtain ⟨focus, tasks, s⟩ := m
  subst hf ht
  exact ⟨rfl, rfl, rfl, rfl, rfl⟩

theorem unwind (hl : call.Lawful) (hv : call.code.isInit = true → v = .nil) :
    ∀ (above : List Task) (k : Nat), (run k).focus = .returned v →
      (run k).tasks = above ++ call.ending → (∀ t ∈ above, t.Of body) → call.Takes run k v
  | [], k, hf, ht, _ => by
    obtain ⟨hvalue, htasks, hdata⟩ := unwind_call hstep hf ht
    refine ⟨0, fun i hi => ?_, fun i hi => ?_, htasks, fun hplain => ?_, hv⟩
    · obtain rfl : i = 0 := Nat.le_zero.1 hi
      exact hf
    · rcases Nat.le_one_iff_eq_zero_or_eq_one.1 hi with rfl | rfl
      · exact .refl _
      · exact hdata
    · rw [hl.plain hplain] at hvalue
      exact hvalue
  | t :: above, k, hf, ht, hof => by
    obtain ⟨hf', ht', hdata⟩ := unwind_task hstep hf ht (hof t List.mem_cons_self)
    obtain ⟨n, hfocus, hsame, htasks, hvalue, -⟩ := unwind hl hv above (k + 1) hf' ht' fun u hu =>
      hof u (List.mem_cons_of_mem t hu)
    -- one moment later, one step less to go
    have shift : ∀ i, k + 1 + i = k + (i + 1) := fun i => by omega
    simp only [shift] at hfocus hsame htasks hvalue
    refine ⟨n + 1, fun i hi => ?_, fun i hi => ?_, htasks, hvalue, hv⟩
    · cases i with
      | zero => exact hf
      | succ i => exact hfocus i (by omega)
    · cases i with
      | zero => exact .refl _
      | succ i => exact hdata.trans (hsame i (by omega))

end

/-! ## Where a return goes -/

/-- One call is made at a time. -/
theorem Made.unique {a b : Call} (ha : a.Made run) (hb : b.Made run) (h : a.moment = b.moment) :
    a = b := by
  obtain ⟨⟨callee, hcalling, hcode⟩, env, hentered⟩ := ha
  obtain ⟨⟨callee', hcalling', hcode'⟩, env', hentered'⟩ := hb
  obtain ⟨moment, code, exit, below⟩ := a
  obtain ⟨moment', code', exit', below'⟩ := b
  simp only at h hcalling hcode hentered hcalling' hcode' hentered'
  subst h
  obtain ⟨rfl, rfl⟩ : callee = callee' ∧ below = below' := by
    simpa using hcalling.symm.trans hcalling'
  obtain rfl : code = code' := Option.some.inj (hcode.symm.trans hcode')
  obtain rfl : exit = exit' := by
    have := hentered.symm.trans hentered'
    simp only [ending, List.cons.injEq, Task.endCall.injEq] at this
    exact this.2.2.1
  rfl

theorem Innermost.unique {a b : Call} (ha : a.Innermost run k) (hb : b.Innermost run k) : a = b :=
  ha.active.made.unique hb.active.made
    (Nat.le_antisymm (hb.latest a ha.active) (ha.latest b hb.active))

/-- The owner of the code that runs is the innermost call, and it is so again when the tasks
that wait now are the first to wait again. -/
theorem Owns.innermost {call : Call} (h : Owns run program k (some call) (run k).tasks) (n : Nat)
    (hkept : ∀ i ≤ n, (run k).tasks <:+ (run (k + i)).tasks)
    (hback : (run (k + n)).tasks = (run k).tasks) : call.Innermost run (k + n) := by
  obtain ⟨ha, -, above, ht, habove⟩ := h.top
  have hending : call.ending <:+ (run k).tasks := ht ▸ List.suffix_append above call.ending
  have hactive : call.Active run (k + n) := by
    refine ⟨ha.made, Nat.lt_add_right n ha.since, fun i hi hin => ?_⟩
    rcases Nat.le_total i k with hik | hki
    · exact ha.waiting i hi hik
    · obtain ⟨j, rfl⟩ := Nat.exists_eq_add_of_le hki
      exact hending.trans (hkept j (by omega))
  refine innermost_of_top hactive (hback.trans ht) fun t ht => ?_
  have hof := habove t ht
  cases t with
  | endCall _ => exact hof.elim
  | _ => rfl

theorem Owns.innermost_now {call : Call} (h : Owns run program k (some call) (run k).tasks) :
    call.Innermost run k := by
  refine h.innermost 0 (fun i hi => ?_) rfl
  obtain rfl := Nat.le_zero.1 hi
  exact List.suffix_refl _

/-- A returned value is taken by the innermost call. -/
theorem Owned.takes (hrun : Checked run program) (h : Owned run program k) {v : Value}
    (hf : (run k).focus = .returned v) :
    ∃ call : Call, call.Innermost run k ∧ call.Takes run k v := by
  obtain ⟨owner, ho, hof⟩ := h
  rw [hf] at hof
  cases owner with
  | none => exact absurd hof hrun.not_returned
  | some call =>
    obtain ⟨keyword, value, hret, hnone⟩ := hof
    obtain ⟨-, hl, above, ht, habove⟩ := ho.top
    have hv : call.code.isInit = true → v = .nil := fun hi =>
      hnone (hl.initializer hi keyword value hret)
    exact ⟨call, ho.innermost_now, unwind hrun.step hl hv above k hf ht habove⟩

/-- A return stands in the body of the innermost call, and its value, once it is there, is taken
by that call. -/
theorem Owned.runs (hrun : Checked run program) (hall : ∀ k, Owned run program k)
    {keyword : Token} {value : Option Expr} (hf : (run k).focus = .exec (.ret keyword value)) :
    ∃ call : Call, call.Innermost run k ∧ Stmt.Within call.code.decl.body (.ret keyword value) ∧
      ∀ n v, (∀ i ≤ n, (run k).tasks <:+ (run (k + i)).tasks) →
        (run (k + n)).tasks = (run k).tasks → (run (k + n)).focus = .returned v →
        call.Innermost run (k + n) ∧ call.Takes run (k + n) v := by
  obtain ⟨owner, ho, hof⟩ := hall k
  rw [hf] at hof
  cases owner with
  | none => exact absurd hof (hrun.top keyword value)
  | some call =>
    refine ⟨call, ho.innermost_now, hof, fun n v hkept hback hv => ?_⟩
    have hinner := ho.innermost n hkept hback
    obtain ⟨other, hother, htakes⟩ := (hall (k + n)).takes hrun hv
    obtain rfl := hinner.unique hother
    exact ⟨hinner, htakes⟩

end Call

/-! ## Runs of sessions -/

namespace World

variable {programs : List Stmt → Prop} {w : World} {callee : Value} {code : Closure}

/-- What is called is a value that a program can hold. -/
theorem Invariant.valueOk_callee {m : Machine} (h : w.Invariant programs m) {below : List Task}
    (hc : m.calling? = some (callee, below)) : w.ValueOk programs callee := by
  rcases Machine.calling_cases hc with ⟨paren, hm⟩ | ⟨v, paren, done, hm⟩
  · rw [hm] at h
    exact h.focus.1
  · rw [hm] at h
    obtain ⟨-, ls, ss, -, hw⟩ := h.focus
    cases hw with
    | operand ht _ => exact ht.1
    | statement _ ht _ => exact ht.elim

variable (hlog : ∀ d ∈ w.log, w.DeclarationOk programs d)
  (hprograms : ∀ program, programs program → Admissible program)
include hlog

theorem ClassOk.initializer {c : Class} (h : w.ClassOk c) (hc : c.initializer? = some code) :
    ∃ d ∈ w.log, d.cls.entry.methods.get? (utf8 "init") = some code ∧ code.isInit = true := by
  obtain ⟨d, hd, -, hget⟩ := h.findMethod hlog hc
  exact ⟨d, hd, hget, ((hlog d hd).method hget).2.2.2.2 rfl⟩

include hprograms

/-- An initializer returns no value. -/
theorem DeclarationOk.returns {d : Declaration} (hd : d ∈ w.log) {name : Bytes}
    (hget : d.cls.entry.methods.get? name = some code) (hi : code.isInit = true) {keyword : Token}
    {value : Option Expr} (hs : Stmt.Within code.decl.body (.ret keyword value)) :
    value = none := by
  obtain ⟨hmem, -, hname, hinit⟩ := (hlog d hd).method hget
  obtain ⟨layers, scopes, -, hat⟩ := (hlog d hd).chain
  have hlexeme : code.decl.name.lexeme = utf8 "init" := hname.trans (hinit.1 hi)
  exact (hat.mem hprograms code.decl hmem).returns hprograms hs (if_pos hlexeme)

theorem ValueOk.returns (h : w.ValueOk programs callee) (hc : callee.code? = some code)
    (hi : code.isInit = true) {keyword : Token} {value : Option Expr}
    (hs : Stmt.Within code.decl.body (.ret keyword value)) : value = none := by
  cases callee with
  | function f =>
    obtain rfl : f.closure = code := Option.some.inj hc
    rcases h with ⟨hplain, -⟩ | ⟨d, hd, name, m, t, o, hget, hm, -⟩
    · rw [hplain] at hi
      cases hi
    · rw [hm] at hi hs
      exact DeclarationOk.returns hlog hprograms hd hget hi hs
  | cls c =>
    obtain ⟨d, hd, hget, -⟩ := ClassOk.initializer hlog h hc
    exact DeclarationOk.returns hlog hprograms hd hget hi hs
  | _ => cases hc

end World

namespace Session

/-- The machine at every moment of a run. -/
def moments (session : Session) (program : List Stmt) (k : Nat) : Machine :=
  (session.machine program).run k

variable {sources : List Bytes} {log : List Declaration} {session : Session} {source : Bytes}
  {program : List Stmt}

theorem step_of_halted {m : Machine} (h : m.halted = true) : m.step = m := by
  obtain ⟨focus, tasks, s⟩ := m
  obtain ⟨hresult, htasks⟩ := Machine.halted_iff.1 h
  subst htasks
  cases focus <;> first | rfl | cases hresult

theorem moments_succ (k : Nat) :
    session.moments program (k + 1) = (session.moments program k).step := by
  unfold moments
  rw [Machine.run_add]
  cases h : ((session.machine program).run k).halted with
  | true => rw [Machine.run_of_halted h, step_of_halted h]
  | false => exact Machine.run_succ h 0

theorem moments_add (k n : Nat) :
    session.moments program (k + n) = (session.moments program k).run n := Machine.run_add k n

theorem Reached.checked (hr : Reached sources log session) (ha : analyse source = .ok program) :
    Call.Checked (session.moments program) program := by
  have hinv := hr.invariant accepted_admissible (fun _ h => h) ha
  refine ⟨moments_succ, fun keyword value => ?_, fun k c below code hc hi => ?_,
    fun k callee below code hc hcode hi keyword value hs => ?_⟩
  · have hp : accepted (source :: sources) (sourceTree source) :=
      ⟨source, List.mem_cons_self, ⟨program, ha⟩, rfl⟩
    rw [(analyse_ok ha).2]
    exact no_return_at_top accepted_admissible hp keyword value
  · obtain ⟨w, -, hw⟩ := hinv k
    obtain ⟨d, hd, -, hinit⟩ := World.ClassOk.initializer hw.store.log (hw.valueOk_callee hc) hi
    exact hinit
  · obtain ⟨w, -, hw⟩ := hinv k
    exact (hw.valueOk_callee hc).returns hw.store.log accepted_admissible hcode hi hs

theorem Reached.owned (hr : Reached sources log session) (ha : analyse source = .ok program) :
    ∀ k, Call.Owned (session.moments program) program k :=
  Call.Owned.all (hr.checked ha) ⟨none, .program fun _ hs => .here hs, trivial⟩

/-- **No returned value is lost.** In every run of an accepted source, no statement of the top
level ends with a returned value. A `return` stands in the body of the innermost active call. Once
its expression has a value it is done and returns that value, or `nil` if there is no expression;
unless the expression fails, it is done in no other way. What it returns ends the call and no
other, with nothing run in between: it is the value of the call, and from an initializer it is
`nil`. -/
theorem returned_values_reach_calls (hr : Reached sources log session)
    (ha : analyse source = .ok program) :
    let run := session.moments program
    (∀ k rest v, (run k).tasks = [.program rest] → (run k).focus ≠ .returned v) ∧
    (∀ k v, (run k).focus = .returned v →
      ∃ call : Call, call.Innermost run k ∧ call.Takes run k v) ∧
    ∀ k keyword value, (run k).focus = .exec (.ret keyword value) →
      ∃ call : Call, call.Innermost run k ∧
        Stmt.Within call.code.decl.body (.ret keyword value) ∧
        (∀ v s, Machine.Brings value (run k).state v s →
          ∃ n, (run k).Completes n ∧ run (k + n) = ⟨.returned v, (run k).tasks, s⟩) ∧
        ∀ n, (run k).Completes n →
          (∃ v, Machine.Brings value (run k).state v (run (k + n)).state ∧
            (run (k + n)).focus = .returned v ∧
            call.Innermost run (k + n) ∧ call.Takes run (k + n) v) ∨
          ∃ e err, value = some e ∧
            Machine.Ends (.eval e) (run k).state (.raised err) (run (k + n)).state ∧
            (run (k + n)).focus = .raised err := by
  intro run
  have hrun := hr.checked ha
  have hall := hr.owned ha
  refine ⟨fun k rest v ht hf => ?_, fun k v hf => (hall k).takes hrun hf,
    fun k keyword value hf => ?_⟩
  · obtain ⟨call, hinner, -⟩ := (hall k).takes hrun hf
    have hw := hinner.active.waiting k hinner.active.since (Nat.le_refl k)
    have ht : (session.moments program k).tasks = [.program rest] := ht
    rw [ht] at hw
    rcases List.suffix_cons_iff.1 hw with heq | hw
    · cases heq
    · exact absurd hw (by simp [Call.ending])
  · obtain ⟨call, hinner, hwithin, htakes⟩ := Call.Owned.runs hrun hall hf
    refine ⟨call, hinner, hwithin, fun v s hb => ?_, fun n hc => ?_⟩
    · have hends : Machine.Ends (run k).focus (run k).state (.returned v) s := hf ▸ hb.ends
      obtain ⟨n, hc, hend⟩ := Machine.ends_iff.1 hends
      exact ⟨n, hc, (moments_add k n).trans hend⟩
    · have hends := hc.ends
      rw [hf, ← moments_add] at hends
      rcases hends.ret_cases with ⟨v, hb, hv⟩ | herror
      · refine .inl ⟨v, hb, hv, htakes n v (fun i hi => ?_) ?_ hv⟩
        · rw [moments_add, hc.run_eq hi]
          exact List.suffix_append _ _
        · rw [moments_add]
          exact hc.tasks
      · exact .inr herror

/-- A function that returns out of blocks and a loop, and an initializer that is called through
`super` and does the same. -/
def nested : Bytes :=
  utf8 "class A \x7b init(x) \x7b while (x) \x7b if (x) return; \x7d \x7d \x7d
class B < A \x7b init(x) \x7b super.init(x); \x7d \x7d
fun f(x) \x7b \x7b while (x) \x7b return \"r\"; \x7d \x7d \x7d
B(f(true));"

/-- What a `return` is about to bring, as it would be printed, if it is plain to see. -/
def returning (m : Machine) : Option Bytes :=
  match m.focus with
  | .exec (.ret _ none) => some Value.nil.inspect
  | .exec (.ret _ (some (.literal _ value))) => some (Value.ofLiteral value).inspect
  | _ => none

theorem exists_of_returning {m : Machine} {text : Bytes} (h : returning m = some text) :
    ∃ keyword value v, m.focus = .exec (.ret keyword value) ∧
      Machine.Brings value m.state v m.state ∧ v.inspect = text := by
  unfold returning at h
  split at h
  · rename_i keyword hf
    exact ⟨keyword, none, .nil, hf, .nothing _, Option.some.inj h⟩
  · rename_i keyword token value hf
    have hends : Machine.Ends (.eval (.literal token value)) m.state (.value (.ofLiteral value))
        m.state := .of_reaches rfl ⟨1, rfl⟩ rfl
    exact ⟨keyword, some _, _, hf, .value hends, Option.some.inj h⟩
  · cases h

theorem returned_values_reach_calls_nested :
    let session : Session := ⟨.clear, { State.initial with tracing := false }⟩
    ∃ program, analyse nested = .ok program ∧
      ∀ k text, (k, text) ∈ [(26, utf8 "r"), (54, utf8 "nil")] →
        returning (session.moments program k) = some text ∧
        ∃ (n : Nat) (v : Value) (call : Call), (session.moments program k).Completes n ∧
          (session.moments program (k + n)).focus = .returned v ∧ v.inspect = text ∧
          call.Innermost (session.moments program) k ∧
          call.Takes (session.moments program) (k + n) v := by
  intro session
  have hr : Reached [] [] session := .new false
  have hreturning : ((analyse nested).toOption.any fun program =>
      [(26, utf8 "r"), (54, utf8 "nil")].all fun p =>
        returning (session.moments program p.1) = some p.2) = true := by decide +kernel
  cases ha : analyse nested with
  | error problems => rw [ha] at hreturning; cases hreturning
  | ok program =>
    rw [ha] at hreturning
    refine ⟨program, rfl, fun k text hk => ?_⟩
    have htext : returning (session.moments program k) = some text :=
      of_decide_eq_true (List.all_eq_true.1 hreturning (k, text) hk)
    obtain ⟨keyword, value, v, hf, hb, hv⟩ := exists_of_returning htext
    obtain ⟨-, -, hreturns⟩ := returned_values_reach_calls hr ha
    obtain ⟨call, hinner, -, hbrings, hdone⟩ := hreturns k keyword value hf
    obtain ⟨n, hc, hend⟩ := hbrings v _ hb
    rcases hdone n hc with ⟨v', -, hv', -, htakes⟩ | ⟨e, err, -, -, herror⟩
    · rw [hend] at hv'
      cases hv'
      exact ⟨htext, n, v, call, hc, congrArg Machine.focus hend, hv, hinner, htakes⟩
    · rw [hend] at herror
      cases herror

end Session

end Lox
