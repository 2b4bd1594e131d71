import Lox.Proofs.Machine.Agreement
/-!
# What assignments write

An assignment without a distance changes a global that exists or fails. One with a distance writes
to its frame without a look, so it rests on the resolver that the frame binds the name by then.
The resolver declares a local variable before it goes into its initializer, and there refuses to
read the variable but not to assign to it. So there is one way in which an assignment makes a
binding, and only one: a local variable assigned to in its own initializer. Main statement:
`Session.assignment_creates_only_own`.
-/

namespace Lox

/-! ## Names of frames -/

namespace Bindings

variable {α : Type} {n : Bytes} {v : α}

theorem names_insert : ∀ b : Bindings α,
    (b.insert n v).names = if b.has n then b.names else b.names ++ [n]
  | [] => rfl
  | (k, w) :: rest => by
    by_cases hk : k = n
    · simp [insert, names, has, get?, hk]
    · have ih := names_insert rest
      have hhas : has n ((k, w) :: rest) = has n rest := by simp [has, get?, hk]
      simp only [insert, beq_eq_false_iff_ne.2 hk, Bool.false_eq_true, if_false, hhas]
      split at ih <;> simp_all [names]

end Bindings

namespace Frames

variable {fs : Frames} {f : FrameId} {n : Bytes} {v : Value}

/-- The names that each frame binds. -/
def names (fs : Frames) : Array (List Bytes) := fs.map Bindings.names

theorem names_define :
    (fs.define f n v).names =
      if fs.binds f n then fs.names else fs.names.modify f (· ++ [n]) := by
  have hframe : ∀ b, fs[f]? = some b → b.has n = fs.binds f n := by
    intro b hb
    simp [Bindings.has, binds, lookup, hb]
  refine Array.ext_getElem? fun g => ?_
  by_cases hfg : f = g
  · subst hfg
    cases hb : fs[f]? with
    | none => split <;> simp [names, define, Array.getElem?_modify, hb]
    | some b =>
      have hnames := Bindings.names_insert (n := n) (v := v) b
      rw [hframe b hb] at hnames
      split <;> simp_all [names, define, Array.getElem?_modify]
  · split <;> simp [names, define, Array.getElem?_modify, hfg]

end Frames

/-! ## Assignments -/

/-- The frame that an assignment writes to. -/
def State.target? (s : State) (ref : Ref) : Option FrameId :=
  match ref.hops with
  | some d => s.env[d]?
  | none => some globalFrame

/-- The value and the reference of the assignment that the next step makes, and what comes after. -/
def Machine.assigning? (m : Machine) : Option (Value × Ref × List Task) :=
  match m.focus, m.tasks with
  | .value v, .assign ref :: tasks => some (v, ref, tasks)
  | _, _ => none

theorem Machine.eq_of_assigning {m : Machine} {v : Value} {ref : Ref} {tasks : List Task}
    (h : m.assigning? = some (v, ref, tasks)) :
    m = ⟨.value v, .assign ref :: tasks, m.state⟩ := by
  obtain ⟨focus, tasks', s⟩ := m
  unfold assigning? at h
  split at h
  · cases h
    simp_all
  · cases h

/-- The next step writes the value to a frame and goes on with it. -/
def Machine.Writes (m : Machine) (f : FrameId) (name : Bytes) (v : Value) (tasks : List Task) :
    Prop :=
  m.step = ⟨.value v, tasks, { m.state with frames := m.state.frames.define f name v }⟩

/-- Whether the task waits inside an expression. -/
def Task.inExpression : Task → Bool
  | .unary _ _ | .binaryRight _ _ _ | .binary _ _ _ | .logical _ _ | .assign _ | .callee _ _
  | .argument _ _ _ _ | .get _ | .setObject _ _ | .setField _ _ => true
  | _ => false

/-- The variable whose initializer is the expression that is being evaluated. -/
def Task.initializing? : List Task → Option Token
  | .define name :: _ => some name
  | task :: tasks => if task.inExpression then initializing? tasks else none
  | [] => none

theorem Task.initializing?_cons {task : Task} (h : task.inExpression = true) (tasks : List Task) :
    initializing? (task :: tasks) = initializing? tasks := by
  cases task with
  | define name => cases h
  | _ => simp [initializing?, h]

variable {programs : List Stmt → Prop}
  (hprograms : ∀ program, programs program → Admissible program)

include hprograms in
/-- Only in the innermost scope can a name wait for its initializer. -/
theorem ExprAt.own_of_unready {ls : List Layer} {ss : List Scope} {e : Expr}
    (h : ExprAt programs ls ss e) {d : Nat} {scope : Scope} {x : Bytes} (hscope : ss[d]? = some scope)
    (hmark : scope.get? x = some false) :
    d = 0 ∧ Resolver.inOwnInitializer ss x = true := by
  obtain ⟨cls, e₀, r, hv, rfl, -⟩ := h
  cases d with
  | zero =>
    refine ⟨rfl, ?_⟩
    cases hscopes : r.scopes with
    | nil => simp [hscopes] at hscope
    | cons scope' outer =>
      obtain rfl : scope' = scope := by simpa [hscopes] using hscope
      simp [Resolver.inOwnInitializer, hmark]
  | succ d =>
    have htail : scope ∈ r.scopes.tail :=
      List.mem_of_getElem? (i := d) (by rwa [List.getElem?_tail])
    cases (hv.sound hprograms).ready scope htail x false hmark

namespace World

variable {w : World} {ls : List Layer} {ss : List Scope}

theorem OperandTask.inExpression {task : Task} (h : w.OperandTask programs ls ss task) :
    task.inExpression = true := by
  cases task <;> first | rfl | exact h.elim

/-- Where a name waits for its initializer, that is what is being evaluated. -/
theorem Waits.initializing {c : Chain} {x : Bytes} {tasks : List Task}
    (h : w.Waits programs .value c ls ss tasks)
    (hx : Resolver.inOwnInitializer ss x = true) :
    ∃ name, Task.initializing? tasks = some name ∧ name.lexeme = x := by
  induction tasks with
  | nil => cases h
  | cons task tasks ih =>
    cases h with
    | operand ht hw =>
      rw [Task.initializing?_cons ht.inExpression]
      exact ih hw
    | statement hready _ _ =>
      cases ss with
      | nil => cases hx
      | cons scope outer =>
        have hfalse : scope.get? x = some false := by
          simpa [Resolver.inOwnInitializer] using hx
        cases hready scope List.mem_cons_self x false hfalse
    | @define _ _ ss _ name hready _ _ _ =>
      refine ⟨name, rfl, ?_⟩
      cases ss with
      | nil => cases hx
      | cons scope outer =>
        have hfalse : (scope.insert name.lexeme false).get? x = some false := by
          simpa [Resolver.inOwnInitializer, Resolver.marked] using hx
        rw [Bindings.get?_insert] at hfalse
        split at hfalse
        · assumption
        · cases hready scope List.mem_cons_self x false hfalse

include hprograms in
/-- What comes of an assignment that is about to be made. -/
theorem Invariant.assigns {m : Machine} (h : w.Invariant programs m) {v : Value} {ref : Ref}
    {tasks : List Task} (hassign : m.assigning? = some (v, ref, tasks)) :
    (∃ f, m.state.target? ref = some f ∧ m.Writes f ref.name.lexeme v tasks ∧
        m.state.frames.binds f ref.name.lexeme = true) ∨
      (ref.hops = none ∧ m.state.frames.binds globalFrame ref.name.lexeme = false ∧
        m.step = ⟨.raised (.undefinedVariable ref.name), tasks, m.state⟩) ∨
      ∃ f name, ref.hops = some 0 ∧ m.state.target? ref = some f ∧
        m.Writes f ref.name.lexeme v tasks ∧ m.state.frames.binds f ref.name.lexeme = false ∧
        Task.initializing? tasks = some name ∧ name.lexeme = ref.name.lexeme := by
  have heq := Machine.eq_of_assigning hassign
  generalize m.state = s at heq
  subst heq
  obtain ⟨hs, -, ls, ss, hm, hw⟩ := h
  cases hw with
  | statement _ ht _ => exact ht.elim
  | operand ht hw =>
    obtain ⟨e, he⟩ := ht
    have hpinned : Pinned ss ref := (he.parts hprograms).1
    cases hd : ref.hops with
    | none =>
      by_cases hb : s.frames.binds globalFrame ref.name.lexeme = true
      · refine .inl ⟨globalFrame, by simp [State.target?, hd], ?_, hb⟩
        simp [Machine.Writes, Machine.step, Machine.resume, Machine.assign, hd,
          Machine.assignNearest, Frames.nearest?, globalChain, hb]
      · rw [Bool.not_eq_true] at hb
        refine .inr (.inl ⟨rfl, hb, ?_⟩)
        simp [Machine.step, Machine.resume, Machine.assign, hd, Machine.assignNearest,
          Frames.nearest?, globalChain, hb]
    | some d =>
      obtain ⟨scope, hscope, hhas, -⟩ := hopsTo_some (hpinned.hops.symm.trans hd)
      obtain ⟨mark, hmark⟩ := Bindings.has_iff.1 hhas
      obtain ⟨f, hf, hframe⟩ := hm.frame hscope
      have htarget : s.target? ref = some f := by simp [State.target?, hd, hf]
      have hwrites : Machine.Writes ⟨.value v, .assign ref :: tasks, s⟩ f ref.name.lexeme v
          tasks := by
        simp [Machine.Writes, Machine.step, Machine.resume, Machine.assign, hd, Frames.assignAt,
          hf]
      by_cases hb : s.frames.binds f ref.name.lexeme = true
      · exact .inl ⟨f, htarget, hwrites, hb⟩
      · have hunready : mark = false := by
          cases mark with
          | true => exact absurd (hs.frames ▸ hframe _ hmark) hb
          | false => rfl
        subst hunready
        obtain ⟨rfl, hown⟩ := he.own_of_unready hprograms hscope hmark
        obtain ⟨name, hname, hx⟩ := hw.initializing hown
        rw [Bool.not_eq_true] at hb
        exact .inr (.inr ⟨f, name, rfl, htarget, hwrites, hb, hname, hx⟩)

end World

/-- **An assignment creates only a variable that is being initialized.** Every assignment that a
run comes to overwrites a binding of the frame it writes to and keeps the names of all frames, or
it fails and changes nothing. The one exception is an assignment to a local variable in that
variable's own initializer: if the frame does not bind the name yet, the assignment adds it. -/
theorem Session.assignment_creates_only_own {sources : List Bytes} {log : List Declaration}
    {session : Session} (hr : Reached sources log session) {source : Bytes}
    {program : List Stmt} (ha : analyse source = .ok program) {n : Nat} {m : Machine}
    (hm : (session.machine program).run n = m) {v : Value} {ref : Ref} {tasks : List Task}
    (hassign : m.assigning? = some (v, ref, tasks)) :
    (∃ f, m.state.target? ref = some f ∧ m.Writes f ref.name.lexeme v tasks ∧
        m.state.frames.binds f ref.name.lexeme = true ∧
        m.step.state.frames.names = m.state.frames.names) ∨
      (ref.hops = none ∧ m.state.frames.binds globalFrame ref.name.lexeme = false ∧
        m.step = ⟨.raised (.undefinedVariable ref.name), tasks, m.state⟩) ∨
      ∃ f name, ref.hops = some 0 ∧ m.state.target? ref = some f ∧
        m.Writes f ref.name.lexeme v tasks ∧ m.state.frames.binds f ref.name.lexeme = false ∧
        Task.initializing? tasks = some name ∧ name.lexeme = ref.name.lexeme ∧
        m.step.state.frames.names = m.state.frames.names.modify f (· ++ [ref.name.lexeme]) := by
  obtain ⟨w, -, hw⟩ := hr.invariant accepted_admissible (fun _ h => h) ha n
  rw [hm] at hw
  rcases hw.assigns accepted_admissible hassign with ⟨f, htarget, hwrites, hb⟩ | hfails |
    ⟨f, name, hd, htarget, hwrites, hb, hname, hx⟩
  · refine .inl ⟨f, htarget, hwrites, hb, ?_⟩
    rw [hwrites, Frames.names_define, if_pos hb]
  · exact .inr (.inl hfails)
  · refine .inr (.inr ⟨f, name, hd, htarget, hwrites, hb, hname, hx, ?_⟩)
    rw [hwrites, Frames.names_define, if_neg (by simp [hb])]

/-- A function that has kept the frame of a call. -/
def counter : Bytes :=
  utf8 "fun counter() \x7b var i = 0; fun next() \x7b i = i + 1; return i; \x7d return next; \x7d
var next = counter();"

theorem Session.assignment_creates_only_own_counter :
    ∃ program v ref tasks f, analyse (utf8 "\x7b var n = next(); n = next(); \x7d") = .ok program ∧
      let m := ((Session.new.run 300 counter).2.machine program).run 39
      m.assigning? = some (v, ref, tasks) ∧ ref.hops = some 1 ∧
        m.state.target? ref = some f ∧ m.Writes f ref.name.lexeme v tasks ∧
        m.state.frames.binds f ref.name.lexeme = true ∧
        m.step.state.frames.names = m.state.frames.names := by
  have hr : Reached [counter] (Session.new.declared 300 counter ++ [])
      (Session.new.run 300 counter).2 := .run (.new false) (by decide +kernel)
  have h : (analyse (utf8 "\x7b var n = next(); n = next(); \x7d")).toOption.any (fun program =>
      (((Session.new.run 300 counter).2.machine program).run 39).assigning?.any fun assigned =>
        assigned.2.1.hops = some 1) = true := by
    decide +kernel
  cases ha : analyse (utf8 "\x7b var n = next(); n = next(); \x7d") with
  | error problems => rw [ha] at h; cases h
  | ok program =>
    rw [ha] at h
    have hany : (((Session.new.run 300 counter).2.machine program).run 39).assigning?.any
        (fun assigned => assigned.2.1.hops = some 1) = true := h
    obtain ⟨⟨v, ref, tasks⟩, hassign, hhops⟩ := Option.any_eq_true _ _ |>.1 hany
    have hhops : ref.hops = some 1 := of_decide_eq_true hhops
    rcases assignment_creates_only_own hr ha rfl hassign with ⟨f, hwritten⟩ | ⟨hglobal, -⟩ |
      ⟨f, name, hown, -⟩
    · exact ⟨program, v, ref, tasks, f, rfl, hassign, hhops, hwritten⟩
    · rw [hhops] at hglobal
      cases hglobal
    · rw [hhops] at hown
      cases hown

/-- A variable that no frame binds is assigned to, and then one does. -/
theorem Session.own_initializer_creates :
    ∃ program n, analyse (utf8 "\x7b var a = (a = 1); print a; \x7d") = .ok program ∧
      let m := (Session.new.machine program).run n
      m.assigning?.isSome = true ∧ m.step.state.frames.names ≠ m.state.frames.names := by
  have h : (analyse (utf8 "\x7b var a = (a = 1); print a; \x7d")).toOption.any (fun program =>
      let m := (Session.new.machine program).run 7
      m.assigning?.isSome && m.step.state.frames.names != m.state.frames.names) = true := by
    decide +kernel
  cases ha : analyse (utf8 "\x7b var a = (a = 1); print a; \x7d") with
  | error problems => rw [ha] at h; cases h
  | ok program =>
    rw [ha] at h
    have h := Bool.and_eq_true_iff.1 h
    exact ⟨program, 7, rfl, h.1, bne_iff_ne.1 h.2⟩

end Lox
