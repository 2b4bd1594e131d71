import Lox.Proofs.Machine.Agreement
/-!
# Methods, receivers and `super`

A class inherits from older classes only, so looking for a method comes to an end at the nearest
definition. A method that a program holds has its receiver, an object of the class that declares
the method or of one that inherits from it. `super` starts at the class over which the enclosing
class was declared, whatever the variables hold by now, and keeps the receiver.
-/

namespace Lox

/-! ## What a program holds -/

/-- The values that a task keeps. -/
def Task.values : Task → List Value
  | .binary _ _ left => [left]
  | .argument _ f done _ => f :: done
  | .setField o _ | .endCall (.object o) => [.obj o]
  | _ => []

/-- A value that stands in a variable or a field, or that the machine is working on. -/
inductive Machine.Holds (m : Machine) : Value → Prop
  | frame {f : FrameId} {x : Bytes} {v : Value} : m.state.frames.lookup f x = some v → Holds m v
  | field {o : Instance} {x : Bytes} {v : Value} : m.state.field? o x = some v → Holds m v
  | result {v : Value} : m.focus = .value v → Holds m v
  | returned {v : Value} : m.focus = .returned v → Holds m v
  | waiting {task : Task} {v : Value} : task ∈ m.tasks → v ∈ task.values → Holds m v

/-- The first definition of a method in the lineage of a class. -/
def Class.Nearest (c : Class) (name : Bytes) (method : Closure) : Prop :=
  ∃ before e after, c.lineage = before ++ e :: after ∧
    (∀ a ∈ before, a.methods.get? name = none) ∧ e.methods.get? name = some method

/-- The class that a declaration has made from its text inherits from its superclass, which another
declaration has made. Numbers go down along the lineage, so no class comes twice. -/
structure Declaration.Inherits (log : List Declaration) (d : Declaration) : Prop where
  name : d.cls.entry.name = d.text.name.lexeme
  methods : d.cls.entry.methods = State.methodTable d.chain d.text.methods
  ancestors : d.cls.ancestors = (d.superclass.map Class.lineage).getD []
  superclass : ∀ sup, d.superclass = some sup → ∃ d' ∈ log, d'.cls = sup
  acyclic : d.cls.lineage.Pairwise fun a b => b.id < a.id
  nearest : ∀ name method, d.cls.findMethod name = some method ↔ d.cls.Nearest name method

/-- A function that was declared with `fun`, with the frames of the scopes at its declaration. -/
def Closure.IsPlain (programs : List Stmt → Prop) (frames : Frames) (c : Closure) : Prop :=
  c.isInit = false ∧ ∃ cls f₀ layers r,
    Visits programs ⟨.function .function cls f₀, layers, r⟩ ∧
    (Resolver.function .function cls f₀ r).1 = c.decl ∧ frames.Agree c.chain layers r.scopes

/-- A method that one of the declarations has made, with a frame for its receiver. The receiver's
class is the declared one or inherits from it. -/
def Closure.IsBound (log : List Declaration) (frames : Frames) (c : Closure) : Prop :=
  ∃ d ∈ log, ∃ name method t o, d.cls.entry.methods.get? name = some method ∧
    method.decl ∈ d.text.methods ∧ c = { method with chain := t :: d.chain } ∧
    frames.lookup t (utf8 "this") = some (.obj o) ∧ d.cls.lineage <:+ o.cls.lineage

/-- Evaluating `super` inside the text of a class. The declaration `d` of that class made the
frames around `this`; the method is looked up from the superclass that `d` had, and gets the
receiver that `this` has here. -/
def Machine.StaticSuper (programs : List Stmt → Prop) (log : List Declaration) (m : Machine)
    (ref : Ref) (method : Token) : Prop :=
  ∃ cls e₀ layers r, Visits programs ⟨.expr cls e₀, layers, r⟩ ∧
    (Resolver.expression cls e₀ r).1 = .super ref method ∧
    ∃ d ∈ log, ∃ hops t o sup, Layer.enclosing layers = some d.text ∧
      ref.hops = some (hops + 1) ∧ d.chain = m.state.env.drop (hops + 1) ∧
      m.state.env[hops]? = some t ∧ m.state.frames.lookup t (utf8 "this") = some (.obj o) ∧
      d.cls.lineage <:+ o.cls.lineage ∧ d.superclass = some sup ∧
      (∀ d' ∈ log, d'.chain = d.chain → ∀ sup', d'.superclass = some sup' → sup' = sup) ∧
      m.step = match sup.findMethod method.lexeme with
        | some f => Machine.bound f o m.tasks m.state
        | none => ⟨.raised ⟨method, .undefinedProperty method.lexeme⟩, m.tasks, m.state⟩

/-! ## What the invariant says about them -/

variable {programs : List Stmt → Prop} {w : World} {s : State}
  (hprograms : ∀ program, programs program → Admissible program)

theorem Class.findMethod_eq_some {c : Class} {name : Bytes} {method : Closure} :
    c.findMethod name = some method ↔ c.Nearest name method := by
  rw [Class.findMethod, List.findSome?_eq_some_iff]
  constructor
  · rintro ⟨before, e, after, hl, he, hb⟩
    exact ⟨before, e, after, hl, hb, he⟩
  · rintro ⟨before, e, after, hl, hb, he⟩
    exact ⟨before, e, after, hl, he, hb⟩

namespace World

theorem StoreOk.acyclic (h : w.StoreOk programs s) : ∀ (n : Nat) {c : Class},
    c.ancestors.length = n → w.ClassOk c → c.lineage.Pairwise fun a b => b.id < a.id := by
  intro n
  induction n with
  | zero =>
    rintro c hn ⟨d, hd, rfl⟩
    rw [Class.lineage, List.length_eq_zero_iff.1 hn]
    exact List.pairwise_singleton _ _
  | succ n ih =>
    rintro c hn ⟨d, hd, rfl⟩
    refine List.pairwise_cons.2 ⟨(h.log d hd).ids, ?_⟩
    cases hs : d.superclass with
    | none =>
      rw [((h.log d hd).root hs).2]
      exact .nil
    | some sup =>
      obtain ⟨hanc, hok, -⟩ := (h.log d hd).sub sup hs
      rw [hanc] at hn ⊢
      exact ih (Nat.succ.inj hn) hok

theorem StoreOk.inherits (h : w.StoreOk programs s) {d : Declaration} (hd : d ∈ w.log) :
    d.Inherits w.log where
  name := (h.log d hd).name
  methods := (h.log d hd).methods
  ancestors := by
    cases hs : d.superclass with
    | none => exact ((h.log d hd).root hs).2
    | some sup => exact ((h.log d hd).sub sup hs).1
  superclass := fun sup hs => ((h.log d hd).sub sup hs).2.1
  acyclic := h.acyclic _ rfl ⟨d, hd, rfl⟩
  nearest := fun _ _ => Class.findMethod_eq_some

theorem StoreOk.isBound (h : w.StoreOk programs s) {c : Closure} (hc : w.BoundMethod c) :
    c.IsBound w.log s.frames := by
  obtain ⟨d, hd, name, m, t, o, hm, rfl, hr, -⟩ := hc
  obtain ⟨hdecl, hchain, -⟩ := (h.log d hd).method hm
  exact ⟨d, hd, name, m, t, o, hm, hdecl, by rw [hchain], h.frames ▸ hr.2.2.1, hr.2.2.2⟩

theorem StoreOk.isPlain (h : w.StoreOk programs s) {c : Closure}
    (hc : w.PlainFunction programs c) : c.IsPlain programs s.frames := by
  obtain ⟨hinit, layers, _, hm, cls, f₀, r, hv, rfl, hf⟩ := hc
  exact ⟨hinit, cls, f₀, layers, r, hv, hf, hm.agree h⟩

/-- Everything that waiting tasks keep is in order. -/
theorem Waits.values {a : Awaited} {c : Chain} {ls : List Layer} {ss : List Scope}
    {tasks : List Task} (h : w.Waits programs a c ls ss tasks) :
    ∀ task ∈ tasks, ∀ v ∈ task.values, w.ValueOk programs v := by
  -- a task that keeps nothing, in front of tasks that are in order
  have skip : ∀ {task : Task} {tasks : List Task}, task.values = [] →
      (∀ task ∈ tasks, ∀ v ∈ task.values, w.ValueOk programs v) →
      ∀ t ∈ task :: tasks, ∀ v ∈ t.values, w.ValueOk programs v := by
    intro task tasks hnone hrest t ht v hv
    rcases List.mem_cons.1 ht with rfl | ht
    · rw [hnone] at hv; cases hv
    · exact hrest t ht v hv
  induction h with
  | halt => intro t ht; cases ht
  | program _ => exact skip rfl fun t ht => by cases ht
  | @operand _ _ _ task _ ht _ ih =>
    intro t hmem v hv
    rcases List.mem_cons.1 hmem with rfl | hmem
    · cases t with
      | binary _ _ left => obtain rfl := List.mem_singleton.1 hv; exact ht
      | setField o _ => obtain rfl := List.mem_singleton.1 hv; exact ht
      | argument _ callee done _ =>
        rcases List.mem_cons.1 hv with rfl | hv
        · exact ht.1
        · exact ht.2.1 v hv
      | endCall _ => exact ht.elim
      | _ => cases hv
    · exact ih t hmem v hv
  | @statement _ _ _ task _ _ ht _ ih =>
    refine skip ?_ ih
    cases task with
    | binary _ _ _ | setField _ _ | argument _ _ _ _ | endCall _ => exact ht.elim
    | _ => rfl
  | define _ _ _ _ ih => exact skip rfl ih
  | loopBody _ _ _ ih => exact skip rfl ih
  | sequence _ _ ih => exact skip rfl ih
  | leave _ _ ih => exact skip rfl ih
  | @endCall _ _ _ _ _ _ exit he _ _ ih =>
    cases exit with
    | object o =>
      intro t hmem v hv
      rcases List.mem_cons.1 hmem with rfl | hmem
      · obtain rfl := List.mem_singleton.1 hv; exact he
      · exact ih t hmem v hv
    | _ => exact skip rfl ih

namespace Invariant

variable {m : Machine}

theorem waits (h : w.Invariant programs m) :
    ∃ a c ls ss, w.Waits programs a c ls ss m.tasks := by
  obtain ⟨focus, tasks, s⟩ := m
  have hf := h.focus
  cases focus with
  | eval e => obtain ⟨_, _, -, -, hw⟩ := hf; exact ⟨_, _, _, _, hw⟩
  | exec e => obtain ⟨_, _, _, -, -, hw⟩ := hf; exact ⟨_, _, _, _, hw⟩
  | value v => obtain ⟨-, _, _, -, hw⟩ := hf; exact ⟨_, _, _, _, hw⟩
  | done => obtain ⟨_, _, -, hw⟩ := hf; exact ⟨_, _, _, _, hw⟩
  | returned v => obtain ⟨-, _, _, _, hw⟩ := hf; exact ⟨_, _, _, _, hw⟩
  | raised e => obtain ⟨_, _, _, hw⟩ := hf; exact ⟨_, _, _, _, hw⟩

/-- Everything that a program holds is in order. -/
theorem holds (h : w.Invariant programs m) {v : Value} (hv : m.Holds v) : w.ValueOk programs v := by
  cases hv with
  | frame hv => exact h.store.values _ _ _ hv
  | field hv => exact h.store.fields _ _ _ hv
  | result hv =>
    have hf := h.focus
    rw [hv] at hf
    exact hf.1
  | returned hv =>
    have hf := h.focus
    rw [hv] at hf
    exact hf.1
  | waiting ht hv =>
    obtain ⟨_, _, _, _, hw⟩ := h.waits
    exact hw.values _ ht _ hv

include hprograms in
theorem staticSuper (h : w.Invariant programs m) {ref : Ref} {method : Token}
    (hf : m.focus = .eval (.super ref method)) : m.StaticSuper programs w.log ref method := by
  obtain ⟨focus, tasks, s⟩ := m
  subst hf
  obtain ⟨hs, ls, ss, hm, he, -⟩ := h
  obtain ⟨n, d, t, f, o, sup, hhops, ht, hf, hd, htext, hchain, hsup, hlook, hr⟩ :=
    hm.superFrames hs.log (he.parts hprograms)
  have hthis : s.frames.lookup t (utf8 "this") = some (.obj o) := hs.frames ▸ hr.2.2.1
  obtain ⟨cls, e₀, r, hv, -, he⟩ := he
  refine ⟨cls, e₀, ls, r, hv, he, d, hd, n, t, o, sup, htext, hhops, hchain, ht, hthis,
    hr.2.2.2, hsup, ?_, ?_⟩
  · intro d' hd' hsame sup' hsup'
    obtain ⟨-, -, g, outer, hg, hlook'⟩ := (hs.log d' hd').sub sup' hsup'
    have hhead : (s.env.drop (n + 1))[0]? = some f := by rwa [List.getElem?_drop]
    rw [← hchain, ← hsame, hg] at hhead
    cases hhead
    cases hlook.symm.trans hlook'
    rfl
  · exact Machine.eval_super hhops hf (hs.frames ▸ hlook) ht hthis

end Invariant

end World

/-- **`super` is static and methods have their receivers.** At every moment of a run that starts
in a session that can come about, classes inherit without cycles and find the nearest method; every
class and the class of every object comes from a declaration; every function is plain or a method
bound to an object of the declaring class or of one that inherits from it; and `super` looks the
method up from the superclass that the enclosing class was declared over, for the same receiver. -/
theorem Session.super_dispatch_static {sources : List Bytes} {log : List Declaration}
    {session : Session} (hr : Reached sources log session) {source : Bytes}
    {program : List Stmt} (ha : analyse source = .ok program) (n : Nat) :
    let m := (session.machine program).run n
    let declared := (session.machine program).declared n ++ log
    (∀ d ∈ declared, d.Inherits declared) ∧
    (∀ c, m.Holds (.cls c) → ∃ d ∈ declared, d.cls = c) ∧
    (∀ o, m.Holds (.obj o) → ∃ d ∈ declared, d.cls = o.cls) ∧
    (∀ f, m.Holds (.function f) →
      f.closure.IsPlain (accepted (source :: sources)) m.state.frames ∨
      f.closure.IsBound declared m.state.frames) ∧
    ∀ ref method, m.focus = .eval (.super ref method) →
      m.StaticSuper (accepted (source :: sources)) declared ref method := by
  obtain ⟨w, hlog, hw⟩ := hr.invariant accepted_admissible (fun _ h => h) ha n
  intro m declared
  have hlog : w.log = declared := hlog
  rw [← hlog]
  refine ⟨fun d hd => hw.store.inherits hd, fun c hc => hw.holds hc, fun o ho => hw.holds ho,
    fun f hf => ?_, fun ref method hf => hw.staticSuper accepted_admissible hf⟩
  exact (hw.holds hf).imp hw.store.isPlain hw.store.isBound

/-- The names of the classes are lost, but the object still has its class. -/
def orphaned : Bytes :=
  utf8 "class A \x7b m() \x7b return \"A\"; \x7d \x7d
class B < A \x7b m() \x7b return \"B\"; \x7d n() \x7b return super.m; \x7d \x7d
class C < B \x7b\x7d
var c = C(); A = nil; B = nil; C = nil;"

theorem Session.super_dispatch_static_orphaned :
    let session := (Session.new.run 300 orphaned).2
    ∃ program, analyse (utf8 "var f = c.n(); print f();") = .ok program ∧
    (∃ ref method, ((session.machine program).run 9).focus = .eval (.super ref method)) ∧
    ∀ n, let m := (session.machine program).run n
      let declared := (session.machine program).declared n ++ Session.new.declared 300 orphaned
      let programs := accepted [utf8 "var f = c.n(); print f();", orphaned]
      (∀ d ∈ declared, d.Inherits declared) ∧
      (∀ c, m.Holds (.cls c) → ∃ d ∈ declared, d.cls = c) ∧
      (∀ o, m.Holds (.obj o) → ∃ d ∈ declared, d.cls = o.cls) ∧
      (∀ f, m.Holds (.function f) → f.closure.IsPlain programs m.state.frames ∨
        f.closure.IsBound declared m.state.frames) ∧
      ∀ ref method, m.focus = .eval (.super ref method) →
        m.StaticSuper programs declared ref method := by
  have hr : Reached [orphaned] (Session.new.declared 300 orphaned ++ [])
      (Session.new.run 300 orphaned).2 := .run (.new false) (by decide +kernel)
  rw [List.append_nil] at hr
  obtain ⟨program, ha⟩ := analyse_of_toBool
    (by decide +kernel : (analyse (utf8 "var f = c.n(); print f();")).toBool = true)
  -- after nine steps the body of `n` has come to `super.m`
  have hsuper : (match analyse (utf8 "var f = c.n(); print f();") with
      | .ok program =>
        match (((Session.new.run 300 orphaned).2.machine program).run 9).focus with
        | .eval (.super _ _) => true
        | _ => false
      | .error _ => false) = true := by decide +kernel
  rw [ha] at hsuper
  refine ⟨program, ha, ?_, fun n => Session.super_dispatch_static hr ha n⟩
  dsimp only at hsuper
  split at hsuper
  · rename_i hfocus
    exact ⟨_, _, hfocus⟩
  · cases hsuper

end Lox
