import Lox.Proofs.Machine.Sessions
/-!
# Scopes and frames agree

The resolver counts scopes in the text, the machine goes that many frames out. At every moment of
every run the chain of frames has one frame for each scope that the resolver had open at the node
being run, so a distance always leads to a frame that binds the name. A strict machine, which stops
when that is not so, makes the same runs.
-/

namespace Lox

/-! ## Frames made for scopes -/

/-- A chain of frames has one frame for each open scope, in the same order, and the frame of the
globals after them. The frame of a block or a body binds the names that have been initialized and
no name that the text does not declare there; the frames of `this` and `super` bind just that. -/
inductive Frames.Agree (fs : Frames) : Chain → List Layer → List Scope → Prop
  | globals : Agree fs globalChain [] []
  | body {f : FrameId} {chain : Chain} {names : List Bytes} {layers : List Layer} {scope : Scope}
      {scopes : List Scope} : Agree fs chain layers scopes → f ∉ chain →
    (∀ x, scope.get? x = some true → fs.binds f x = true) →
    (∀ x, fs.binds f x = true → x ∈ names) →
    Agree fs (f :: chain) (.body names :: layers) (scope :: scopes)
  | this {f : FrameId} {chain : Chain} {text : ClassText} {layers : List Layer}
      {scopes : List Scope} {o : Instance} : Agree fs chain layers scopes → f ∉ chain →
    (∀ x, fs.lookup f x = if x = utf8 "this" then some (.obj o) else none) →
    Agree fs (f :: chain) (.this text :: layers) (thisScope :: scopes)
  | super {f : FrameId} {chain : Chain} {text : ClassText} {layers : List Layer}
      {scopes : List Scope} {c : Class} : Agree fs chain layers scopes → f ∉ chain →
    (∀ x, fs.lookup f x = if x = utf8 "super" then some (.cls c) else none) →
    Agree fs (f :: chain) (.super text :: layers) (superScope :: scopes)

/-! ## A machine that does without defaults -/

/-- The value of a name in the frame `hops` steps out, if there is one. -/
def Frames.getAt? (fs : Frames) (chain : Chain) (hops : Nat) (name : Bytes) : Option Value :=
  chain[hops]?.bind (fs.lookup · name)

namespace Machine

/-- Opens a reference; a distance has to lead to a frame that binds the name. -/
def strictRead (ref : Ref) (tasks : List Task) (s : State) : Option Machine :=
  match ref.hops with
  | some d => (s.frames.getAt? s.env d ref.name.lexeme).map fun v => ⟨.value v, tasks, s⟩
  | none => some (eval (.var ref) tasks s)

/-- Opens a `super` expression; the two frames have to hold a class and an object. -/
def strictSuper (ref : Ref) (method : Token) (tasks : List Task) (s : State) : Option Machine :=
  match ref.hops with
  | some (d + 1) =>
    match s.frames.getAt? s.env (d + 1) (utf8 "super"), s.frames.getAt? s.env d (utf8 "this") with
    | some (.cls c), some (.obj o) =>
      match c.findMethod method.lexeme with
      | some m => some (bound m o tasks s)
      | none => some ⟨.raised ⟨method, .undefinedProperty method.lexeme⟩, tasks, s⟩
    | _, _ => none
  | _ => none

/-- Assigns a value to a reference; a distance has to lead to a frame. -/
def strictAssign (ref : Ref) (v : Value) (tasks : List Task) (s : State) : Option Machine :=
  match ref.hops with
  | some d => s.env[d]?.map fun f =>
      ⟨.value v, tasks, { s with frames := s.frames.define f ref.name.lexeme v }⟩
  | none => some (assign ref v tasks s)

/-- Ends the call of an initializer; its chain has to start with a frame for `this`. -/
def strictReceiver (chain : Chain) (tasks : List Task) (s : State) : Option Machine :=
  (s.frames.getAt? chain 0 (utf8 "this")).map fun this =>
    ⟨.value this, tasks, { s with callDepth := s.callDepth - 1 }⟩

/-- One step; nothing comes of it where a frame is not what the resolver promised. -/
def strictStep : Machine → Option Machine
  | ⟨.eval (.var ref), tasks, s⟩ | ⟨.eval (.this ref), tasks, s⟩ => strictRead ref tasks s
  | ⟨.eval (.super ref method), tasks, s⟩ => strictSuper ref method tasks s
  | ⟨.value v, .assign ref :: tasks, s⟩ => strictAssign ref v tasks s
  | ⟨.done, .endCall (.receiver chain) :: tasks, s⟩
  | ⟨.returned _, .endCall (.receiver chain) :: tasks, s⟩ => strictReceiver chain tasks s
  | m => some m.step

/-- At most `fuel` strict steps. -/
def strictRun (fuel : Nat) (m : Machine) : Option Machine :=
  match fuel with
  | 0 => some m
  | fuel + 1 => if m.halted then some m else m.strictStep.bind (strictRun fuel)

/-- What the resolver has promised about the node at hand. -/
structure Lexical (programs : List Stmt → Prop) (m : Machine) : Prop where
  /-- The node is one that the resolver came to, with the scopes that now have their frames. -/
  expr : ∀ e, m.focus = .eval e → ∃ cls e₀ layers r, Visits programs ⟨.expr cls e₀, layers, r⟩ ∧
    (Resolver.expression cls e₀ r).1 = e ∧ m.state.frames.Agree m.state.env layers r.scopes
  stmt : ∀ s, m.focus = .exec s → ∃ fn cls s₀ layers r,
    Visits programs ⟨.stmt fn cls s₀, layers, r⟩ ∧
    (Resolver.statement fn cls s₀ r).1 = s ∧ m.state.frames.Agree m.state.env layers r.scopes
  var : ∀ ref d, m.focus = .eval (.var ref) → ref.hops = some d →
    ∃ f, m.state.env[d]? = some f ∧ m.state.frames.binds f ref.name.lexeme = true
  this : ∀ ref, m.focus = .eval (.this ref) → ∃ d f o, ref.hops = some d ∧
    m.state.env[d]? = some f ∧ m.state.frames.lookup f ref.name.lexeme = some (.obj o)
  super : ∀ ref method, m.focus = .eval (.super ref method) → ∃ d f t c o,
    ref.hops = some (d + 1) ∧
    m.state.env[d + 1]? = some f ∧ m.state.frames.lookup f (utf8 "super") = some (.cls c) ∧
    m.state.env[d]? = some t ∧ m.state.frames.lookup t (utf8 "this") = some (.obj o)
  assign : ∀ v ref tasks, m.focus = .value v → m.tasks = .assign ref :: tasks →
    (∃ cls e₀ e layers r, Visits programs ⟨.expr cls e₀, layers, r⟩ ∧
      (Resolver.expression cls e₀ r).1 = .assign ref e ∧
      m.state.frames.Agree m.state.env layers r.scopes) ∧
    ∀ d, ref.hops = some d → ∃ f, m.state.env[d]? = some f

end Machine

/-! ## What the invariant says about frames -/

variable {programs : List Stmt → Prop} {w : World} {s : State}
  (hprograms : ∀ program, programs program → Admissible program)

namespace World

variable {chain : Chain} {ls : List Layer} {ss : List Scope}

/-- A frame that allows one name only binds no other. -/
theorem lookup_of_allows {f : FrameId} {a x : Bytes} {v : Value}
    (hnames : ∀ y, s.frames.binds f y = true → y = a) (hv : s.frames.lookup f a = some v) :
    s.frames.lookup f x = if x = a then some v else none := by
  split
  · rename_i hx
    rw [hx, hv]
  · rename_i hx
    cases h : s.frames.lookup f x with
    | none => rfl
    | some u => exact absurd (hnames x (Frames.binds_iff.2 ⟨u, h⟩)) hx

theorem Matches.agree (h : w.Matches chain ls ss) (hs : w.StoreOk programs s) :
    s.frames.Agree chain ls ss := by
  induction h with
  | globals => exact .globals
  | body _ hl hg hb ih =>
    refine .body ih (fun hf => Nat.lt_irrefl _ (hg _ hf)) (fun x hx => hs.frames ▸ hb x hx)
      fun x hx => ?_
    exact hs.names _ x _ hl hx
  | this _ _ hr ih =>
    have hthis : s.frames.lookup _ (utf8 "this") = _ := hs.frames ▸ hr.2.2.1
    exact .this ih (fun hf => Nat.lt_irrefl _ (hr.2.1 _ hf)) fun x =>
      lookup_of_allows (hs.names _ · _ hr.1) hthis
  | super _ hl hg hv ih =>
    have hsuper : s.frames.lookup _ (utf8 "super") = _ := hs.frames ▸ hv
    exact .super ih (fun hf => Nat.lt_irrefl _ (hg _ hf)) fun x =>
      lookup_of_allows (hs.names _ · _ hl) hsuper

/-- There is a frame for every open scope. -/
theorem Matches.frame (h : w.Matches chain ls ss) : ∀ {d : Nat} {scope : Scope},
    ss[d]? = some scope → ∃ f, chain[d]? = some f ∧
      ∀ x, scope.get? x = some true → w.frames.binds f x = true := by
  induction h with
  | globals => intro d scope hd; cases hd
  | @body f _ _ _ _ _ _ _ _ hb ih =>
    rintro (_ | d) scope hd
    · cases hd; exact ⟨f, rfl, hb⟩
    · exact ih hd
  | @this t _ o _ _ _ _ hr ih =>
    rintro (_ | d) scope hd
    · cases hd
      refine ⟨t, rfl, fun x hx => ?_⟩
      obtain ⟨rfl, -⟩ := Bindings.get?_singleton hx
      exact Frames.binds_iff.2 ⟨_, hr.2.2.1⟩
    · exact ih hd
  | @super f _ _ _ _ _ _ _ _ hv ih =>
    rintro (_ | d) scope hd
    · cases hd
      refine ⟨f, rfl, fun x hx => ?_⟩
      obtain ⟨rfl, -⟩ := Bindings.get?_singleton hx
      exact Frames.binds_iff.2 ⟨_, hv⟩
    · exact ih hd

/-- `this` leads to the frame of an object. -/
theorem Matches.thisFrame (h : w.Matches chain ls ss) {ref : Ref} (hat : ThisAt ls ss ref) :
    ∃ d f o, ref.hops = some d ∧ chain[d]? = some f ∧
      w.frames.lookup f ref.name.lexeme = some (.obj o) := by
  obtain ⟨hname, d, text, outer, scopes', hd, -, hl, hsc⟩ := hat
  have hdrop := h.dropTo hl
  rw [hsc] at hdrop
  generalize hc : chain.drop d = c at hdrop
  cases hdrop with
  | @this t D o _ _ _ _ hr =>
    refine ⟨d, t, o, hd, ?_, hname ▸ hr.2.2.1⟩
    have hget : (chain.drop d)[0]? = some t := by rw [hc]; rfl
    rwa [List.getElem?_drop] at hget

/-- A variable with a distance leads to a frame that binds it. -/
theorem Matches.varFrame (h : w.Matches chain ls ss) {ref : Ref} (hr : Readable ss ref) {d : Nat}
    (hd : ref.hops = some d) :
    ∃ f, chain[d]? = some f ∧ w.frames.binds f ref.name.lexeme = true := by
  obtain ⟨scope, hscope, htrue⟩ := hr.ready d hd
  obtain ⟨f, hf, hb⟩ := h.frame hscope
  exact ⟨f, hf, hb _ htrue⟩

/-- An assignment with a distance leads to a frame. -/
theorem Matches.assignFrame (h : w.Matches chain ls ss) {ref : Ref} (hp : Pinned ss ref) {d : Nat}
    (hd : ref.hops = some d) : ∃ f, chain[d]? = some f := by
  obtain ⟨scope, hscope, -⟩ := hopsTo_some (hp.hops.symm.trans hd)
  obtain ⟨f, hf, -⟩ := h.frame hscope
  exact ⟨f, hf⟩

namespace Invariant

variable {m : Machine}

include hprograms in
theorem lexical (h : w.Invariant programs m) : m.Lexical programs := by
  obtain ⟨focus, tasks, s⟩ := m
  obtain ⟨hs, hf⟩ := h
  have hframes := hs.frames
  refine ⟨?_, ?_, ?_, ?_, ?_, ?_⟩
  · rintro e rfl
    obtain ⟨ls, ss, hm, ⟨cls, e₀, r, hv, rfl, he⟩, -⟩ := hf
    exact ⟨cls, e₀, ls, r, hv, he, hm.agree hs⟩
  · rintro stmt rfl
    obtain ⟨ls, ss, _, hm, ⟨fn, cls, s₀, r, hv, rfl, hstmt, -⟩, -⟩ := hf
    exact ⟨fn, cls, s₀, ls, r, hv, hstmt, hm.agree hs⟩
  · rintro ref d rfl hd
    obtain ⟨ls, ss, hm, he, -⟩ := hf
    exact hframes ▸ hm.varFrame (he.parts hprograms) hd
  · rintro ref rfl
    obtain ⟨ls, ss, hm, he, -⟩ := hf
    exact hframes ▸ hm.thisFrame (he.parts hprograms)
  · rintro ref method rfl
    obtain ⟨ls, ss, hm, he, -⟩ := hf
    obtain ⟨n, D, t, f, o, sup, hd, ht, hf, -, -, -, -, hsup, hr⟩ :=
      hm.superFrames hs.log (he.parts hprograms)
    exact ⟨n, f, t, sup, o, hd, hf, hframes ▸ hsup, ht, hframes ▸ hr.2.2.1⟩
  · rintro v ref tasks rfl rfl
    obtain ⟨-, ls, ss, hm, hw⟩ := hf
    cases hw with
    | operand ht _ =>
      obtain ⟨e, he⟩ := ht
      refine ⟨?_, fun d hd => hm.assignFrame (he.parts hprograms).1 hd⟩
      obtain ⟨cls, e₀, r, hv, rfl, he⟩ := he
      exact ⟨cls, e₀, e, ls, r, hv, he, hm.agree hs⟩
    | statement _ ht _ => exact ht.elim

/-- The chain of an initializer starts with the frame of its receiver. -/
theorem strictReceiver {v : Value} {chain : Chain} {tasks : List Task}
    (hb : w.Behind programs s.env tasks (.endCall (.receiver chain)))
    (hs : w.StoreOk programs s) :
    Machine.strictReceiver chain tasks s =
      some ⟨.value (Machine.exitValue s v (.receiver chain)), tasks,
        { s with callDepth := s.callDepth - 1 }⟩ := by
  obtain ⟨⟨t, outer, o, rfl, hl, -⟩, -⟩ := hb
  have hthis : s.frames.lookup t (utf8 "this") = some (.obj o) := hs.frames ▸ hl
  simp [Machine.strictReceiver, Frames.getAt?, Machine.exitValue, Frames.getAt, hthis]

end Invariant

end World

namespace Machine

theorem strictRead_eq {ref : Ref} {tasks : List Task}
    (h : ∀ d, ref.hops = some d →
      ∃ f, s.env[d]? = some f ∧ s.frames.binds f ref.name.lexeme = true) :
    strictRead ref tasks s = some (eval (.var ref) tasks s) := by
  unfold strictRead
  cases hd : ref.hops with
  | none => rfl
  | some d =>
    obtain ⟨f, hf, hb⟩ := h d hd
    obtain ⟨v, hv⟩ := Frames.binds_iff.1 hb
    simp [Frames.getAt?, hf, hv, eval, State.read, hd, Frames.getAt_of_lookup hf hv]

theorem strictSuper_eq {ref : Ref} {method : Token} {tasks : List Task} {d : Nat}
    {f t : FrameId} {c : Class} {o : Instance} (hd : ref.hops = some (d + 1))
    (hf : s.env[d + 1]? = some f) (hc : s.frames.lookup f (utf8 "super") = some (.cls c))
    (ht : s.env[d]? = some t) (ho : s.frames.lookup t (utf8 "this") = some (.obj o)) :
    strictSuper ref method tasks s = some (eval (.super ref method) tasks s) := by
  simp only [strictSuper, hd, Frames.getAt?, hf, ht, hc, ho, Option.bind_some,
    eval_super hd hf hc ht ho]
  cases c.findMethod method.lexeme <;> rfl

theorem strictAssign_eq {ref : Ref} {v : Value} {tasks : List Task}
    (h : ∀ d, ref.hops = some d → ∃ f, s.env[d]? = some f) :
    strictAssign ref v tasks s = some (assign ref v tasks s) := by
  unfold strictAssign assign
  cases hd : ref.hops with
  | none => rfl
  | some d =>
    obtain ⟨f, hf⟩ := h d hd
    simp [Frames.assignAt, hf]

end Machine

include hprograms in
theorem World.Invariant.strictStep {m : Machine} (h : w.Invariant programs m) :
    m.strictStep = some m.step := by
  have hlex := h.lexical hprograms
  obtain ⟨focus, tasks, s⟩ := m
  obtain ⟨hs, hf⟩ := h
  cases focus with
  | eval e =>
    cases e with
    | var ref => exact Machine.strictRead_eq fun d hd => hlex.var ref d rfl hd
    | this ref =>
      refine Machine.strictRead_eq fun d hd => ?_
      obtain ⟨d', f, o, hd', hf, ho⟩ := hlex.this ref rfl
      cases hd.symm.trans hd'
      exact ⟨f, hf, Frames.binds_iff.2 ⟨_, ho⟩⟩
    | super ref method =>
      obtain ⟨d, f, t, c, o, hd, hf, hc, ht, ho⟩ := hlex.super ref method rfl
      exact Machine.strictSuper_eq hd hf hc ht ho
    | _ => rfl
  | exec stmt => rfl
  | value v =>
    cases tasks with
    | nil => rfl
    | cons task tasks =>
      cases task with
      | assign ref => exact Machine.strictAssign_eq (hlex.assign v ref tasks rfl rfl).2
      | _ => rfl
  | done =>
    cases tasks with
    | nil => rfl
    | cons task tasks =>
      obtain ⟨_, _, _, hw⟩ := hf
      cases task with
      | endCall exit =>
        cases exit with
        | receiver chain => exact strictReceiver hw.behind hs
        | _ => rfl
      | _ => rfl
  | returned v =>
    cases tasks with
    | nil => rfl
    | cons task tasks =>
      obtain ⟨_, _, _, _, hw⟩ := hf
      cases task with
      | endCall exit =>
        cases exit with
        | receiver chain => exact strictReceiver hw.behind hs
        | _ => rfl
      | _ => rfl
  | raised e => rfl

include hprograms in
theorem World.Invariant.strictRun (n : Nat) {m : Machine} (h : w.Invariant programs m) :
    m.strictRun n = some (m.run n) := by
  induction n generalizing w m with
  | zero => rfl
  | succ n ih =>
    simp only [Machine.strictRun, Machine.run]
    split
    · rfl
    · obtain ⟨w', -, -, hstep⟩ := h.step hprograms
      rw [h.strictStep hprograms, Option.bind_some]
      exact ih hstep

/-- **Static scopes and run-time frames agree.** At every moment of a run that starts in a session
that can come about, the frames are those of the scopes at the node being run and every distance
leads where the resolver promised; so a machine without defaults makes the same run. -/
theorem Session.frames_agree_with_scopes {sources : List Bytes} {log : List Declaration}
    {session : Session} (hr : Reached sources log session) {source : Bytes}
    {program : List Stmt} (ha : analyse source = .ok program) (n : Nat) :
    ((session.machine program).run n).Lexical (accepted (source :: sources)) ∧
      (session.machine program).strictRun n = some ((session.machine program).run n) := by
  obtain ⟨w, -, hw⟩ := hr.invariant accepted_admissible (fun _ h => h) ha n
  obtain ⟨w₀, -, hw₀⟩ := hr.invariant accepted_admissible (fun _ h => h) ha 0
  exact ⟨hw.lexical accepted_admissible, hw₀.strictRun accepted_admissible n⟩

/-- Two classes and an object, for later sources to use. -/
def inheritance : Bytes :=
  utf8 "class A \x7b init(x) \x7b this.x = x; \x7d m() \x7b return this.x; \x7d \x7d
class B < A \x7b m() \x7b fun f() \x7b return super.m(); \x7d return f(); \x7d \x7d
var b = B(\"s\");"

theorem Session.frames_agree_with_scopes_inheritance :
    ∃ program, analyse (utf8 "\x7b var y = b; y = y.m(); print y; \x7d") = .ok program ∧
      ∀ n, (((Session.new.run 300 inheritance).2.machine program).run n).Lexical
          (accepted [utf8 "\x7b var y = b; y = y.m(); print y; \x7d", inheritance]) ∧
        ((Session.new.run 300 inheritance).2.machine program).strictRun n =
          some (((Session.new.run 300 inheritance).2.machine program).run n) := by
  obtain ⟨program, ha⟩ := analyse_of_toBool
    (by decide +kernel : (analyse (utf8 "\x7b var y = b; y = y.m(); print y; \x7d")).toBool = true)
  have hr : Reached [inheritance] (Session.new.declared 300 inheritance ++ [])
      (Session.new.run 300 inheritance).2 := .run (.new false) (by decide +kernel)
  exact ⟨program, ha, fun n => Session.frames_agree_with_scopes hr ha n⟩

end Lox
