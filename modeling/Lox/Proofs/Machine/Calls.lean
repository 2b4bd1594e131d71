import Lox.Proofs.Machine.Store
/-!
# Calls, assignments and class declarations

The larger things that a step can do: giving a method its receiver, entering a function, assigning
to a variable, declaring a class. Each leads to a machine that is in order in a later world
(`World.Leads`), where a class declaration has been logged if one was carried out.
-/

namespace Lox

variable {programs : List Stmt → Prop} {w w' : World} {s : State}
  (hprograms : ∀ program, programs program → Admissible program)

/-! ## Chains and positions -/

theorem World.Grows.trans {w₁ w₂ w₃ : World} (h : w₁.Grows w₂) (h' : w₂.Grows w₃) :
    w₁.Grows w₃ :=
  ⟨fun _ _ hl => h'.layers _ _ (h.layers _ _ hl), fun _ _ hb => h'.binds _ _ (h.binds _ _ hb),
    fun _ _ _ hx hv => h'.keeps _ _ _ hx (h.keeps _ _ _ hx hv), fun _ hd => h'.log _ (h.log _ hd)⟩

namespace World.Matches

variable {chain : Chain} {ls : List Layer} {ss : List Scope}

theorem drop (h : w.Matches chain ls ss) : ∀ {d : Nat}, d ≤ ls.length →
    w.Matches (chain.drop d) (ls.drop d) (ss.drop d) := by
  induction h with
  | globals => intro d hd; obtain rfl := Nat.le_zero.1 hd; exact .globals
  | body hm hl hg hb ih =>
    rintro (_ | d) hd
    · exact .body hm hl hg hb
    · exact ih (Nat.le_of_succ_le_succ hd)
  | this hm hd hr ih =>
    rintro (_ | d) hd'
    · exact .this hm hd hr
    · exact ih (Nat.le_of_succ_le_succ hd')
  | super hm hl hg hs ih =>
    rintro (_ | d) hd
    · exact .super hm hl hg hs
    · exact ih (Nat.le_of_succ_le_succ hd)

theorem dropTo (h : w.Matches chain ls ss) {d : Nat} {l : Layer} {outer : List Layer}
    (hl : ls.drop d = l :: outer) : w.Matches (chain.drop d) (l :: outer) (ss.drop d) := by
  have hlen : d ≤ ls.length := by
    refine Nat.le_of_lt (Nat.lt_of_not_le fun hle => ?_)
    rw [List.drop_eq_nil_of_le hle] at hl
    cases hl
  exact hl ▸ h.drop hlen

/-- The frames of a chain were made for the layers; only the last one has no layer. -/
theorem layerOf (hglobal : w.layerOf globalFrame = none) (h : w.Matches chain ls ss) :
    ∀ {d : Nat} {f : FrameId}, chain[d]? = some f → w.layerOf f = ls[d]? := by
  induction h with
  | globals =>
    rintro (_ | d) f hf
    · cases hf; exact hglobal
    · cases hf
  | body _ hl _ _ ih =>
    rintro (_ | d) f hf
    · cases hf; exact hl
    · exact ih hf
  | this _ _ hr ih =>
    rintro (_ | d) f hf
    · cases hf; exact hr.1
    · exact ih hf
  | super _ hl _ _ ih =>
    rintro (_ | d) f hf
    · cases hf; exact hl
    · exact ih hf

/-- The frame of `super` holds the class over which the enclosing class was declared, and the
frame just inside it an object of a class that inherits from the enclosing one. -/
theorem superFrames (h : w.Matches chain ls ss)
    (hlog : ∀ d ∈ w.log, w.DeclarationOk programs d) {ref : Ref} (hat : SuperAt ls ss ref) :
    ∃ n D t f o sup, ref.hops = some (n + 1) ∧ chain[n]? = some t ∧ chain[n + 1]? = some f ∧
      D ∈ w.log ∧ Layer.enclosing ls = some D.text ∧ D.chain = chain.drop (n + 1) ∧
      D.superclass = some sup ∧ w.frames.lookup f (utf8 "super") = some (.cls sup) ∧
      w.Receiver D t o := by
  obtain ⟨n, text, rest, scopes', hhops, henclosing, hlayers, hsome, hscopes⟩ := hat
  have hdrop := h.dropTo hlayers
  rw [hscopes] at hdrop
  generalize hc : chain.drop n = c at hdrop
  cases hdrop with
  | @this t D o _ _ hm hD hr =>
    cases hs : D.superclass with
    | none =>
      rw [((hlog D hD).root hs).1] at hsome
      cases hsome
    | some sup =>
      obtain ⟨-, -, f, outer, hchain, hsup⟩ := (hlog D hD).sub sup hs
      have hget : ∀ i, chain[n + i]? = (t :: D.chain)[i]? := fun i => by
        rw [← hc, List.getElem?_drop]
      refine ⟨n, D, t, f, o, sup, hhops, hget 0, ?_, hD, henclosing, ?_, hs, hsup, hr⟩
      · rw [hget 1, hchain]
        rfl
      · rw [← List.tail_drop, hc]
        rfl

end World.Matches

/-- A scope declares only names that its layer allows. -/
theorem Nested.allows {cls : ClassContext} {ls : List Layer} {ss : List Scope}
    (h : Nested cls ls ss) : ∀ {d : Nat} {l : Layer} {scope : Scope} {x : Bytes},
    ls[d]? = some l → ss[d]? = some scope → scope.has x = true → l.Allows x := by
  have hone : ∀ {a x : Bytes}, Bindings.has x [(a, true)] = true → x = a := by
    intro a x hx
    obtain ⟨b, hb⟩ := Bindings.has_iff.1 hx
    exact (Bindings.get?_singleton hb).1
  induction h with
  | top => intro d l scope x hl; cases hl
  | body _ hs ih =>
    rintro (_ | d) l scope x hl hscope hx
    · cases hl; cases hscope; exact (hs x hx).1
    · exact ih hl hscope hx
  | plain _ _ ih =>
    rintro (_ | d) l scope x hl hscope hx
    · cases hl; cases hscope; exact hone hx
    · exact ih hl hscope hx
  | subclass _ _ ih =>
    rintro (_ | _ | d) l scope x hl hscope hx
    · cases hl; cases hscope; exact hone hx
    · cases hl; cases hscope; exact hone hx
    · exact ih hl hscope hx

include hprograms in
theorem ExprAt.nested {ls : List Layer} {ss : List Scope} {e : Expr}
    (h : ExprAt programs ls ss e) : ∃ cls, Nested cls ls ss := by
  obtain ⟨cls, e₀, r, hv, rfl, -⟩ := h
  exact ⟨cls, (hv.sound hprograms).nested⟩

/-- What `super` comes to when its two frames hold a class and an object. -/
theorem Machine.eval_super {ref : Ref} {method : Token} {tasks : List Task} {d : Nat}
    {f t : FrameId} {c : Class} {o : Instance} (hd : ref.hops = some (d + 1))
    (hf : s.env[d + 1]? = some f) (hc : s.frames.lookup f (utf8 "super") = some (.cls c))
    (ht : s.env[d]? = some t) (ho : s.frames.lookup t (utf8 "this") = some (.obj o)) :
    eval (.super ref method) tasks s = match c.findMethod method.lexeme with
      | some m => bound m o tasks s
      | none => ⟨.raised ⟨method, .undefinedProperty method.lexeme⟩, tasks, s⟩ := by
  simp only [eval, State.superMethod, hd, Option.getD_some, Nat.add_sub_cancel,
    Frames.getAt_of_lookup hf hc, Frames.getAt_of_lookup ht ho]
  cases c.findMethod method.lexeme <;> rfl

namespace World

/-! ## Machines that are in order in a later world -/

/-- The machine is in order in a later world, which has the given declarations in addition. -/
def Leads (programs : List Stmt → Prop) (w : World) (new : List Declaration) (m : Machine) :
    Prop :=
  ∃ w', w.Grows w' ∧ w'.log = new ++ w.log ∧ w'.Invariant programs m

theorem Leads.now {m : Machine} (hs : w.StoreOk programs m.state)
    (hf : w.FocusOk programs m.state.env m.tasks m.focus) : w.Leads programs [] m :=
  ⟨w, .refl w, rfl, hs, hf⟩

theorem Leads.later {m : Machine} {new : List Declaration} (hg : w.Grows w')
    (hlog : w'.log = w.log) (h : w'.Leads programs new m) : w.Leads programs new m := by
  obtain ⟨w'', hg', hlog', hm⟩ := h
  exact ⟨w'', hg.trans hg', by rw [hlog', hlog], hm⟩

/-! ## Methods and calls -/

/-- A method gets its receiver. -/
theorem StoreOk.bindMethod (h : w.StoreOk programs s) {d : Declaration} {name : Bytes}
    {m : Closure} {o : Instance} (hd : d ∈ w.log)
    (hm : d.cls.entry.methods.get? name = some m) (hsuffix : d.cls.lineage <:+ o.cls.lineage)
    (ho : w.ClassOk o.cls) :
    ∃ w', w.Grows w' ∧ w'.log = w.log ∧ w'.StoreOk programs (s.bindMethod m o).2 ∧
      w'.BoundMethod (s.bindMethod m o).1 ∧
      w'.frames.lookup s.frames.size (utf8 "this") = some (.obj o) := by
  obtain ⟨-, hchain, -⟩ := (h.log d hd).method hm
  obtain ⟨_, _, hmatch, -⟩ := (h.log d hd).chain
  let vars : Bindings Value := [(utf8 "this", .obj o)]
  have hg := h.grows_push (.this d.text) vars
  have hthis := h.lookup_push (.this d.text) vars (utf8 "this")
  refine ⟨w.push (.this d.text) vars, hg, rfl, h.push ?_ ?_, ?_, hthis⟩
  · intro x v hx
    obtain ⟨-, rfl⟩ := Bindings.get?_singleton hx
    exact ho
  · intro x hx
    obtain ⟨v, hv⟩ := Bindings.has_iff.1 hx
    exact (Bindings.get?_singleton hv).1
  · refine ⟨d, hg.log d hd, name, m, s.frames.size, o, hm, rfl, ?_, ho.mono hg⟩
    exact ⟨h.layerOf_push _ _, hmatch.mem_lt h, hthis, hsuffix⟩

theorem StoreOk.bound (h : w.StoreOk programs s) {d : Declaration} {name : Bytes}
    {m : Closure} {o : Instance} {ls : List Layer} {ss : List Scope} {tasks : List Task}
    (hd : d ∈ w.log) (hm : d.cls.entry.methods.get? name = some m)
    (hsuffix : d.cls.lineage <:+ o.cls.lineage) (ho : w.ClassOk o.cls)
    (hmatch : w.Matches s.env ls ss) (hw : w.Waits programs .value s.env ls ss tasks) :
    w.Leads programs [] (Machine.bound m o tasks s) := by
  obtain ⟨w', hg, hlog, hstore, hbound, -⟩ := h.bindMethod hd hm hsuffix ho
  refine .later hg hlog (.now (hstore.congr rfl rfl (Nat.le_succ _)) ?_)
  exact ⟨.inr hbound, ls, ss, hmatch.mono hg, hw.mono hg⟩

theorem StoreOk.leads_push (h : w.StoreOk programs s) {l : Layer} {vars : Bindings Value}
    {m : Machine} (hm : (w.push l vars).Invariant programs m) : w.Leads programs [] m :=
  ⟨_, h.grows_push l vars, rfl, hm⟩

/-- A new frame with bindings for a block or a body, entered. -/
theorem StoreOk.enterBody (h : w.StoreOk programs s) {chain : Chain} {names : List Bytes}
    {ls ls' : List Layer} {scope : Scope} {ss ss' inner : List Scope} {body : List Stmt}
    {vars : Bindings Value} {tasks : List Task} (hmatch : w.Matches chain ls ss)
    (hbody : StmtsAt programs (.body names :: ls) (scope :: ss) inner body)
    (hvals : ∀ x v, vars.get? x = some v → w.ValueOk programs v)
    (hnames : ∀ x, vars.has x = true → x ∈ names)
    (hscope : ∀ x, scope.get? x = some true → vars.has x = true)
    (henv : w.Matches s.env ls' ss') (hw : w.Waits programs .done s.env ls' ss' tasks) :
    (w.push (.body names) vars).Invariant programs (Machine.enterBody body
      (s.newFrame chain vars).1 tasks (s.newFrame chain vars).2) := by
  have hg := h.grows_push (.body names) vars
  have hstore := h.push (l := .body names) hvals hnames
  refine ⟨hstore.congr (State.frames_enter _ _) (State.fields_enter _ _)
    (Nat.le_of_eq (State.nextId_enter _ _).symm), ?_⟩
  simp only [Machine.enterBody, State.env_enter]
  refine ⟨.body names :: ls, scope :: ss, ?_, .sequence hbody (.leave (henv.mono hg) (hw.mono hg))⟩
  refine .body (hmatch.mono hg) (h.layerOf_push _ _) (hmatch.mem_lt h) fun x hx => ?_
  obtain ⟨v, hv⟩ := Bindings.has_iff.1 (hscope x hx)
  exact Frames.binds_iff.2 ⟨v, (h.lookup_push _ _ x).trans hv⟩

/-- A block is entered with an empty frame. -/
theorem StoreOk.enterBlock (h : w.StoreOk programs s) (token : Token) {names : List Bytes}
    {ls : List Layer} {ss inner : List Scope} {body : List Stmt} {tasks : List Task}
    (hmatch : w.Matches s.env ls ss)
    (hbody : StmtsAt programs (.body names :: ls) ([] :: ss) inner body)
    (hw : w.Waits programs .done s.env ls ss tasks) :
    (w.push (.body names) []).Invariant programs (Machine.exec (.block token body) tasks s) :=
  h.enterBody hmatch hbody nofun nofun nofun hmatch hw

/-- Binding values to the parameters binds exactly the parameters. -/
theorem get?_arguments : ∀ {params : List Token} {args : List Value} (b : Bindings Value)
    {x : Bytes} {v : Value},
    ((params.zip args).foldl (fun b (p, v) => Bindings.insert p.lexeme v b) b).get? x = some v →
    (v ∈ args ∧ x ∈ params.map (·.lexeme)) ∨ b.get? x = some v
  | [], _, _, _, _, h => .inr h
  | _ :: _, [], _, _, _, h => .inr h
  | p :: params, a :: args, b, x, v, h => by
    rcases get?_arguments (b.insert p.lexeme a) h with ⟨hv, hx⟩ | h
    · exact .inl ⟨List.mem_cons_of_mem _ hv, List.mem_cons_of_mem _ hx⟩
    · rw [Bindings.get?_insert] at h
      split at h
      · rename_i hp
        cases h
        exact .inl ⟨List.mem_cons_self, by simp [hp]⟩
      · exact .inr h

theorem has_arguments : ∀ {params : List Token} {args : List Value} (b : Bindings Value)
    {x : Bytes}, args.length = params.length →
    x ∈ params.map (·.lexeme) ∨ b.has x = true →
    ((params.zip args).foldl (fun b (p, v) => Bindings.insert p.lexeme v b) b).has x = true
  | [], _, _, _, _, h => h.resolve_left (by simp)
  | p :: params, a :: args, b, x, hlen, h => by
    refine has_arguments (b.insert p.lexeme a) (Nat.succ.inj hlen) ?_
    rw [Bindings.has_insert]
    simp only [List.map_cons, List.mem_cons] at h
    rcases h with (rfl | h) | h
    · simp
    · exact .inl h
    · simp [h]

/-- One more call does not change the store. -/
theorem StoreOk.called (h : w.StoreOk programs s) :
    w.StoreOk programs { s with callDepth := s.callDepth + 1 } := h.congr rfl rfl (Nat.le_refl _)

theorem StoreOk.enterFunction (h : w.StoreOk programs s) {c : Closure} {args : List Value}
    {exit : CallExit} {ls : List Layer} {ss : List Scope} {tasks : List Task}
    (hc : w.Callable programs c) (hargs : ∀ v ∈ args, w.ValueOk programs v)
    (hlen : args.length = c.arity) (hexit : w.ExitOk exit) (hmatch : w.Matches s.env ls ss)
    (hw : w.Waits programs .value s.env ls ss tasks) :
    w.Leads programs [] (Machine.enterFunction c args exit tasks s) := by
  obtain ⟨fn, ls', ss', hchain, hfun⟩ := hc
  obtain ⟨⟨name, params, body⟩, chain, isInit⟩ := c
  obtain ⟨names, inner, hbody, hparams⟩ := hfun.parts
  refine h.leads_push (h.enterBody hchain hbody (fun x v hv => ?_) (fun x hx => ?_)
    (fun x hx => ?_) hmatch (.endCall hexit hmatch hw))
  · exact hargs v ((get?_arguments [] hv).resolve_right (by simp [Bindings.get?])).1
  · obtain ⟨v, hv⟩ := Bindings.has_iff.1 hx
    obtain ⟨p, hp, rfl⟩ := List.mem_map.1
      ((get?_arguments [] hv).resolve_right (by simp [Bindings.get?])).2
    exact hparams p hp
  · have hhas := Resolver.has_parameterScope.1 (Bindings.has_iff.2 ⟨true, hx⟩)
    exact has_arguments [] hlen (.inl hhas)

include hprograms in
theorem StoreOk.invoke (h : w.StoreOk programs s) {callee : Value} {args : List Value}
    {ls : List Layer} {ss : List Scope} {tasks : List Task} (hc : w.ValueOk programs callee)
    (hargs : ∀ v ∈ args, w.ValueOk programs v) (hlen : callee.arity? = some args.length)
    (hmatch : w.Matches s.env ls ss) (hw : w.Waits programs .value s.env ls ss tasks) :
    w.Leads programs [] (Machine.invoke callee args tasks s) := by
  cases callee with
  | function f =>
    have hcall : w.Callable programs f.closure :=
      hc.elim (fun hp => ⟨_, hp.2⟩) (fun hb => hb.callable h.log hprograms)
    have hexit : w.ExitOk (if f.closure.isInit then .receiver f.closure.chain else .returned) := by
      split
      · rename_i hinit
        rcases hc with hp | ⟨d, -, _, m, t, o, -, hclosure, hr, ho⟩
        · rw [hp.1] at hinit; cases hinit
        · exact ⟨t, m.chain, o, by rw [hclosure], hr.2.2.1, ho⟩
      · trivial
    exact h.called.enterFunction hcall hargs (Option.some.inj hlen).symm hexit hmatch hw
  | cls c =>
    have hc : w.ClassOk c := hc
    have hobj := h.newObject c
    simp only [Machine.invoke]
    cases hinit : c.initializer? with
    | none => exact .now hobj ⟨hc, ls, ss, hmatch, hw⟩
    | some init =>
      obtain ⟨d, hd, hsuffix, hm⟩ := hc.findMethod h.log hinit
      obtain ⟨w', hg, hlog, hstore, hbound, -⟩ :=
        hobj.bindMethod (o := ⟨s.fields.size, c⟩) hd hm hsuffix hc
      have hlen : args.length = init.arity := by
        simpa [Value.arity?, Class.arity, hinit] using hlen.symm
      exact .later hg hlog (hstore.called.enterFunction (hbound.callable hstore.log hprograms)
        (fun v hv => (hargs v hv).mono hg) hlen (hc.mono hg) (hmatch.mono hg) (hw.mono hg))
  | builtin b =>
    cases b
    exact .now (h.congr rfl rfl (Nat.le_refl _)) ⟨trivial, ls, ss, hmatch, hw⟩
  | _ => exact .now h ⟨trivial, ls, ss, hmatch, hw⟩

include hprograms in
theorem StoreOk.call (h : w.StoreOk programs s) {paren : Token} {callee : Value}
    {args : List Value} {ls : List Layer} {ss : List Scope} {tasks : List Task}
    (hc : w.ValueOk programs callee) (hargs : ∀ v ∈ args, w.ValueOk programs v)
    (hmatch : w.Matches s.env ls ss) (hw : w.Waits programs .value s.env ls ss tasks) :
    w.Leads programs [] (Machine.call paren callee args tasks s) := by
  have hraise : ∀ e, w.Leads programs [] ⟨.raised e, tasks, s⟩ := fun _ => .now h ⟨_, _, _, hw⟩
  unfold Machine.call
  cases harity : callee.arity? with
  | none => exact hraise _
  | some n =>
    dsimp only
    split
    · exact hraise _
    · rename_i hlen
      have hlen : args.length = n := by simpa using hlen
      split
      · exact hraise _
      · have hlogged : w.StoreOk programs (s.log (.call callee.inspect args.length)) :=
          h.congr (State.frames_log _ _) (State.fields_log _ _)
            (Nat.le_of_eq (State.nextId_log _ _).symm)
        exact hlogged.invoke hprograms hc hargs (hlen ▸ harity) (by rwa [State.env_log])
          (by rwa [State.env_log])

/-! ## Variables and classes -/

/-- A variable that is bound already gets a new value. -/
theorem StoreOk.assignNearest (h : w.StoreOk programs s) {chain : Chain} {name : Token}
    {v : Value} {result : Focus} {tasks : List Task} (hx : Ordinary name.lexeme)
    (hv : w.ValueOk programs v)
    (hresult : ∀ w', w.Grows w' → w'.FocusOk programs s.env tasks result)
    (hraise : ∀ e, w.FocusOk programs s.env tasks (.raised e)) :
    w.Leads programs [] (Machine.assignNearest chain name v result tasks s) := by
  unfold Machine.assignNearest
  cases hn : s.frames.nearest? chain name.lexeme with
  | none => exact .now h (hraise _)
  | some f =>
    have hbinds : s.frames.binds f name.lexeme = true :=
      List.find?_some (p := (s.frames.binds · name.lexeme)) hn
    have hg : w.Grows (w.define f name.lexeme v) := grows_define hx
    have hstore := h.define hx (hv.mono hg) fun l hl => h.names f _ l hl hbinds
    exact .later hg rfl (.now hstore (hresult _ hg))

include hprograms in
theorem StoreOk.assign (h : w.StoreOk programs s) {ref : Ref} {e : Expr} {v : Value}
    {ls : List Layer} {ss : List Scope} {tasks : List Task}
    (hat : ExprAt programs ls ss (.assign ref e)) (hv : w.ValueOk programs v)
    (hmatch : w.Matches s.env ls ss) (hw : w.Waits programs .value s.env ls ss tasks) :
    w.Leads programs [] (Machine.assign ref v tasks s) := by
  obtain ⟨hpinned, -⟩ : Pinned ss ref ∧ _ := hat.parts hprograms
  obtain ⟨cls, hnested⟩ := hat.nested hprograms
  have hresult : ∀ w', w.Grows w' → w'.FocusOk programs s.env tasks (.value v) :=
    fun w' hg => ⟨hv.mono hg, ls, ss, hmatch.mono hg, hw.mono hg⟩
  unfold Machine.assign
  cases hhops : ref.hops with
  | none => exact h.assignNearest hpinned.ordinary hv hresult fun _ => ⟨_, _, _, hw⟩
  | some d =>
    obtain ⟨scope, hscope, hhas, -⟩ := hopsTo_some (hpinned.hops.symm.trans hhops)
    simp only [Frames.assignAt]
    cases hf : s.env[d]? with
    | none => exact .now h (hresult w (.refl w))
    | some f =>
      have hallows : ∀ l, w.layerOf f = some l → l.Allows ref.name.lexeme := fun l hl =>
        hnested.allows ((hmatch.layerOf h.globalLayer hf).symm.trans hl) hscope hhas
      have hg : w.Grows (w.define f ref.name.lexeme v) := grows_define hpinned.ordinary
      exact .later hg rfl (.now (h.define hpinned.ordinary (hv.mono hg) hallows) (hresult _ hg))

end World

/-- What declaring a class over the given superclass comes to. -/
def State.declaration (s : State) (text : ClassText) (superclass : Option Class) : Declaration :=
  let chain := (s.classChain superclass).1
  { text, superclass, chain
    cls := ⟨⟨s.nextId, text.name.lexeme, State.methodTable chain text.methods⟩,
      match superclass with
      | some c => c.lineage
      | none => []⟩ }

/-- The state with the class of a declaration, before the class has its name. -/
def State.withClass (s : State) (d : Declaration) : State :=
  { (s.classChain d.superclass).2 with nextId := s.nextId + 1 }.log
    (.declareClass d.cls.entry.name d.cls.entry.methods.length)

theorem State.nextId_classChain (superclass : Option Class) :
    (s.classChain superclass).2.nextId = s.nextId := by
  cases superclass <;> rfl

theorem State.frames_withClass (d : Declaration) :
    (s.withClass d).frames = (s.classChain d.superclass).2.frames := State.frames_log _ _

theorem State.fields_withClass (d : Declaration) :
    (s.withClass d).fields = (s.classChain d.superclass).2.fields := State.fields_log _ _

theorem State.nextId_withClass (d : Declaration) : (s.withClass d).nextId = s.nextId + 1 :=
  State.nextId_log _ _

theorem State.env_withClass (d : Declaration) : (s.withClass d).env = s.env := by
  rw [withClass, env_log]
  cases d.superclass <;> rfl

theorem Machine.declareClass_eq (name : Token) (ref : Option Ref) (superclass : Option Class)
    (methods : List FunDecl) (tasks : List Task) :
    declareClass name superclass methods tasks s =
      let d := s.declaration ⟨name, ref, methods⟩ superclass
      assignNearest s.env name (.cls d.cls) .done tasks (s.withClass d) := by
  have henv := State.env_withClass (s := s) (s.declaration ⟨name, ref, methods⟩ superclass)
  cases superclass with
  | none => exact congrArg (assignNearest · name _ .done tasks _) henv
  | some c => exact congrArg (assignNearest · name _ .done tasks _) henv

/-- The class declarations that the next step carries out. -/
def Machine.declares : Machine → List Declaration
  | ⟨.exec (.classDecl _ name none methods), _, s⟩ =>
    [(s.defineHere name.lexeme .nil).declaration ⟨name, none, methods⟩ none]
  | ⟨.value (.cls c), .superclass name ref methods :: _, s⟩ =>
    [s.declaration ⟨name, some ref, methods⟩ (some c)]
  | _ => []

namespace World

/-- A class in the log is newer than all classes it inherits from. -/
theorem StoreOk.lineage_id (h : w.StoreOk programs s) {c : Class} (hc : w.ClassOk c) :
    ∀ e ∈ c.lineage, e.id < s.nextId := by
  intro e he
  obtain ⟨d, hd, rfl, -⟩ := hc.lineage h.log _ rfl e he
  exact h.ids d hd

/-- The frame for `super`, if there is a superclass. -/
theorem StoreOk.classChain (h : w.StoreOk programs s) (text : ClassText)
    {superclass : Option Class} {ls : List Layer} {ss : List Scope}
    (hsome : text.superclass.isSome = superclass.isSome)
    (hc : ∀ c, superclass = some c → w.ClassOk c) (hmatch : w.Matches s.env ls ss) :
    ∃ w' outer scopes, w.Grows w' ∧ w'.log = w.log ∧
      w'.StoreOk programs (s.classChain superclass).2 ∧
      w'.Matches (s.classChain superclass).1 outer scopes ∧
      text.inner ls ss = (.this text :: outer, thisScope :: scopes) ∧
      ∀ c, superclass = some c → ∃ f outer, (s.classChain superclass).1 = f :: outer ∧
        w'.frames.lookup f (utf8 "super") = some (.cls c) := by
  cases superclass with
  | none =>
    have htext : text.superclass = none := by simpa using hsome
    exact ⟨w, ls, ss, .refl w, rfl, h, hmatch, by rw [ClassText.inner, htext],
      fun c hc => by cases hc⟩
  | some c =>
    obtain ⟨ref, htext⟩ := Option.isSome_iff_exists.1 hsome
    let vars : Bindings Value := [(utf8 "super", .cls c)]
    have hg := h.grows_push (.super text) vars
    have hsuper := h.lookup_push (.super text) vars (utf8 "super")
    refine ⟨w.push (.super text) vars, .super text :: ls, superScope :: ss, hg, rfl,
      h.push ?_ ?_, ?_, by rw [ClassText.inner, htext], ?_⟩
    · intro x v hx
      obtain ⟨-, rfl⟩ := Bindings.get?_singleton hx
      exact hc c rfl
    · intro x hx
      obtain ⟨v, hv⟩ := Bindings.has_iff.1 hx
      exact (Bindings.get?_singleton hv).1
    · exact .super (hmatch.mono hg) (h.layerOf_push _ _) (hmatch.mem_lt h) hsuper
    · intro c' hc'
      cases hc'
      exact ⟨s.frames.size, s.env, rfl, hsuper⟩

theorem StoreOk.declareClass (h : w.StoreOk programs s) {name : Token} {ref : Option Ref}
    {superclass : Option Class} {methods : List FunDecl} {ls : List Layer} {ss : List Scope}
    {tasks : List Task} (hx : Ordinary name.lexeme) (hsome : ref.isSome = superclass.isSome)
    (hc : ∀ c, superclass = some c → w.ClassOk c)
    (hmethods : MethodsAt programs (ClassText.inner ⟨name, ref, methods⟩ ls ss).1
      (ClassText.inner ⟨name, ref, methods⟩ ls ss).2 methods)
    (hmatch : w.Matches s.env ls ss) (hw : w.Waits programs .done s.env ls ss tasks) :
    w.Leads programs [s.declaration ⟨name, ref, methods⟩ superclass]
      (Machine.declareClass name superclass methods tasks s) := by
  obtain ⟨w', outer, scopes, hg, hlog, hstore, hchain, hinner, hsuper⟩ :=
    h.classChain ⟨name, ref, methods⟩ hsome hc hmatch
  generalize hd : s.declaration ⟨name, ref, methods⟩ superclass = d
  have hg' : w'.Grows (w'.record d) := grows_record d
  have hdecl : (w'.record d).DeclarationOk programs d := by
    subst hd
    refine ⟨rfl, rfl, ⟨outer, scopes, hchain.mono hg', ?_⟩, fun hroot => ?_, fun c hsup => ?_, ?_⟩
    · rw [hinner] at hmethods
      exact hmethods
    · have hnone : superclass = none := hroot
      subst hnone
      exact ⟨(by simpa using hsome : ref = none), rfl⟩
    · have hsup : superclass = some c := hsup
      obtain ⟨f, outer, hf, hlook⟩ := hsuper c hsup
      exact ⟨by subst hsup; rfl, ((hc c hsup).mono hg).mono hg', f, outer, hf, hlook⟩
    · cases superclass with
      | none => intro e he; cases he
      | some c => exact h.lineage_id (hc c rfl)
  have hrecorded : (w'.record d).StoreOk programs (s.withClass d) := by
    subst hd
    refine (hstore.congr (State.frames_withClass _) (State.fields_withClass _) ?_).record hdecl ?_
    · rw [State.nextId_withClass, State.nextId_classChain]
      exact Nat.le_succ _
    · rw [State.nextId_withClass]
      exact Nat.lt_succ_self _
  have hgrow := hg.trans hg'
  have henv : (s.withClass d).env = s.env := State.env_withClass d
  have hassigned : (w'.record d).Leads programs []
      (Machine.assignNearest s.env name (.cls d.cls) .done tasks (s.withClass d)) :=
    hrecorded.assignNearest hx ⟨d, List.mem_cons_self, rfl⟩
      (fun w'' hg'' => henv ▸ ⟨ls, ss, (hmatch.mono hgrow).mono hg'', (hw.mono hgrow).mono hg''⟩)
      (fun e => henv ▸ ⟨_, _, _, hw.mono hgrow⟩)
  obtain ⟨w'', hg'', hlog'', hinv⟩ := hassigned
  refine ⟨w'', hgrow.trans hg'', ?_, ?_⟩
  · rw [hlog'']
    show d :: w'.log = _
    rw [hlog]
    rfl
  · rw [Machine.declareClass_eq name ref superclass methods, hd]
    exact hinv

end World

end Lox
