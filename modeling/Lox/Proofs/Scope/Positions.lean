import Lox.Proofs.Scope.Visits
/-!
# Resolved code and the scopes around it

Code that runs is what the resolver made of a node, so it comes with the scopes that were open at
that node. `ExprAt`, `StmtAt` and their kin say that a piece of resolved code belongs to a position
with given layers and scopes; the `parts` lemmas take such code apart the way the machine does.
At a reference they tell what its distance points at.
-/

namespace Lox

open Resolver

variable (programs : List Stmt → Prop)

/-- A resolved expression, with the layers and scopes at it. -/
def ExprAt (layers : List Layer) (scopes : List Scope) (e : Expr) : Prop :=
  ∃ cls e₀ r, Visits programs ⟨.expr cls e₀, layers, r⟩ ∧ r.scopes = scopes ∧
    (expression cls e₀ r).1 = e

def ExprsAt (layers : List Layer) (scopes : List Scope) (es : List Expr) : Prop :=
  ∃ cls es₀ r, Visits programs ⟨.exprs cls es₀, layers, r⟩ ∧ r.scopes = scopes ∧
    (expressions cls es₀ r).1 = es

/-- A resolved statement, with the scopes before and after it. -/
def StmtAt (layers : List Layer) (scopes scopes' : List Scope) (s : Stmt) : Prop :=
  ∃ fn cls s₀ r, Visits programs ⟨.stmt fn cls s₀, layers, r⟩ ∧ r.scopes = scopes ∧
    (statement fn cls s₀ r).1 = s ∧ (statement fn cls s₀ r).2.scopes = scopes'

def StmtsAt (layers : List Layer) (scopes scopes' : List Scope) (ss : List Stmt) : Prop :=
  ∃ fn cls ss₀ r, Visits programs ⟨.stmts fn cls ss₀, layers, r⟩ ∧ r.scopes = scopes ∧
    (statements fn cls ss₀ r).1 = ss ∧ (statements fn cls ss₀ r).2.scopes = scopes'

/-- A resolved function of the given kind, with the scopes around it. -/
def FunAt (fn : FunctionContext) (layers : List Layer) (scopes : List Scope) (f : FunDecl) :
    Prop :=
  ∃ cls f₀ r, Visits programs ⟨.function fn cls f₀, layers, r⟩ ∧ r.scopes = scopes ∧
    (function fn cls f₀ r).1 = f

def MethodsAt (layers : List Layer) (scopes : List Scope) (fs : List FunDecl) : Prop :=
  ∃ cls fs₀ r, Visits programs ⟨.methods cls fs₀, layers, r⟩ ∧ r.scopes = scopes ∧
    (methods cls fs₀ r).1 = fs

/-! ## References -/

/-- A variable that is pinned to the nearest scope that declares it. -/
structure Pinned (scopes : List Scope) (ref : Ref) : Prop where
  hops : ref.hops = hopsTo scopes ref.name.lexeme
  ordinary : Ordinary ref.name.lexeme

/-- A variable that can be read: its scope has seen its initializer. -/
structure Readable (scopes : List Scope) (ref : Ref) : Prop extends Pinned scopes ref where
  ready : ∀ d, ref.hops = some d → ∃ scope, scopes[d]? = some scope ∧
    scope.get? ref.name.lexeme = some true

/-- The innermost class around a position. -/
def Layer.enclosing : List Layer → Option ClassText
  | [] => none
  | .this text :: _ => some text
  | .body _ :: layers | .super _ :: layers => enclosing layers

/-- `this` points at the scope of the class around it. -/
def ThisAt (layers : List Layer) (scopes : List Scope) (ref : Ref) : Prop :=
  ref.name.lexeme = utf8 "this" ∧ ∃ d text outer scopes', ref.hops = some d ∧
    (∀ i < d, ∃ names, layers[i]? = some (.body names)) ∧
    layers.drop d = .this text :: outer ∧ scopes.drop d = thisScope :: scopes'

/-- `super` points at the scope just around that of `this`. -/
def SuperAt (layers : List Layer) (scopes : List Scope) (ref : Ref) : Prop :=
  ∃ d text outer scopes', ref.hops = some (d + 1) ∧ Layer.enclosing layers = some text ∧
    layers.drop d = .this text :: .super text :: outer ∧ text.superclass.isSome = true ∧
    scopes.drop d = thisScope :: superScope :: scopes'

theorem hopsTo_some {scopes : List Scope} {name : Bytes} {d : Nat}
    (h : hopsTo scopes name = some d) : ∃ scope, scopes[d]? = some scope ∧ scope.has name = true ∧
      ∀ i scope', i < d → scopes[i]? = some scope' → scope'.has name = false := by
  obtain ⟨hd, hhas, hmin⟩ := List.findIdx?_eq_some_iff_getElem.1 h
  refine ⟨scopes[d], List.getElem?_eq_getElem hd, hhas, fun i scope' hi hs => ?_⟩
  obtain ⟨hlt, rfl⟩ := List.getElem?_eq_some_iff.1 hs
  simpa using hmin i hi

theorem hopsTo_none {scopes : List Scope} {name : Bytes} (h : hopsTo scopes name = none) :
    ∀ scope ∈ scopes, scope.has name = false := by
  simpa [hopsTo, List.findIdx?_eq_none_iff] using h

theorem hopsTo_cons (scope : Scope) (scopes : List Scope) (name : Bytes) :
    hopsTo (scope :: scopes) name =
      if scope.has name then some 0 else (hopsTo scopes name).map (· + 1) := by
  simp only [hopsTo, List.findIdx?_cons]

theorem pin_run {ref : Ref} (h : ref.hops = none) (name : Bytes) (r : Resolver) :
    (pin ref name r).1 = ⟨ref.name, hopsTo r.scopes name⟩ := by
  obtain ⟨token, hops⟩ := ref
  cases h
  simp only [pin, bind, StateT.bind, get, getThe, MonadStateOf.get, StateT.get, pure]
  cases hopsTo r.scopes name <;> rfl

theorem has_body {names : List Bytes} {scope : Scope}
    (h : ∀ x, scope.has x = true → x ∈ names ∧ Ordinary x) {x : Bytes} (hx : ¬ Ordinary x) :
    scope.has x = false := by
  cases hs : scope.has x with
  | false => rfl
  | true => exact absurd (h x hs).2 hx

theorem not_ordinary_this : ¬ Ordinary (utf8 "this") := fun h => h.1 rfl

theorem not_ordinary_super : ¬ Ordinary (utf8 "super") := fun h => h.2 rfl

/-- Inside a class, `this` is found. -/
theorem Nested.this {cls : ClassContext} {layers : List Layer} {scopes : List Scope}
    (h : Nested cls layers scopes) (hcls : cls ≠ .none) :
    ∃ d text outer scopes', hopsTo scopes (utf8 "this") = some d ∧
      (∀ i < d, ∃ names, layers[i]? = some (.body names)) ∧
      layers.drop d = .this text :: outer ∧ scopes.drop d = thisScope :: scopes' := by
  induction h with
  | top => exact absurd rfl hcls
  | body _ hs ih =>
    obtain ⟨d, text, outer, scopes', hd, hb, hl, hsc⟩ := ih hcls
    refine ⟨d + 1, text, outer, scopes', ?_, fun i hi => ?_, hl, hsc⟩
    · rw [hopsTo_cons, has_body hs not_ordinary_this, hd]
      rfl
    · cases i with
      | zero => exact ⟨_, rfl⟩
      | succ i => exact hb i (Nat.lt_of_succ_lt_succ hi)
  | plain _ _ _ => exact ⟨0, _, _, _, rfl, fun i hi => absurd hi (Nat.not_lt_zero i), rfl, rfl⟩
  | subclass _ _ _ =>
    exact ⟨0, _, _, _, rfl, fun i hi => absurd hi (Nat.not_lt_zero i), rfl, rfl⟩

/-- Inside a subclass, `super` is found just outside `this`. -/
theorem Nested.super {cls : ClassContext} {layers : List Layer} {scopes : List Scope}
    (h : Nested cls layers scopes) (hcls : cls = .subclass) :
    ∃ d text outer scopes', hopsTo scopes (utf8 "super") = some (d + 1) ∧
      Layer.enclosing layers = some text ∧
      layers.drop d = .this text :: .super text :: outer ∧ text.superclass.isSome = true ∧
      scopes.drop d = thisScope :: superScope :: scopes' := by
  induction h with
  | top => cases hcls
  | body _ hs ih =>
    obtain ⟨d, text, outer, scopes', hd, he, hl, ht, hsc⟩ := ih hcls
    refine ⟨d + 1, text, outer, scopes', ?_, he, hl, ht, hsc⟩
    rw [hopsTo_cons, has_body hs not_ordinary_super, hd]
    rfl
  | plain _ _ _ => cases hcls
  | subclass _ ht _ => exact ⟨0, _, _, _, rfl, rfl, rfl, ht, rfl⟩

variable {programs} (hprograms : ∀ program, programs program → Admissible program)
  {cls : ClassContext} {layers : List Layer} {r : Resolver}

theorem variableRef_readable {ref : Ref} (hp : ref.Proper)
    (hready : ∀ scope ∈ r.scopes.tail, scope.Ready) (hc : (variableRef ref r).2.errors = []) :
    Readable r.scopes (variableRef ref r).1 := by
  rw [variableRef_run] at hc ⊢
  have hown : inOwnInitializer r.scopes ref.name.lexeme = false := by
    simpa using check_clean (r := r) hc
  have hrun : (((check (inOwnInitializer r.scopes ref.name.lexeme = true) ref.name
      .ownInitializer >>= fun _ => pin ref ref.name.lexeme) r).1) =
      ⟨ref.name, hopsTo r.scopes ref.name.lexeme⟩ := by
    rw [hown]
    exact pin_run hp.1 _ r
  rw [hrun]
  refine ⟨⟨rfl, hp.2⟩, fun d hd => ?_⟩
  obtain ⟨scope, hs, hhas, -⟩ := hopsTo_some hd
  obtain ⟨b, hb⟩ := Bindings.has_iff.1 hhas
  refine ⟨scope, hs, ?_⟩
  cases hscopes : r.scopes with
  | nil => rw [hscopes] at hs; cases hs
  | cons first outer =>
    rw [hscopes] at hs hready hown
    cases d with
    | zero =>
      cases hs
      cases b with
      | true => exact hb
      | false => simp [inOwnInitializer, hb] at hown
    | succ d =>
      have := hready scope (List.mem_of_getElem? hs) _ _ hb
      rw [hb, this]

/-! ## The parts of expressions -/

/-- The parts of a resolved expression, with the same layers and scopes around them. -/
def Expr.Parts (programs : List Stmt → Prop) (layers : List Layer) (scopes : List Scope) :
    Expr → Prop
  | .literal _ _ => True
  | .grouping _ e | .unary _ _ e | .get e _ => ExprAt programs layers scopes e
  | .binary _ _ a b | .logical _ _ a b | .set a _ b =>
    ExprAt programs layers scopes a ∧ ExprAt programs layers scopes b
  | .var ref => Readable scopes ref
  | .assign ref v => Pinned scopes ref ∧ ExprAt programs layers scopes v
  | .call _ f args => ExprAt programs layers scopes f ∧ ExprsAt programs layers scopes args
  | .this ref => ThisAt layers scopes ref
  | .super ref _ => SuperAt layers scopes ref

include hprograms in
theorem ExprAt.parts {scopes : List Scope} {e : Expr} (h : ExprAt programs layers scopes e) :
    e.Parts programs layers scopes := by
  obtain ⟨cls, e₀, r, hv, rfl, rfl⟩ := h
  have hsound := hv.sound hprograms
  have hc : (expression cls e₀ r).2.errors = [] := hsound.clean
  have hp : e₀.Proper := hsound.proper
  have hnested : Nested cls layers r.scopes := hsound.nested
  cases e₀ with
  | literal _ _ => rw [expression]; trivial
  | grouping _ e => rw [expression]; exact ⟨cls, e, r, hv.call (.head _), rfl, rfl⟩
  | unary _ _ e => rw [expression]; exact ⟨cls, e, r, hv.call (.head _), rfl, rfl⟩
  | get e _ => rw [expression]; exact ⟨cls, e, r, hv.call (.head _), rfl, rfl⟩
  | binary _ _ a b =>
    rw [expression]
    exact ⟨⟨cls, a, r, hv.call (.head _), rfl, rfl⟩,
      ⟨cls, b, _, hv.call (.tail _ (.head _)), (keeps_expression cls a r).1, rfl⟩⟩
  | logical _ _ a b =>
    rw [expression]
    exact ⟨⟨cls, a, r, hv.call (.head _), rfl, rfl⟩,
      ⟨cls, b, _, hv.call (.tail _ (.head _)), (keeps_expression cls a r).1, rfl⟩⟩
  | set o _ v =>
    rw [expression]
    exact ⟨⟨cls, o, _, hv.call (.tail _ (.head _)), (keeps_expression cls v r).1, rfl⟩,
      ⟨cls, v, r, hv.call (.head _), rfl, rfl⟩⟩
  | call _ f args =>
    rw [expression]
    exact ⟨⟨cls, f, r, hv.call (.head _), rfl, rfl⟩,
      ⟨cls, args, _, hv.call (.tail _ (.head _)), (keeps_expression cls f r).1, rfl⟩⟩
  | var ref =>
    rw [expression] at hc ⊢
    exact variableRef_readable hp hsound.ready hc
  | assign ref v =>
    rw [expression]
    have hkeep := (keeps_expression cls v r).1
    refine ⟨?_, ⟨cls, v, r, hv.call (.head _), rfl, rfl⟩⟩
    show Pinned r.scopes (pin ref ref.name.lexeme (expression cls v r).2).1
    rw [pin_run hp.1.1, hkeep]
    exact ⟨rfl, hp.1.2⟩
  | this ref =>
    rw [expression] at hc ⊢
    split at hc
    · cases hc
    · rename_i hcls
      rw [if_neg hcls]
      obtain ⟨d, text, outer, scopes', hd, hb, hl, hs⟩ := hnested.this hcls
      show ThisAt layers r.scopes (pin ref (utf8 "this") r).1
      rw [pin_run hp.1]
      exact ⟨hp.2, d, text, outer, scopes', hd, hb, hl, hs⟩
  | super ref m =>
    rw [expression_super] at hc ⊢
    have hcls := checkSuper_clean (r := r) hc
    subst hcls
    obtain ⟨d, text, outer, scopes', hd, he, hl, ht, hs⟩ := hnested.super rfl
    show SuperAt layers r.scopes (pin ref (utf8 "super") r).1
    rw [pin_run hp]
    exact ⟨d, text, outer, scopes', hd, he, hl, ht, hs⟩

theorem ExprsAt.parts {scopes : List Scope} {e : Expr} {es : List Expr}
    (h : ExprsAt programs layers scopes (e :: es)) :
    ExprAt programs layers scopes e ∧ ExprsAt programs layers scopes es := by
  obtain ⟨cls, es₀, r, hv, rfl, he⟩ := h
  cases es₀ with
  | nil => rw [expressions] at he; cases he
  | cons e₀ es₀ =>
    rw [expressions] at he
    cases he
    exact ⟨⟨cls, e₀, r, hv.call (.head _), rfl, rfl⟩,
      ⟨cls, es₀, _, hv.call (.tail _ (.head _)), (keeps_expression cls e₀ r).1, rfl⟩⟩

/-! ## The parts of statements -/

/-- The scopes in which the methods of a class are resolved, and the layers there. -/
def ClassText.inner (text : ClassText) (layers : List Layer) (scopes : List Scope) :
    List Layer × List Scope :=
  match text.superclass with
  | some _ => (.this text :: .super text :: layers, thisScope :: superScope :: scopes)
  | none => (.this text :: layers, thisScope :: scopes)

/-- The parts of a resolved statement, with the layers and scopes around them; the scopes after
the statement are `scopes'`. -/
def Stmt.Parts (programs : List Stmt → Prop) (layers : List Layer) (scopes scopes' : List Scope) :
    Stmt → Prop
  | .expr _ e | .print _ e => ExprAt programs layers scopes e ∧ scopes' = scopes
  | .varDecl _ name none => scopes' = marked name.lexeme true scopes ∧
      Ordinary name.lexeme ∧ Layer.Holds layers name.lexeme
  | .varDecl _ name (some init) => scopes' = marked name.lexeme true scopes ∧
      Ordinary name.lexeme ∧ Layer.Holds layers name.lexeme ∧
      ExprAt programs layers (marked name.lexeme false scopes) init
  | .block _ body => scopes' = scopes ∧ ∃ names inner,
      StmtsAt programs (.body names :: layers) ([] :: scopes) inner body
  | .ifElse _ cond yes no => scopes' = scopes ∧ ExprAt programs layers scopes cond ∧
      StmtAt programs layers scopes scopes yes ∧
      ∀ s, no = some s → StmtAt programs layers scopes scopes s
  | .loop _ cond body => scopes' = scopes ∧ ExprAt programs layers scopes cond ∧
      StmtAt programs layers scopes scopes body
  | .funDecl f => scopes' = marked f.name.lexeme true scopes ∧ Ordinary f.name.lexeme ∧
      Layer.Holds layers f.name.lexeme ∧ FunAt programs .function layers scopes' f
  | .ret _ none => scopes' = scopes
  | .ret _ (some e) => scopes' = scopes ∧ ExprAt programs layers scopes e
  | .classDecl _ name superclass ms => scopes' = marked name.lexeme true scopes ∧
      Ordinary name.lexeme ∧ Layer.Holds layers name.lexeme ∧
      (∀ ref, superclass = some ref → ExprAt programs layers scopes' (.var ref)) ∧
      let inner := ClassText.inner ⟨name, superclass, ms⟩ layers scopes'
      MethodsAt programs inner.1 inner.2 ms

include hprograms in
/-- Before a statement no name waits for its initializer. -/
theorem StmtAt.ready {scopes scopes' : List Scope} {s : Stmt}
    (h : StmtAt programs layers scopes scopes' s) : ∀ scope ∈ scopes, scope.Ready := by
  obtain ⟨fn, cls, s₀, r, hv, rfl, -, -⟩ := h
  exact (hv.sound hprograms).ready

include hprograms in
theorem StmtAt.parts {scopes scopes' : List Scope} {s : Stmt}
    (h : StmtAt programs layers scopes scopes' s) : s.Parts programs layers scopes scopes' := by
  obtain ⟨fn, cls, s₀, r, hv, rfl, rfl, rfl⟩ := h
  have hsound := hv.sound hprograms
  have hp : s₀.Proper := hsound.proper
  have hd : ∀ name, s₀.declared? = some name → Layer.Holds layers name.lexeme := hsound.declares
  rw [statement_scopes fn cls s₀ hp r]
  match s₀ with
  | .expr _ e => rw [statement]; exact ⟨⟨cls, e, r, hv.call (.head _), rfl, rfl⟩, rfl⟩
  | .print _ e => rw [statement]; exact ⟨⟨cls, e, r, hv.call (.head _), rfl, rfl⟩, rfl⟩
  | .varDecl _ name none => rw [statement]; exact ⟨rfl, hp, hd name rfl⟩
  | .varDecl _ name (some init) =>
    rw [statement]
    exact ⟨rfl, hp.1, hd name rfl,
      ⟨cls, init, _, hv.call (.head _), mark_scopes name false r, rfl⟩⟩
  | .block _ body =>
    rw [statement]
    exact ⟨rfl, _, _, fn, cls, body, _, hv.call (.head _), rfl, rfl, rfl⟩
  | .ifElse _ cond yes none =>
    rw [statement]
    have hcond := (keeps_expression cls cond r).1
    refine ⟨rfl, ⟨cls, cond, r, hv.call (.head _), rfl, rfl⟩,
      ⟨fn, cls, yes, _, hv.call (.tail _ (.head _)), hcond, rfl, ?_⟩, fun s hs => by cases hs⟩
    rw [statement_scopes fn cls yes hp.2.1, afterStmt, hp.2.2, hcond]
  | .ifElse _ cond yes (some no) =>
    rw [statement]
    have hcond := (keeps_expression cls cond r).1
    have hyes : (statement fn cls yes (expression cls cond r).2).2.scopes = r.scopes := by
      rw [statement_scopes fn cls yes hp.2.1.1, afterStmt, hp.2.1.2, hcond]
    refine ⟨rfl, ⟨cls, cond, r, hv.call (.head _), rfl, rfl⟩,
      ⟨fn, cls, yes, _, hv.call (.tail _ (.head _)), hcond, rfl, hyes⟩, fun s hs => ?_⟩
    cases hs
    refine ⟨fn, cls, no, _, hv.call (.tail _ (.tail _ (.head _))), hyes, rfl, ?_⟩
    rw [statement_scopes fn cls no hp.2.2.1, afterStmt, hp.2.2.2, hyes]
  | .loop _ cond body =>
    rw [statement]
    have hcond := (keeps_expression cls cond r).1
    refine ⟨rfl, ⟨cls, cond, r, hv.call (.head _), rfl, rfl⟩,
      ⟨fn, cls, body, _, hv.call (.tail _ (.head _)), hcond, rfl, ?_⟩⟩
    rw [statement_scopes fn cls body hp.2.1, afterStmt, hp.2.2, hcond]
  | .funDecl (.mk name params body) =>
    rw [statement]
    exact ⟨rfl, hp.1, hd name rfl, cls, .mk name params body, opened name r,
      hv.call (.head _), opened_scopes name r, rfl⟩
  | .ret _ none => rw [statement_ret_none]; exact rfl
  | .ret keyword (some e) =>
    rw [statement_ret_some]
    exact ⟨rfl, cls, e, _, hv.call (.head _),
      (keeps_bind (keeps_check _ _ _) (fun _ => keeps_check _ _ _) r).1, rfl⟩
  | .classDecl _ name none ms =>
    rw [statement]
    refine ⟨rfl, hp.1, hd name rfl, (fun ref href => by cases href), .plain, ms,
      Position.atMethods name r, hv.call (.head _), ?_, rfl⟩
    exact congrArg (thisScope :: ·) (opened_scopes name r)
  | .classDecl _ name (some ref) ms =>
    rw [statement_subclass]
    have hat : (Position.atSuperclass name ref r).scopes = marked name.lexeme true r.scopes :=
      (keeps_check _ _ _ _).1.trans (opened_scopes name r)
    have hvar := (keeps_variableRef ref (Position.atSuperclass name ref r)).1.trans hat
    refine ⟨rfl, hp.1, hd name rfl, fun ref' href => ?_, .subclass, ms,
      Position.atSubclassMethods name ref r, hv.call (.tail _ (.head _)), ?_, rfl⟩
    · cases href
      exact ⟨cls, .var ref, _, hv.call (.head _), hat, by rw [expression]; rfl⟩
    · exact congrArg (thisScope :: superScope :: ·) hvar

theorem StmtsAt.parts {scopes inner : List Scope} {s : Stmt} {ss : List Stmt}
    (h : StmtsAt programs layers scopes inner (s :: ss)) :
    ∃ scopes', StmtAt programs layers scopes scopes' s ∧
      StmtsAt programs layers scopes' inner ss := by
  obtain ⟨fn, cls, ss₀, r, hv, rfl, hs, rfl⟩ := h
  cases ss₀ with
  | nil => rw [statements] at hs; cases hs
  | cons s₀ ss₀ =>
    rw [statements] at hs ⊢
    cases hs
    exact ⟨_, ⟨fn, cls, s₀, r, hv.call (.head _), rfl, rfl, rfl⟩,
      ⟨fn, cls, ss₀, _, hv.call (.tail _ (.head _)), rfl, rfl, rfl⟩⟩

theorem StmtsAt.scopes_eq_of_nil {scopes inner : List Scope}
    (h : StmtsAt programs layers scopes inner []) : inner = scopes := by
  obtain ⟨fn, cls, ss₀, r, hv, rfl, hs, rfl⟩ := h
  cases ss₀ with
  | nil => rw [statements]; rfl
  | cons s₀ ss₀ => rw [statements] at hs; cases hs

/-- The body of a function, in the scope that its parameters start. -/
theorem FunAt.parts {fn : FunctionContext} {scopes : List Scope} {name : Token}
    {params : List Token} {body : List Stmt}
    (h : FunAt programs fn layers scopes (.mk name params body)) :
    ∃ names inner, StmtsAt programs (.body names :: layers) (parameterScope params :: scopes)
      inner body ∧ ∀ p ∈ params, p.lexeme ∈ names := by
  obtain ⟨cls, ⟨name₀, params₀, body₀⟩, r, hv, rfl, hf⟩ := h
  rw [function] at hf
  cases hf
  refine ⟨_, _, ⟨fn, cls, body₀, _, hv.call (.head _), ?_, rfl, rfl⟩, fun p hp => ?_⟩
  · rw [parameters_run]; rfl
  · exact List.mem_append_left _ (List.mem_map_of_mem hp)

include hprograms in
theorem MethodsAt.mem {scopes : List Scope} : ∀ {fs : List FunDecl},
    MethodsAt programs layers scopes fs →
    ∀ f ∈ fs, FunAt programs (methodContext f.name) layers scopes f := by
  rintro fs ⟨cls, fs₀, r, hv, rfl, rfl⟩ f hf
  induction fs₀ generalizing r with
  | nil => rw [methods] at hf; cases hf
  | cons f₀ fs₀ ih =>
    have hp : FunDecl.AllProper (f₀ :: fs₀) := (hv.sound hprograms).proper
    obtain ⟨name, params, body⟩ := f₀
    rw [methods] at hf
    rcases List.mem_cons.1 hf with rfl | hf
    · exact ⟨cls, .mk name params body, r, hv.call (.head _), rfl, rfl⟩
    · have hs := function_scopes (methodContext name) cls _ hp.1 r
      obtain ⟨cls', f', r', hv', hr', hf'⟩ := ih _ (hv.call (.tail _ (.head _))) hf
      exact ⟨cls', f', r', hv', hr'.trans hs, hf'⟩

end Lox
