import Lox.Proofs.Scope.Resolving
/-!
# Where the resolver goes

Resolving a program comes to each of its nodes once, with certain scopes open. A `Position` is
such a moment: the node, the state of the resolver there, and for every open scope the piece of
text that it belongs to. `Position.calls` lists the recursive calls that the resolver makes from
a position, and `Visits` the positions that it comes to. The main result, `Visits.sound`, says
what holds at all of them when the program is accepted.
-/

namespace Lox

/-- What a class declaration says. -/
structure ClassText where
  name : Token
  superclass : Option Ref
  methods : List FunDecl

/-- The text that a scope belongs to. -/
inductive Layer where
  /-- A block or a function, with the names that it declares. -/
  | body (names : List Bytes)
  /-- The scope of `this` around the methods of a class. -/
  | this (text : ClassText)
  /-- The scope of `super` around it. -/
  | super (text : ClassText)

/-- What the resolver is called with. -/
inductive Position.Node where
  | expr (cls : ClassContext) (e : Expr)
  | exprs (cls : ClassContext) (es : List Expr)
  | stmt (fn : FunctionContext) (cls : ClassContext) (s : Stmt)
  | stmts (fn : FunctionContext) (cls : ClassContext) (ss : List Stmt)
  | function (fn : FunctionContext) (cls : ClassContext) (f : FunDecl)
  | methods (cls : ClassContext) (fs : List FunDecl)

structure Position where
  node : Position.Node
  layers : List Layer
  resolver : Resolver

/-- The names that statements declare in the scope they stand in. -/
def declaredNames (ss : List Stmt) : List Bytes :=
  ss.filterMap fun s => s.declared?.map (·.lexeme)

/-- The scope of `this`. -/
def thisScope : Scope := [(utf8 "this", true)]

/-- The scope of `super`. -/
def superScope : Scope := [(utf8 "super", true)]

namespace Position

open Resolver

/-- The state of the resolver when it is done with the position's node. -/
def after : Position → Resolver
  | ⟨.expr cls e, _, r⟩ => (expression cls e r).2
  | ⟨.exprs cls es, _, r⟩ => (expressions cls es r).2
  | ⟨.stmt fn cls s, _, r⟩ => (statement fn cls s r).2
  | ⟨.stmts fn cls ss, _, r⟩ => (statements fn cls ss r).2
  | ⟨.function fn cls f, _, r⟩ => (function fn cls f r).2
  | ⟨.methods cls fs, _, r⟩ => (methods cls fs r).2

/-- The calls that the resolver makes from an expression. -/
def exprCalls (cls : ClassContext) (layers : List Layer) (r : Resolver) : Expr → List Position
  | .grouping _ e => [⟨.expr cls e, layers, r⟩]
  | .unary _ _ e => [⟨.expr cls e, layers, r⟩]
  | .binary _ _ a b | .logical _ _ a b =>
    [⟨.expr cls a, layers, r⟩, ⟨.expr cls b, layers, (expression cls a r).2⟩]
  | .assign _ v => [⟨.expr cls v, layers, r⟩]
  | .call _ f args =>
    [⟨.expr cls f, layers, r⟩, ⟨.exprs cls args, layers, (expression cls f r).2⟩]
  | .get o _ => [⟨.expr cls o, layers, r⟩]
  | .set o _ v => [⟨.expr cls v, layers, r⟩, ⟨.expr cls o, layers, (expression cls v r).2⟩]
  | .literal _ _ | .var _ | .this _ | .super _ _ => []

/-- The state in which the superclass of a class is looked up. -/
def atSuperclass (name : Token) (ref : Ref) (r : Resolver) : Resolver :=
  (check (ref.name.lexeme = name.lexeme) ref.name .selfInheritance (opened name r)).2

/-- The state in which the methods of a subclass are resolved. -/
def atSubclassMethods (name : Token) (ref : Ref) (r : Resolver) : Resolver :=
  let r := (variableRef ref (atSuperclass name ref r)).2
  ⟨thisScope :: superScope :: r.scopes, r.errors⟩

/-- The state in which the methods of a class without a superclass are resolved. -/
def atMethods (name : Token) (r : Resolver) : Resolver :=
  ⟨thisScope :: (opened name r).scopes, (opened name r).errors⟩

/-- The state in which the value of a `return` is resolved. -/
def atReturnValue (fn : FunctionContext) (keyword : Token) (r : Resolver) : Resolver :=
  ((check (fn = .none) keyword .topLevelReturn >>= fun _ =>
    check (fn = .initializer) keyword .initializerReturn) r).2

/-- The calls that the resolver makes from a statement. A superclass counts as the variable that
it is. -/
def stmtCalls (fn : FunctionContext) (cls : ClassContext) (layers : List Layer) (r : Resolver) :
    Stmt → List Position
  | .expr _ e | .print _ e => [⟨.expr cls e, layers, r⟩]
  | .varDecl _ _ none => []
  | .varDecl _ name (some init) => [⟨.expr cls init, layers, (declare name r).2⟩]
  | .block _ body =>
    [⟨.stmts fn cls body, .body (declaredNames body) :: layers, ⟨[] :: r.scopes, r.errors⟩⟩]
  | .ifElse _ cond yes none =>
    [⟨.expr cls cond, layers, r⟩, ⟨.stmt fn cls yes, layers, (expression cls cond r).2⟩]
  | .ifElse _ cond yes (some no) =>
    [⟨.expr cls cond, layers, r⟩, ⟨.stmt fn cls yes, layers, (expression cls cond r).2⟩,
      ⟨.stmt fn cls no, layers, (statement fn cls yes (expression cls cond r).2).2⟩]
  | .loop _ cond body =>
    [⟨.expr cls cond, layers, r⟩, ⟨.stmt fn cls body, layers, (expression cls cond r).2⟩]
  | .funDecl (.mk name params body) =>
    [⟨.function .function cls (.mk name params body), layers, opened name r⟩]
  | .ret _ none => []
  | .ret keyword (some e) => [⟨.expr cls e, layers, atReturnValue fn keyword r⟩]
  | .classDecl _ name none ms =>
    let text := ⟨name, none, (methods .plain ms (atMethods name r)).1⟩
    [⟨.methods .plain ms, .this text :: layers, atMethods name r⟩]
  | .classDecl _ name (some ref) ms =>
    let ref' := (variableRef ref (atSuperclass name ref r)).1
    let text := ⟨name, some ref', (methods .subclass ms (atSubclassMethods name ref r)).1⟩
    [⟨.expr cls (.var ref), layers, atSuperclass name ref r⟩,
      ⟨.methods .subclass ms, .this text :: .super text :: layers,
        atSubclassMethods name ref r⟩]

/-- The recursive calls that the resolver makes from a position. -/
def calls : Position → List Position
  | ⟨.expr cls e, layers, r⟩ => exprCalls cls layers r e
  | ⟨.exprs _ [], _, _⟩ => []
  | ⟨.exprs cls (e :: es), layers, r⟩ =>
    [⟨.expr cls e, layers, r⟩, ⟨.exprs cls es, layers, (expression cls e r).2⟩]
  | ⟨.stmt fn cls s, layers, r⟩ => stmtCalls fn cls layers r s
  | ⟨.stmts _ _ [], _, _⟩ => []
  | ⟨.stmts fn cls (s :: ss), layers, r⟩ =>
    [⟨.stmt fn cls s, layers, r⟩, ⟨.stmts fn cls ss, layers, (statement fn cls s r).2⟩]
  | ⟨.function fn cls (.mk _ params body), layers, r⟩ =>
    [⟨.stmts fn cls body, .body (params.map (·.lexeme) ++ declaredNames body) :: layers,
      (parameters params ⟨[] :: r.scopes, r.errors⟩).2⟩]
  | ⟨.methods _ [], _, _⟩ => []
  | ⟨.methods cls (.mk name params body :: fs), layers, r⟩ =>
    [⟨.function (methodContext name) cls (.mk name params body), layers, r⟩,
      ⟨.methods cls fs, layers, (function (methodContext name) cls (.mk name params body) r).2⟩]

end Position

/-- The positions that the resolver comes to in some of the programs. -/
inductive Visits (programs : List Stmt → Prop) : Position → Prop
  | root {program : List Stmt} : programs program →
    Visits programs ⟨.stmts .none .none program, [], ⟨[], []⟩⟩
  | call {p q : Position} : Visits programs p → q ∈ p.calls → Visits programs q

/-! ## What holds at every position -/

/-- The open scopes fit the text around a position: blocks and functions declare ordinary names,
and a class contributes the scopes of `this` and, over a superclass, of `super`. -/
inductive Nested : ClassContext → List Layer → List Scope → Prop
  | top : Nested .none [] []
  | body {cls : ClassContext} {names : List Bytes} {layers : List Layer} {scope : Scope}
      {scopes : List Scope} : Nested cls layers scopes →
    (∀ x, scope.has x = true → x ∈ names ∧ Ordinary x) →
    Nested cls (.body names :: layers) (scope :: scopes)
  | plain {cls : ClassContext} {text : ClassText} {layers : List Layer} {scopes : List Scope} :
    Nested cls layers scopes → text.superclass = none →
    Nested .plain (.this text :: layers) (thisScope :: scopes)
  | subclass {cls : ClassContext} {text : ClassText} {layers : List Layer}
      {scopes : List Scope} : Nested cls layers scopes → text.superclass.isSome = true →
    Nested .subclass (.this text :: .super text :: layers) (thisScope :: superScope :: scopes)

/-- All names of the scope have been initialized. -/
def Scope.Ready (scope : Scope) : Prop := ∀ x b, scope.get? x = some b → b = true

/-- The innermost layer holds the names that are declared in it; at the top level, where there
is no layer, it can be any. -/
def Layer.Holds (layers : List Layer) (name : Bytes) : Prop :=
  match layers with
  | [] => True
  | .body names :: _ => name ∈ names
  | _ => False

namespace Position.Node

def cls : Position.Node → ClassContext
  | .expr cls _ | .exprs cls _ | .stmt _ cls _ | .stmts _ cls _ | .function _ cls _
  | .methods cls _ => cls

def Proper : Position.Node → Prop
  | .expr _ e => e.Proper
  | .exprs _ es => Expr.AllProper es
  | .stmt _ _ s => s.Proper
  | .stmts _ _ ss => Stmt.AllProper ss
  | .function _ _ f => f.Proper
  | .methods _ fs => FunDecl.AllProper fs

/-- Only while an expression is resolved can a name be waiting for its initializer, and then in
the innermost scope. -/
def Ready : Position.Node → List Scope → Prop
  | .expr _ _, scopes | .exprs _ _, scopes => ∀ scope ∈ scopes.tail, scope.Ready
  | _, scopes => ∀ scope ∈ scopes, scope.Ready

/-- What the node declares is among the names of the innermost layer. -/
def Declares : Position.Node → List Layer → Prop
  | .stmt _ _ s, layers => ∀ name, s.declared? = some name → Layer.Holds layers name.lexeme
  | .stmts _ _ ss, layers =>
    ∀ s ∈ ss, ∀ name, s.declared? = some name → Layer.Holds layers name.lexeme
  | _, _ => True

end Position.Node

/-- What holds at every position of an accepted program. -/
structure Position.Sound (p : Position) : Prop where
  clean : p.after.errors = []
  nested : Nested p.node.cls p.layers p.resolver.scopes
  proper : p.node.Proper
  ready : p.node.Ready p.resolver.scopes
  declares : p.node.Declares p.layers

theorem declares_names {names : List Bytes} {layers : List Layer} {ss : List Stmt}
    (h : ∀ x ∈ declaredNames ss, x ∈ names) : ∀ s ∈ ss, ∀ name, s.declared? = some name →
    Layer.Holds (.body names :: layers) name.lexeme := by
  intro s hs name hname
  exact h _ (List.mem_filterMap.2 ⟨s, hs, by rw [hname]; rfl⟩)

/-! ## Scopes that names are added to -/

theorem Scope.Ready.insert {scope : Scope} (h : scope.Ready) (name : Bytes) :
    Scope.Ready (scope.insert name true) := by
  intro x b hb
  rw [Bindings.get?_insert] at hb
  split at hb
  · cases hb; rfl
  · exact h x b hb

namespace Resolver

theorem ready_marked {name : Bytes} : ∀ {scopes : List Scope}, (∀ s ∈ scopes, s.Ready) →
    ∀ s ∈ marked name true scopes, s.Ready
  | [], _, s, hs => by cases hs
  | scope :: outer, h, s, hs => by
    rcases List.mem_cons.1 hs with rfl | hs
    · exact (h scope (by simp)).insert name
    · exact h s (by simp [hs])

theorem nested_marked {cls : ClassContext} {layers : List Layer} {scopes : List Scope}
    {name : Bytes} {ready : Bool} (h : Nested cls layers scopes) (hname : Ordinary name)
    (hholds : Layer.Holds layers name) : Nested cls layers (marked name ready scopes) := by
  cases h with
  | top => exact .top
  | body hn hscope =>
    refine .body hn fun x hx => ?_
    rw [Bindings.has_insert, Bool.or_eq_true, decide_eq_true_eq] at hx
    rcases hx with rfl | hx
    · exact ⟨hholds, hname⟩
    · exact hscope x hx
  | plain _ _ => exact hholds.elim
  | subclass _ _ => exact hholds.elim

theorem nested_afterStmt {cls : ClassContext} {layers : List Layer} {scopes : List Scope}
    {s : Stmt} (h : Nested cls layers scopes) (hp : s.Proper)
    (hd : ∀ name, s.declared? = some name → Layer.Holds layers name.lexeme) :
    Nested cls layers (afterStmt s scopes) := by
  unfold afterStmt
  split
  · rename_i name hname
    exact nested_marked h (hp.ordinary hname) (hd name hname)
  · exact h

theorem ready_afterStmt (s : Stmt) {scopes : List Scope} (h : ∀ scope ∈ scopes, scope.Ready) :
    ∀ scope ∈ afterStmt s scopes, scope.Ready := by
  unfold afterStmt
  split
  · exact ready_marked h
  · exact h

/-- The scope that the parameters of a function start. -/
def parameterScope (params : List Token) : Scope :=
  params.foldl (fun scope p => scope.insert p.lexeme true) []

theorem parameters_run : ∀ (params : List Token) (scope : Scope) (outer : List Scope)
    (errors : List StaticError), parameters params ⟨scope :: outer, errors⟩ =
      ((), ⟨params.foldl (fun scope p => scope.insert p.lexeme true) scope :: outer, errors⟩)
  | [], _, _, _ => rfl
  | p :: rest, scope, outer, errors => by
    show parameters rest (opened p ⟨scope :: outer, errors⟩) = _
    rw [opened_run]
    exact parameters_run rest _ outer errors

theorem has_foldl_insert {x : Bytes} : ∀ (params : List Token) (scope : Scope),
    (params.foldl (fun scope p => scope.insert p.lexeme true) scope).has x = true ↔
      x ∈ params.map (·.lexeme) ∨ scope.has x = true
  | [], scope => by simp
  | p :: rest, scope => by
    rw [List.foldl_cons, has_foldl_insert rest, Bindings.has_insert]
    simp only [Bool.or_eq_true, decide_eq_true_eq, List.map_cons, List.mem_cons]
    constructor
    · rintro (h | rfl | h)
      · exact .inl (.inr h)
      · exact .inl (.inl rfl)
      · exact .inr h
    · rintro ((rfl | h) | h)
      · exact .inr (.inl rfl)
      · exact .inl h
      · exact .inr (.inr h)

theorem has_parameterScope {params : List Token} {x : Bytes} :
    (parameterScope params).has x = true ↔ x ∈ params.map (·.lexeme) := by
  unfold parameterScope
  rw [has_foldl_insert]
  simp [Bindings.has, Bindings.get?]

theorem ready_foldl_insert : ∀ (params : List Token) (scope : Scope), scope.Ready →
    Scope.Ready (params.foldl (fun scope p => scope.insert p.lexeme true) scope)
  | [], _, h => h
  | _ :: rest, _, h => ready_foldl_insert rest _ (h.insert _)

end Resolver

/-! ## Soundness -/

namespace Position

open Resolver

variable {fn : FunctionContext} {cls : ClassContext} {layers : List Layer} {r : Resolver}
  {q : Position}

theorem sound_expr {e : Expr} {scopes : List Scope} (hs : r.scopes = scopes)
    (hn : Nested cls layers scopes) (hr : ∀ s ∈ scopes.tail, s.Ready) (hp : e.Proper)
    (hc : (expression cls e r).2.errors = []) : Sound ⟨.expr cls e, layers, r⟩ :=
  ⟨hc, hs ▸ hn, hp, hs ▸ hr, trivial⟩

theorem sound_exprs {es : List Expr} {scopes : List Scope} (hs : r.scopes = scopes)
    (hn : Nested cls layers scopes) (hr : ∀ s ∈ scopes.tail, s.Ready) (hp : Expr.AllProper es)
    (hc : (expressions cls es r).2.errors = []) : Sound ⟨.exprs cls es, layers, r⟩ :=
  ⟨hc, hs ▸ hn, hp, hs ▸ hr, trivial⟩

theorem mem_pair {p p' : Position} (h : q ∈ [p, p']) : q = p ∨ q = p' := by simpa using h

theorem exprCalls_sound : ∀ (e : Expr), Sound ⟨.expr cls e, layers, r⟩ →
    q ∈ exprCalls cls layers r e → q.Sound := by
  intro e h hq
  have hc : (expression cls e r).2.errors = [] := h.clean
  obtain ⟨-, hn, hp, hr, -⟩ := h
  cases e with
  | literal _ _ => cases hq
  | var _ => cases hq
  | this _ => cases hq
  | super _ _ => cases hq
  | grouping _ e =>
    cases List.mem_singleton.1 hq
    rw [expression] at hc
    exact sound_expr rfl hn hr hp hc
  | unary _ _ e =>
    cases List.mem_singleton.1 hq
    rw [expression] at hc
    exact sound_expr rfl hn hr hp hc
  | get o _ =>
    cases List.mem_singleton.1 hq
    rw [expression] at hc
    exact sound_expr rfl hn hr hp hc
  | assign ref v =>
    cases List.mem_singleton.1 hq
    rw [expression] at hc
    exact sound_expr rfl hn hr hp.2 hc
  | binary _ _ a b =>
    rw [expression] at hc
    rcases mem_pair hq with rfl | rfl
    · exact sound_expr rfl hn hr hp.1 (quiet_expression cls b _ hc)
    · exact sound_expr (keeps_expression cls a r).1 hn hr hp.2 hc
  | logical _ _ a b =>
    rw [expression] at hc
    rcases mem_pair hq with rfl | rfl
    · exact sound_expr rfl hn hr hp.1 (quiet_expression cls b _ hc)
    · exact sound_expr (keeps_expression cls a r).1 hn hr hp.2 hc
  | call _ f args =>
    rw [expression] at hc
    rcases mem_pair hq with rfl | rfl
    · exact sound_expr rfl hn hr hp.1 (quiet_of_keeps (keeps_expressions cls args) _ hc)
    · exact sound_exprs (keeps_expression cls f r).1 hn hr hp.2 hc
  | set o _ v =>
    rw [expression] at hc
    rcases mem_pair hq with rfl | rfl
    · exact sound_expr rfl hn hr hp.2 (quiet_expression cls o _ hc)
    · exact sound_expr (keeps_expression cls v r).1 hn hr hp.1 hc

theorem sound_stmt {s : Stmt} {scopes : List Scope} (hs : r.scopes = scopes)
    (hn : Nested cls layers scopes) (hr : ∀ s ∈ scopes, s.Ready) (hp : s.Proper)
    (hd : ∀ name, s.declared? = some name → Layer.Holds layers name.lexeme)
    (hc : (statement fn cls s r).2.errors = []) : Sound ⟨.stmt fn cls s, layers, r⟩ :=
  ⟨hc, hs ▸ hn, hp, hs ▸ hr, hd⟩

theorem tail_ready {scopes : List Scope} (h : ∀ s ∈ scopes, s.Ready) :
    ∀ s ∈ scopes.tail, s.Ready := fun s hs => h s (List.mem_of_mem_tail hs)

theorem singleton_ready (name : Bytes) : Scope.Ready [(name, true)] := fun _ _ hb =>
  (Bindings.get?_singleton hb).2

theorem nil_ready : Scope.Ready [] := fun _ _ h => by cases h

theorem holds_none {s : Stmt} (h : s.declared? = none) (name : Token)
    (hname : s.declared? = some name) : Layer.Holds layers name.lexeme := by
  rw [h] at hname
  cases hname

theorem stmtCalls_sound : ∀ (s : Stmt), Sound ⟨.stmt fn cls s, layers, r⟩ →
    q ∈ stmtCalls fn cls layers r s → q.Sound := by
  intro s h hq
  have hc : (statement fn cls s r).2.errors = [] := h.clean
  obtain ⟨-, hn, hp, hr, hd⟩ := h
  have hr' := tail_ready hr
  match s with
  | .expr _ e =>
    cases List.mem_singleton.1 hq
    rw [statement] at hc
    exact sound_expr rfl hn hr' hp hc
  | .print _ e =>
    cases List.mem_singleton.1 hq
    rw [statement] at hc
    exact sound_expr rfl hn hr' hp hc
  | .varDecl _ _ none => cases hq
  | .varDecl _ name (some init) =>
    cases List.mem_singleton.1 hq
    rw [statement] at hc
    refine sound_expr (mark_scopes name false r) (nested_marked hn hp.1 (hd name rfl)) ?_ hp.2
      (quiet_mark name true _ hc)
    rw [tail_marked]
    exact hr'
  | .block _ body =>
    cases List.mem_singleton.1 hq
    rw [statement] at hc
    refine ⟨hc, .body hn (fun x hx => by cases hx), hp, ?_, declares_names fun x hx => hx⟩
    intro scope hs
    rcases List.mem_cons.1 hs with rfl | hs
    · exact nil_ready
    · exact hr scope hs
  | .ifElse _ cond yes none =>
    rw [statement] at hc
    rcases mem_pair hq with rfl | rfl
    · exact sound_expr rfl hn hr' hp.1 (quiet_statement fn cls yes _ hc)
    · exact sound_stmt (keeps_expression cls cond r).1 hn hr hp.2.1 (holds_none hp.2.2) hc
  | .ifElse _ cond yes (some no) =>
    rw [statement] at hc
    have hyes := quiet_statement fn cls no _ hc
    have hscopes : (statement fn cls yes (expression cls cond r).2).2.scopes = r.scopes := by
      rw [statement_scopes fn cls yes hp.2.1.1, afterStmt, hp.2.1.2]
      exact (keeps_expression cls cond r).1
    simp only [stmtCalls, List.mem_cons, List.not_mem_nil, or_false] at hq
    rcases hq with rfl | rfl | rfl
    · exact sound_expr rfl hn hr' hp.1 (quiet_statement fn cls yes _ hyes)
    · exact sound_stmt (keeps_expression cls cond r).1 hn hr hp.2.1.1 (holds_none hp.2.1.2) hyes
    · exact sound_stmt hscopes hn hr hp.2.2.1 (holds_none hp.2.2.2) hc
  | .loop _ cond body =>
    rw [statement] at hc
    rcases mem_pair hq with rfl | rfl
    · exact sound_expr rfl hn hr' hp.1 (quiet_statement fn cls body _ hc)
    · exact sound_stmt (keeps_expression cls cond r).1 hn hr hp.2.1 (holds_none hp.2.2) hc
  | .funDecl (.mk name params body) =>
    cases List.mem_singleton.1 hq
    rw [statement] at hc
    have hopen := opened_scopes name r
    refine ⟨hc, ?_, hp, ?_, trivial⟩
    · exact hopen ▸ nested_marked hn hp.1 (hd name rfl)
    · exact hopen ▸ ready_marked hr
  | .ret _ none => cases hq
  | .ret keyword (some e) =>
    cases List.mem_singleton.1 hq
    rw [statement_ret_some] at hc
    exact sound_expr (keeps_bind (keeps_check _ _ _) (fun _ => keeps_check _ _ _) r).1 hn hr' hp hc
  | .classDecl _ name none ms =>
    cases List.mem_singleton.1 hq
    rw [statement] at hc
    have hopen := opened_scopes name r
    refine ⟨hc, .plain (hopen ▸ nested_marked hn hp.1 (hd name rfl)) rfl, hp.2, ?_, trivial⟩
    intro scope hs
    rcases List.mem_cons.1 hs with rfl | hs
    · exact singleton_ready _
    · exact ready_marked hr scope (hopen ▸ hs)
  | .classDecl _ name (some ref) ms =>
    rw [statement_subclass] at hc
    have hopen := opened_scopes name r
    have hat : (atSuperclass name ref r).scopes = marked name.lexeme true r.scopes :=
      (keeps_check _ _ _ _).1.trans hopen
    have hn' : Nested cls layers (marked name.lexeme true r.scopes) :=
      nested_marked hn hp.1 (hd name rfl)
    have hm : (methods .subclass ms (atSubclassMethods name ref r)).2.errors = [] := hc
    rcases mem_pair hq with rfl | rfl
    · refine sound_expr hat hn' (tail_ready (ready_marked hr)) hp.2.1 ?_
      rw [expression]
      exact quiet_methods .subclass ms (atSubclassMethods name ref r) hm
    · have hscopes : (variableRef ref (atSuperclass name ref r)).2.scopes =
          marked name.lexeme true r.scopes := (keeps_variableRef ref _).1.trans hat
      refine ⟨hm, .subclass (hscopes ▸ hn') rfl, hp.2.2, ?_, trivial⟩
      intro scope hs
      simp only [atSubclassMethods, List.mem_cons] at hs
      rcases hs with rfl | rfl | hs
      · exact singleton_ready _
      · exact singleton_ready _
      · exact ready_marked hr scope (hscopes ▸ hs)

/-- What holds at a position holds at the positions that the resolver goes to from there. -/
theorem Sound.call {p : Position} (h : p.Sound) (hq : q ∈ p.calls) : q.Sound := by
  match p with
  | ⟨.expr cls e, layers, r⟩ => exact exprCalls_sound e h hq
  | ⟨.exprs _ [], _, _⟩ => cases hq
  | ⟨.exprs cls (e :: es), layers, r⟩ =>
    have hc : (expressions cls (e :: es) r).2.errors = [] := h.clean
    rw [expressions] at hc
    obtain ⟨-, hn, hp, hr, -⟩ := h
    rcases mem_pair hq with rfl | rfl
    · exact sound_expr rfl hn hr hp.1 (quiet_of_keeps (keeps_expressions cls es) _ hc)
    · exact sound_exprs (keeps_expression cls e r).1 hn hr hp.2 hc
  | ⟨.stmt fn cls s, layers, r⟩ => exact stmtCalls_sound s h hq
  | ⟨.stmts _ _ [], _, _⟩ => cases hq
  | ⟨.stmts fn cls (s :: ss), layers, r⟩ =>
    have hc : (statements fn cls (s :: ss) r).2.errors = [] := h.clean
    rw [statements] at hc
    obtain ⟨-, hn, hp, hr, hd⟩ := h
    rcases mem_pair hq with rfl | rfl
    · exact sound_stmt rfl hn hr hp.1 (hd s (by simp)) (quiet_statements fn cls ss _ hc)
    · have hs := statement_scopes fn cls s hp.1 r
      refine ⟨hc, ?_, hp.2, ?_, fun s' hs' => hd s' (by simp [hs'])⟩
      · exact hs ▸ nested_afterStmt hn hp.1 (hd s (by simp))
      · exact hs ▸ ready_afterStmt s hr
  | ⟨.function fn cls (.mk name params body), layers, r⟩ =>
    have hc : (function fn cls (.mk name params body) r).2.errors = [] := h.clean
    rw [function] at hc
    obtain ⟨-, hn, hp, hr, -⟩ := h
    cases List.mem_singleton.1 hq
    have hscopes : (parameters params ⟨[] :: r.scopes, r.errors⟩).2.scopes =
        parameterScope params :: r.scopes := by rw [parameters_run]; rfl
    refine ⟨hc, ?_, hp.2.2, ?_, declares_names fun x hx => List.mem_append_right _ hx⟩
    · refine hscopes ▸ .body hn fun x hx => ?_
      have hx := has_parameterScope.1 hx
      obtain ⟨p, hmem, rfl⟩ := List.mem_map.1 hx
      exact ⟨List.mem_append_left _ hx, hp.2.1 p hmem⟩
    · refine hscopes ▸ fun scope hs => ?_
      rcases List.mem_cons.1 hs with rfl | hs
      · exact ready_foldl_insert params [] nil_ready
      · exact hr scope hs
  | ⟨.methods _ [], _, _⟩ => cases hq
  | ⟨.methods cls (.mk name params body :: fs), layers, r⟩ =>
    have hc : (methods cls (.mk name params body :: fs) r).2.errors = [] := h.clean
    rw [methods] at hc
    obtain ⟨-, hn, hp, hr, -⟩ := h
    rcases mem_pair hq with rfl | rfl
    · exact ⟨quiet_methods cls fs _ hc, hn, hp.1, hr, trivial⟩
    · have hs := function_scopes (methodContext name) cls _ hp.1 r
      exact ⟨hc, hs ▸ hn, hp.2, hs ▸ hr, trivial⟩

end Position

/-- **Accepted programs are sound at every position.** -/
theorem Visits.sound {programs : List Stmt → Prop} (hp : ∀ program, programs program →
    Admissible program) {p : Position} (h : Visits programs p) : p.Sound := by
  induction h with
  | root h =>
    have hadm := hp _ h
    exact ⟨hadm.clean, .top, hadm.proper, (fun s hs => by cases hs), fun _ _ _ _ => trivial⟩
  | call _ hq ih => exact ih.call hq

end Lox
