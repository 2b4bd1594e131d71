import Lox.Proofs.Scope.Visits
/-!
# Lexical violations

What the resolver complains about, said without a resolver. Every place of a program lies in a
row of constructs: blocks, functions, methods, classes, initializers. `Stmt.uses` lists the places
that can be wrong, in the order in which they are visited, each with the constructs around it, and
`Use.violations` judges a place by the innermost construct of a kind. The resolver keeps flags and
a stack of scopes instead; `Resolution.errors_are_violations` shows that this comes to the same,
however classes, functions and blocks are nested.
-/

namespace Lox

/-- A construct around a place of a program. -/
inductive Enclosing where
  | block
  | function
  | method (name : Token)
  | cls (superclass : Option Ref)
  /-- The initializer of a variable. -/
  | initializer (name : Token)

namespace Enclosing

def isFunction : Enclosing → Bool
  | function | method _ => true
  | _ => false

/-- The superclass that a class declares, for a class. -/
def superclass? : Enclosing → Option (Option Ref)
  | cls superclass => some superclass
  | _ => none

/-- Whether the innermost function around a place is a method named `init`. -/
def inInit (around : List Enclosing) : Bool :=
  match around.find? isFunction with
  | some (.method name) => name.lexeme = utf8 "init"
  | _ => false

/-- Whether a place lies in the initializer of a local variable of this name. Only expressions
stand in an initializer, so nothing else comes between. -/
def inInitializerOf (name : Bytes) : List Enclosing → Bool
  | .initializer owner :: outer => owner.lexeme = name && !outer.isEmpty
  | _ => false

end Enclosing

/-- What a place of a program does that may not be allowed there. -/
inductive Deed where
  | returns (keyword : Token) (value : Bool)
  | this (keyword : Token)
  | super (keyword : Token)
  /-- A variable is read. -/
  | reads (name : Token)
  /-- A class inherits from another one. -/
  | inherits (name superclass : Token)

/-- A place of a program, with the constructs around it, innermost first. -/
structure Use where
  deed : Deed
  around : List Enclosing

open Enclosing in
/-- What is wrong with a place, and at which token. -/
def Use.violations (use : Use) : List (Token × String) :=
  match use.deed with
  | .returns keyword value =>
    (if use.around.any isFunction then []
      else [(keyword, "Can't return from top-level code.")]) ++
    if value && inInit use.around then [(keyword, "Can't return a value from an initializer.")]
    else []
  | .this keyword =>
    match use.around.findSome? superclass? with
    | none => [(keyword, "Can't use 'this' outside of a class.")]
    | some _ => []
  | .super keyword =>
    match use.around.findSome? superclass? with
    | none => [(keyword, "Can't use 'super' outside of a class.")]
    | some none => [(keyword, "Can't use 'super' in a class with no superclass.")]
    | some (some _) => []
  | .reads name =>
    if inInitializerOf name.lexeme use.around then
      [(name, "Can't read local variable in its own initializer.")]
    else []
  | .inherits name superclass =>
    if superclass.lexeme = name.lexeme then [(superclass, "A class can't inherit from itself.")]
    else []

mutual

/-- What an expression does, in visiting order: of an assignment to a property the value comes
before the object. -/
def Expr.deeds : Expr → List Deed
  | .literal .. => []
  | .grouping _ inner => inner.deeds
  | .unary _ _ operand => operand.deeds
  | .binary _ _ left right => left.deeds ++ right.deeds
  | .logical _ _ left right => left.deeds ++ right.deeds
  | .var ref => [.reads ref.name]
  | .assign _ value => value.deeds
  | .call _ callee args => callee.deeds ++ Expr.listDeeds args
  | .get object _ => object.deeds
  | .set object _ value => value.deeds ++ object.deeds
  | .this ref => [.this ref.name]
  | .super ref _ => [.super ref.name]

def Expr.listDeeds : List Expr → List Deed
  | [] => []
  | e :: rest => e.deeds ++ Expr.listDeeds rest

end

/-- The places of an expression. -/
def Expr.uses (around : List Enclosing) (e : Expr) : List Use := e.deeds.map (⟨·, around⟩)

mutual

/-- The places of a statement that stands in the given constructs. -/
def Stmt.uses (around : List Enclosing) : Stmt → List Use
  | .expr _ value => value.uses around
  | .print _ value => value.uses around
  | .varDecl _ _ none => []
  | .varDecl _ name (some init) => init.uses (.initializer name :: around)
  | .block _ body => Stmt.listUses (.block :: around) body
  | .ifElse _ cond yes none => cond.uses around ++ yes.uses around
  | .ifElse _ cond yes (some no) => cond.uses around ++ (yes.uses around ++ no.uses around)
  | .loop _ cond body => cond.uses around ++ body.uses around
  | .funDecl (.mk _ _ body) => Stmt.listUses (.function :: around) body
  | .ret keyword none => [⟨.returns keyword false, around⟩]
  | .ret keyword (some value) => ⟨.returns keyword true, around⟩ :: value.uses around
  | .classDecl _ _ none methods => FunDecl.listUses (.cls none :: around) methods
  | .classDecl _ name (some ref) methods =>
    ⟨.inherits name ref.name, around⟩ :: ⟨.reads ref.name, around⟩ ::
      FunDecl.listUses (.cls (some ref) :: around) methods

def Stmt.listUses (around : List Enclosing) : List Stmt → List Use
  | [] => []
  | s :: rest => s.uses around ++ Stmt.listUses around rest

/-- The places of methods. -/
def FunDecl.listUses (around : List Enclosing) : List FunDecl → List Use
  | [] => []
  | .mk name _ body :: rest =>
    Stmt.listUses (.method name :: around) body ++ FunDecl.listUses around rest

end

/-! ## Flags for the constructs around a place -/

namespace Enclosing

/-- The flag for the function around a place. -/
def functionContext (around : List Enclosing) : FunctionContext :=
  match around.find? isFunction with
  | some (.method name) => Resolver.methodContext name
  | some _ => .function
  | none => .none

/-- The flag for the class around a place. -/
def classContext (around : List Enclosing) : ClassContext :=
  match around.findSome? superclass? with
  | some none => .plain
  | some (some _) => .subclass
  | none => .none

variable {around : List Enclosing}

theorem functionContext_eq_none : functionContext around = .none ↔
    around.any isFunction = false := by
  rw [List.any_eq_false, functionContext]
  split
  · rename_i name hfind
    have hne : Resolver.methodContext name ≠ .none := by
      unfold Resolver.methodContext
      split <;> simp
    exact iff_of_false hne fun h =>
      h _ (List.mem_of_find?_eq_some hfind) (List.find?_some hfind)
  · rename_i e _ hfind
    exact iff_of_false (by simp) fun h =>
      h _ (List.mem_of_find?_eq_some hfind) (List.find?_some hfind)
  · rename_i hfind
    exact iff_of_true rfl (List.find?_eq_none.1 hfind)

theorem functionContext_eq_initializer : functionContext around = .initializer ↔
    inInit around = true := by
  unfold functionContext inInit
  cases around.find? isFunction with
  | none => simp
  | some e =>
    cases e with
    | method name =>
      simp only [Resolver.methodContext, decide_eq_true_eq]
      split <;> simp_all
    | _ => simp

theorem classContext_eq_none : classContext around = .none ↔
    around.findSome? superclass? = none := by
  unfold classContext
  cases around.findSome? superclass? with
  | none => simp
  | some superclass => cases superclass <;> simp

end Enclosing

/-! ## What the resolver has complained about -/

/-- A complaint of the resolver: a token and what is said there. -/
def StaticError.told (e : StaticError) : Token × String := (e.token, e.fault.message)

namespace Resolver

/-- The complaints so far, in the order in which they were made. -/
def told (r : Resolver) : List (Token × String) := r.errors.reverse.map StaticError.told

variable {α β : Type} {around : List Enclosing} {r : Resolver}

theorem told_report (token : Token) (fault : StaticFault) :
    (report token fault r).2.told = r.told ++ [(token, fault.message)] := by
  have hreport : (report token fault r).2 = { r with errors := ⟨token, fault⟩ :: r.errors } := rfl
  rw [hreport]
  simp [told, StaticError.told]

theorem told_check (c : Prop) [Decidable c] (token : Token) (fault : StaticFault) :
    (check c token fault r).2.told = r.told ++ if c then [(token, fault.message)] else [] := by
  unfold check
  split
  · exact told_report token fault
  · exact (List.append_nil _).symm

theorem told_mark (name : Token) (ready : Bool) : (mark name ready r).2.told = r.told := by
  rw [mark_run]
  rfl

/-- What is wrong in the given places. -/
abbrev violations (uses : List Use) : List (Token × String) := uses.flatMap Use.violations

/-! ## Expressions -/

/-- A name waits for its initializer exactly where the constructs around say so. -/
def Awaits (around : List Enclosing) (r : Resolver) : Prop :=
  ∀ name, inOwnInitializer r.scopes name = Enclosing.inInitializerOf name around

theorem told_variableRef (h : Awaits around r) (ref : Ref) :
    (variableRef ref r).2.told = r.told ++ violations [⟨.reads ref.name, around⟩] := by
  rw [variableRef_run]
  refine (told_check (r := r) _ ref.name .ownInitializer).trans ?_
  rw [h]
  simp [violations, Use.violations, StaticFault.message]

theorem told_this (ref : Ref) :
    (expression (Enclosing.classContext around) (.this ref) r).2.told =
      r.told ++ violations [⟨.this ref.name, around⟩] := by
  rw [expression]
  simp only [violations, Use.violations, List.flatMap_singleton, Enclosing.classContext_eq_none]
  cases around.findSome? Enclosing.superclass? with
  | none => exact told_report (r := r) ref.name .thisOutsideClass
  | some superclass => exact (List.append_nil _).symm

theorem told_super (ref : Ref) (method : Token) :
    (expression (Enclosing.classContext around) (.super ref method) r).2.told =
      r.told ++ violations [⟨.super ref.name, around⟩] := by
  rw [expression_super]
  simp only [violations, Use.violations, List.flatMap_singleton, Enclosing.classContext]
  cases around.findSome? Enclosing.superclass? with
  | none => exact told_report (r := r) ref.name .superOutsideClass
  | some superclass =>
    cases superclass with
    | none => exact told_report (r := r) ref.name .superWithoutSuperclass
    | some _ => exact (List.append_nil _).symm

theorem Awaits.after (h : Awaits around r) {p : Resolve α} (hp : Keeps p) :
    Awaits around (p r).2 := fun name => by rw [(hp r).1]; exact h name

/-- Two passes over expressions, one after the other. -/
theorem told_pair {es es' : List Deed} {p : Resolve α} {q : Resolve β} (hp : Keeps p)
    (h : Awaits around r)
    (hes : (p r).2.told = r.told ++ violations (es.map (⟨·, around⟩)))
    (hes' : ∀ r, Awaits around r →
      (q r).2.told = r.told ++ violations (es'.map (⟨·, around⟩))) :
    (q (p r).2).2.told = r.told ++ violations ((es ++ es').map (⟨·, around⟩)) := by
  rw [hes' _ (h.after hp), hes, List.append_assoc, List.map_append, violations, violations,
    violations, List.flatMap_append]

mutual

/-- An expression makes the complaints of its places. -/
theorem told_expression : ∀ (e : Expr) (r : Resolver), Awaits around r →
    (expression (Enclosing.classContext around) e r).2.told = r.told ++ violations (e.uses around)
  | .literal _ _, r, _ => by rw [expression]; exact (List.append_nil _).symm
  | .grouping _ e, r, h => by rw [expression]; exact told_expression e r h
  | .unary _ _ e, r, h => by rw [expression]; exact told_expression e r h
  | .get e _, r, h => by rw [expression]; exact told_expression e r h
  | .assign _ v, r, h => by rw [expression]; exact told_expression v r h
  | .binary _ _ a b, r, h => by
    rw [expression]
    exact told_pair (keeps_expression _ a) h (told_expression a r h) (told_expression b)
  | .logical _ _ a b, r, h => by
    rw [expression]
    exact told_pair (keeps_expression _ a) h (told_expression a r h) (told_expression b)
  | .call _ f args, r, h => by
    rw [expression]
    exact told_pair (keeps_expression _ f) h (told_expression f r h) (told_expressions args)
  | .set o _ v, r, h => by
    rw [expression]
    exact told_pair (keeps_expression _ v) h (told_expression v r h) (told_expression o)
  | .var ref, r, h => by rw [expression]; exact told_variableRef h ref
  | .this ref, r, _ => told_this ref
  | .super ref method, r, _ => told_super ref method

theorem told_expressions : ∀ (es : List Expr) (r : Resolver), Awaits around r →
    (expressions (Enclosing.classContext around) es r).2.told =
      r.told ++ violations ((Expr.listDeeds es).map (⟨·, around⟩))
  | [], r, _ => by rw [expressions]; exact (List.append_nil _).symm
  | e :: es, r, h => by
    rw [expressions]
    exact told_pair (keeps_expression _ e) h (told_expression e r h) (told_expressions es)

end

/-! ## Statements -/

/-- Between two statements no name waits for its initializer, and a scope is open unless the
place is at the top level. -/
structure Settled (around : List Enclosing) (r : Resolver) : Prop where
  top : r.scopes.isEmpty = around.isEmpty
  ready : ∀ scope ∈ r.scopes, scope.Ready
  /-- The place is not in an initializer. -/
  statement : ∀ name, Enclosing.inInitializerOf name around = false

theorem Settled.awaits (h : Settled around r) : Awaits around r := by
  intro name
  rw [h.statement]
  cases hs : r.scopes with
  | nil => rfl
  | cons scope outer =>
    have hready := h.ready scope (by simp [hs]) name
    simp only [inOwnInitializer]
    cases hget : scope.get? name with
    | none => rfl
    | some b => rw [hready b hget]; rfl

/-- In the initializer of a variable that name alone waits. -/
theorem Settled.declared (h : Settled around r) (name : Token) :
    Awaits (.initializer name :: around) (declare name r).2 := by
  intro x
  have hscopes : (declare name r).2.scopes = marked name.lexeme false r.scopes :=
    mark_scopes name false r
  rw [hscopes, Enclosing.inInitializerOf, ← h.top]
  cases hs : r.scopes with
  | nil => simp [marked, inOwnInitializer]
  | cons scope outer =>
    simp only [marked, inOwnInitializer, Bindings.get?_insert]
    by_cases hx : name.lexeme = x
    · simp [hx]
    · have hready := h.ready scope (by simp [hs]) x
      cases hget : scope.get? x with
      | none => simp [hx]
      | some b => simp [hx, hready b hget]

/-- A pass over statements from `r`: it makes the given complaints, touches the innermost scope
at most, and leaves no name waiting. -/
structure Passes (around : List Enclosing) (uses : List Use) (r r' : Resolver) : Prop where
  told : r'.told = r.told ++ violations uses
  settled : Settled around r'
  outer : r'.scopes.tail = r.scopes.tail

theorem Passes.refl (h : Settled around r) : Passes around [] r r :=
  ⟨(List.append_nil _).symm, h, rfl⟩

theorem Passes.trans {uses uses' : List Use} {r' r'' : Resolver} (h : Passes around uses r r')
    (h' : Passes around uses' r' r'') : Passes around (uses ++ uses') r r'' := by
  refine ⟨?_, h'.settled, h'.outer.trans h.outer⟩
  rw [h'.told, h.told, List.append_assoc, violations, violations, violations,
    List.flatMap_append]

/-- A pass that leaves all scopes alone. -/
theorem Passes.keeping {uses : List Use} {p : Resolve α} (h : Settled around r) (hp : Keeps p)
    (ht : (p r).2.told = r.told ++ violations uses) : Passes around uses r (p r).2 :=
  ⟨ht, ⟨(hp r).1 ▸ h.top, (hp r).1 ▸ h.ready, h.statement⟩, congrArg List.tail (hp r).1⟩

theorem passes_expression (h : Settled around r) (e : Expr) :
    Passes around (e.uses around) r (expression (Enclosing.classContext around) e r).2 :=
  .keeping h (keeps_expression _ e) (told_expression e r h.awaits)

/-- The innermost scope has one more name, and that is initialized. -/
theorem passes_marked (h : Settled around r) {r' : Resolver} (name : Bytes) {uses : List Use}
    (ht : r'.told = r.told ++ violations uses) (hs : r'.scopes = marked name true r.scopes) :
    Passes around uses r r' := by
  refine ⟨ht, ⟨?_, hs ▸ ready_marked h.ready, h.statement⟩, ?_⟩
  · rw [← h.top, hs]
    cases r.scopes <;> rfl
  · rw [hs, tail_marked]

theorem passes_opened (h : Settled around r) (name : Token) :
    Passes around [] r (opened name r) := by
  refine passes_marked h _ ?_ (opened_scopes name r)
  rw [opened_run]
  exact (List.append_nil _).symm

theorem told_ret (keyword : Token) :
    (check (Enclosing.functionContext around = .none) keyword .topLevelReturn r).2.told =
      r.told ++ violations [⟨.returns keyword false, around⟩] := by
  rw [told_check]
  simp only [violations, Use.violations, List.flatMap_singleton,
    Enclosing.functionContext_eq_none]
  cases around.any Enclosing.isFunction <;> rfl

theorem told_ret_value (keyword : Token) :
    ((check (Enclosing.functionContext around = .none) keyword .topLevelReturn >>= fun _ =>
      check (Enclosing.functionContext around = .initializer) keyword .initializerReturn)
        r).2.told = r.told ++ violations [⟨.returns keyword true, around⟩] := by
  refine (told_check (r := (check _ keyword .topLevelReturn r).2) _ keyword
    .initializerReturn).trans ?_
  rw [told_check, List.append_assoc]
  simp only [violations, Use.violations, List.flatMap_singleton,
    Enclosing.functionContext_eq_none, Enclosing.functionContext_eq_initializer]
  cases around.any Enclosing.isFunction <;> cases Enclosing.inInit around <;> rfl

/-- Inside a construct that opens a scope, whose names are all initialized. -/
theorem settled_inner {e : Enclosing} {scope : Scope} {scopes : List Scope}
    {errors : List StaticError} (hscope : scope.Ready) (hscopes : ∀ s ∈ scopes, s.Ready)
    (he : ∀ name, Enclosing.inInitializerOf name (e :: around) = false) :
    Settled (e :: around) ⟨scope :: scopes, errors⟩ := by
  refine ⟨rfl, fun s hs => ?_, he⟩
  rcases List.mem_cons.1 hs with rfl | hs
  · exact hscope
  · exact hscopes s hs

/-- Leaving the scope that was opened restores the scopes around it. -/
theorem Passes.close (h : Settled around r) {inner : List Enclosing} {uses : List Use}
    {scope : Scope} {r' : Resolver} (hp : Passes inner uses ⟨scope :: r.scopes, r.errors⟩ r') :
    Passes around uses r ⟨r'.scopes.tail, r'.errors⟩ :=
  ⟨hp.told, ⟨hp.outer ▸ h.top, hp.outer ▸ h.ready, h.statement⟩, congrArg List.tail hp.outer⟩

mutual

/-- A statement makes the complaints of its places, in order. -/
theorem passes_statement : ∀ (s : Stmt) (around : List Enclosing) (r : Resolver),
    Settled around r → Passes around (s.uses around) r
      (statement (Enclosing.functionContext around) (Enclosing.classContext around) s r).2
  | .expr _ e, around, r, h => by rw [statement]; exact passes_expression h e
  | .print _ e, around, r, h => by rw [statement]; exact passes_expression h e
  | .varDecl _ name none, around, r, h => by rw [statement]; exact passes_opened h name
  | .varDecl _ name (some e), around, r, h => by
    rw [statement]
    have hexpr := told_expression e (declare name r).2 (h.declared name)
    refine passes_marked h name.lexeme ?_ ?_
    · exact (told_mark name true).trans (hexpr.trans (congrArg (· ++ _) (told_mark name false)))
    · refine (mark_scopes name true _).trans ?_
      rw [(keeps_expression _ e _).1]
      exact (congrArg _ (mark_scopes name false r)).trans (marked_marked _ _ _ _)
  | .block _ body, around, r, h => by
    rw [statement]
    have hin : Settled (.block :: around) ⟨[] :: r.scopes, r.errors⟩ :=
      settled_inner Position.nil_ready h.ready fun _ => rfl
    exact (passes_statements body (.block :: around) _ hin).close h
  | .ifElse _ cond yes none, around, r, h => by
    rw [statement]
    have hcond := passes_expression h cond
    exact hcond.trans (passes_statement yes around _ hcond.settled)
  | .ifElse _ cond yes (some no), around, r, h => by
    rw [statement]
    have hcond := passes_expression h cond
    have hyes := passes_statement yes around _ hcond.settled
    exact hcond.trans (hyes.trans (passes_statement no around _ hyes.settled))
  | .loop _ cond body, around, r, h => by
    rw [statement]
    have hcond := passes_expression h cond
    exact hcond.trans (passes_statement body around _ hcond.settled)
  | .funDecl (.mk name params body), around, r, h => by
    rw [statement]
    have hname := passes_opened h name
    exact hname.trans (passes_function (.mk name params body) .function around _ (fun _ => rfl)
      hname.settled)
  | .ret keyword none, around, r, h => by
    rw [statement_ret_none]
    exact .keeping h (keeps_check _ _ _) (told_ret keyword)
  | .ret keyword (some e), around, r, h => by
    rw [statement_ret_some]
    have hret : Passes around [⟨.returns keyword true, around⟩] r
        (Position.atReturnValue (Enclosing.functionContext around) keyword r) :=
      .keeping h (keeps_bind (keeps_check _ _ _) fun _ => keeps_check _ _ _)
        (told_ret_value keyword)
    exact hret.trans (passes_expression hret.settled e)
  | .classDecl _ name none ms, around, r, h => by
    rw [statement]
    have hname := passes_opened h name
    have hin : Settled (.cls none :: around)
        ⟨thisScope :: (opened name r).scopes, (opened name r).errors⟩ :=
      settled_inner (Position.singleton_ready _) hname.settled.ready fun _ => rfl
    exact hname.trans ((passes_methods ms (.cls none :: around) _ hin).close hname.settled)
  | .classDecl _ name (some ref) ms, around, r, h => by
    rw [statement_subclass]
    have hname := passes_opened h name
    have hself : Passes around [⟨.inherits name ref.name, around⟩] (opened name r) _ :=
      .keeping hname.settled (keeps_check (ref.name.lexeme = name.lexeme) ref.name
        .selfInheritance) ((told_check _ _ _).trans (by simp [violations, Use.violations,
          StaticFault.message]))
    have hread := Passes.keeping hself.settled (keeps_variableRef ref)
      (told_variableRef hself.settled.awaits ref)
    have hup := (hname.trans hself).trans hread
    have hsuper : Settled (.cls (some ref) :: around)
        ⟨superScope :: (variableRef ref (Position.atSuperclass name ref r)).2.scopes,
          (variableRef ref (Position.atSuperclass name ref r)).2.errors⟩ :=
      settled_inner (Position.singleton_ready _) hup.settled.ready fun _ => rfl
    have hin : Settled (.cls (some ref) :: around) (Position.atSubclassMethods name ref r) :=
      settled_inner (Position.singleton_ready _) hsuper.ready fun _ => rfl
    exact hup.trans (((passes_methods ms (.cls (some ref) :: around) _ hin).close hsuper).close
      hup.settled)

theorem passes_statements : ∀ (ss : List Stmt) (around : List Enclosing) (r : Resolver),
    Settled around r → Passes around (Stmt.listUses around ss) r
      (statements (Enclosing.functionContext around) (Enclosing.classContext around) ss r).2
  | [], around, r, h => by rw [statements]; exact .refl h
  | s :: ss, around, r, h => by
    rw [statements]
    have hs := passes_statement s around r h
    exact hs.trans (passes_statements ss around _ hs.settled)

theorem passes_function : ∀ (f : FunDecl) (e : Enclosing) (around : List Enclosing)
    (r : Resolver), (∀ x, Enclosing.inInitializerOf x (e :: around) = false) →
    Settled around r → Passes around (Stmt.listUses (e :: around) f.body) r
      (function (Enclosing.functionContext (e :: around)) (Enclosing.classContext (e :: around))
        f r).2
  | .mk name params body, e, around, r, he, h => by
    rw [function]
    have hstart : (parameters params ⟨[] :: r.scopes, r.errors⟩).2 =
        ⟨parameterScope params :: r.scopes, r.errors⟩ := by rw [parameters_run]; rfl
    have hin : Settled (e :: around) ⟨parameterScope params :: r.scopes, r.errors⟩ :=
      settled_inner (ready_foldl_insert params [] Position.nil_ready) h.ready he
    have hbody : Passes (e :: around) (Stmt.listUses (e :: around) body)
        ⟨parameterScope params :: r.scopes, r.errors⟩
        (statements (Enclosing.functionContext (e :: around))
          (Enclosing.classContext (e :: around)) body
          (parameters params ⟨[] :: r.scopes, r.errors⟩).2).2 := by
      rw [hstart]
      exact passes_statements body (e :: around) _ hin
    exact hbody.close h

theorem passes_methods : ∀ (ms : List FunDecl) (around : List Enclosing) (r : Resolver),
    Settled around r → Passes around (FunDecl.listUses around ms) r
      (methods (Enclosing.classContext around) ms r).2
  | [], around, r, h => by rw [methods]; exact .refl h
  | .mk name params body :: ms, around, r, h => by
    rw [methods]
    have hm := passes_function (.mk name params body) (.method name) around r (fun _ => rfl) h
    exact hm.trans (passes_methods ms around _ hm.settled)

end

end Resolver

/-- **The resolver complains about the lexical violations and about nothing else**, in visiting
order and in these words, whatever statements it is given. -/
theorem Resolution.errors_are_violations (program : List Stmt) :
    (Resolution.ofStatements program).errors.map StaticError.told =
      (Stmt.listUses [] program).flatMap Use.violations := by
  have h : Resolver.Settled [] ⟨[], []⟩ := ⟨rfl, by simp, fun _ => rfl⟩
  exact (Resolver.passes_statements program [] ⟨[], []⟩ h).told

end Lox
