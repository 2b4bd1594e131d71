import Lox.Proofs.Bindings
import Lox.Proofs.Scope.Proper
/-!
# What resolving does to the open scopes

Errors are never taken back. An expression leaves the scopes as they are, and a statement adds
to the innermost scope the name that it declares and nothing else.
-/

namespace Lox.Resolver

variable {α β : Type} {fn : FunctionContext} {cls : ClassContext}

/-! ## The checks on the way -/

/-- Reports a fault if there is one. -/
def check (c : Prop) [Decidable c] (t : Token) (fault : StaticFault) : Resolve Unit :=
  if c then report t fault else pure ()

/-- What has to hold of the class around `super`. -/
def checkSuper (cls : ClassContext) (t : Token) : Resolve Unit :=
  match cls with
  | .none => report t .superOutsideClass
  | .plain => report t .superWithoutSuperclass
  | .subclass => pure ()

theorem check_clean {c : Prop} [Decidable c] {t : Token} {fault : StaticFault} {r : Resolver}
    (h : (check c t fault r).2.errors = []) : ¬ c := by
  unfold check at h
  split at h
  · cases h
  · assumption

theorem checkSuper_clean {t : Token} {r : Resolver} (h : (checkSuper cls t r).2.errors = []) :
    cls = .subclass := by
  cases cls with
  | none => cases h
  | plain => cases h
  | subclass => rfl

theorem variableRef_run (ref : Ref) (r : Resolver) :
    variableRef ref r = (check (inOwnInitializer r.scopes ref.name.lexeme = true) ref.name
      .ownInitializer >>= fun _ => pin ref ref.name.lexeme) r := by
  rw [variableRef, check]
  show (if _ then _ else _ : Resolve Ref) r = _
  split <;> rfl

theorem expression_super (ref : Ref) (method : Token) : expression cls (.super ref method) =
    (checkSuper cls ref.name >>= fun _ => pin ref (utf8 "super") >>= fun ref =>
      pure (.super ref method)) := by
  cases cls <;> rw [expression] <;> rfl

theorem statement_ret_none (keyword : Token) : statement fn cls (.ret keyword none) =
    (check (fn = .none) keyword .topLevelReturn >>= fun _ => pure (.ret keyword none)) := by
  rw [statement, check]
  split <;> rfl

theorem statement_ret_some (keyword : Token) (e : Expr) :
    statement fn cls (.ret keyword (some e)) =
      (check (fn = .none) keyword .topLevelReturn >>= fun _ =>
        check (fn = .initializer) keyword .initializerReturn >>= fun _ =>
        expression cls e >>= fun e => pure (.ret keyword (some e))) := by
  rw [statement, check, check]
  split <;> split <;> rfl

theorem statement_subclass (keyword name : Token) (ref : Ref) (ms : List FunDecl) :
    statement fn cls (.classDecl keyword name (some ref) ms) = (do
      declare name
      define name
      check (ref.name.lexeme = name.lexeme) ref.name .selfInheritance
      let ref ← variableRef ref
      openScope [(utf8 "super", true)]
      openScope [(utf8 "this", true)]
      let ms ← methods .subclass ms
      closeScope
      closeScope
      return .classDecl keyword name (some ref) ms) := by
  rw [statement, check]
  split <;> rfl

/-! ## Expressions -/

/-- A pass that leaves the scopes as they are and takes no error back. -/
def Keeps (p : Resolve α) : Prop :=
  ∀ r, (p r).2.scopes = r.scopes ∧ ((p r).2.errors = [] → r.errors = [])

theorem keeps_pure (a : α) : Keeps (Pure.pure a : Resolve α) := fun _ => ⟨rfl, id⟩

theorem keeps_bind {p : Resolve α} {f : α → Resolve β} (hp : Keeps p) (hf : ∀ a, Keeps (f a)) :
    Keeps (p >>= f) := fun r => ⟨(hf _ _).1.trans (hp r).1, (hp r).2 ∘ (hf _ _).2⟩

theorem keeps_report (t : Token) (fault : StaticFault) : Keeps (report t fault) := fun _ =>
  ⟨rfl, fun h => by cases h⟩

theorem keeps_pin (ref : Ref) (name : Bytes) : Keeps (pin ref name) := fun _ => ⟨rfl, id⟩

theorem keeps_check (c : Prop) [Decidable c] (t : Token) (fault : StaticFault) :
    Keeps (check c t fault) := by
  unfold check
  split
  · exact keeps_report t fault
  · exact keeps_pure ()

theorem keeps_checkSuper (t : Token) : ∀ cls, Keeps (checkSuper cls t)
  | .none => keeps_report _ _
  | .plain => keeps_report _ _
  | .subclass => keeps_pure ()

theorem keeps_variableRef (ref : Ref) : Keeps (variableRef ref) := by
  intro r
  rw [variableRef_run]
  exact keeps_bind (keeps_check _ _ _) (fun _ => keeps_pin _ _) r

mutual

theorem keeps_expression : ∀ cls e, Keeps (expression cls e)
  | _, .literal _ _ => by rw [expression]; exact keeps_pure _
  | _, .grouping _ e => by
    rw [expression]; exact keeps_bind (keeps_expression _ e) fun _ => keeps_pure _
  | _, .unary _ _ e => by
    rw [expression]; exact keeps_bind (keeps_expression _ e) fun _ => keeps_pure _
  | _, .binary _ _ a b => by
    rw [expression]
    exact keeps_bind (keeps_expression _ a) fun _ =>
      keeps_bind (keeps_expression _ b) fun _ => keeps_pure _
  | _, .logical _ _ a b => by
    rw [expression]
    exact keeps_bind (keeps_expression _ a) fun _ =>
      keeps_bind (keeps_expression _ b) fun _ => keeps_pure _
  | _, .var ref => by
    rw [expression]; exact keeps_bind (keeps_variableRef ref) fun _ => keeps_pure _
  | _, .assign ref v => by
    rw [expression]
    exact keeps_bind (keeps_expression _ v) fun _ =>
      keeps_bind (keeps_pin _ _) fun _ => keeps_pure _
  | _, .call _ f args => by
    rw [expression]
    exact keeps_bind (keeps_expression _ f) fun _ =>
      keeps_bind (keeps_expressions _ args) fun _ => keeps_pure _
  | _, .get o _ => by
    rw [expression]; exact keeps_bind (keeps_expression _ o) fun _ => keeps_pure _
  | _, .set o _ v => by
    rw [expression]
    exact keeps_bind (keeps_expression _ v) fun _ =>
      keeps_bind (keeps_expression _ o) fun _ => keeps_pure _
  | _, .this ref => by
    rw [expression]
    split
    · exact keeps_bind (keeps_report _ _) fun _ => keeps_pure _
    · exact keeps_bind (keeps_pin _ _) fun _ => keeps_pure _
  | _, .super ref _ => by
    rw [expression_super]
    exact keeps_bind (keeps_checkSuper _ _) fun _ =>
      keeps_bind (keeps_pin _ _) fun _ => keeps_pure _

theorem keeps_expressions : ∀ cls es, Keeps (expressions cls es)
  | _, [] => by rw [expressions]; exact keeps_pure _
  | _, e :: es => by
    rw [expressions]
    exact keeps_bind (keeps_expression _ e) fun _ =>
      keeps_bind (keeps_expressions _ es) fun _ => keeps_pure _

end

/-! ## Scopes and the names that statements declare -/

/-- The scopes after a name of the innermost one has been set. -/
def marked (name : Bytes) (ready : Bool) : List Scope → List Scope
  | [] => []
  | scope :: outer => scope.insert name ready :: outer

theorem mark_run (name : Token) (ready : Bool) (r : Resolver) :
    mark name ready r = ((), ⟨marked name.lexeme ready r.scopes, r.errors⟩) := by
  obtain ⟨scopes, errors⟩ := r
  cases scopes <;> rfl

theorem marked_marked (name : Bytes) (a b : Bool) (scopes : List Scope) :
    marked name b (marked name a scopes) = marked name b scopes := by
  cases scopes with
  | nil => rfl
  | cons scope outer => simp only [marked, Bindings.insert_insert_self]

theorem tail_marked (name : Bytes) (ready : Bool) (scopes : List Scope) :
    (marked name ready scopes).tail = scopes.tail := by
  cases scopes <;> rfl

/-- The scopes after a statement. -/
def afterStmt (s : Stmt) (scopes : List Scope) : List Scope :=
  match s.declared? with
  | some name => marked name.lexeme true scopes
  | none => scopes

def afterStmts (ss : List Stmt) (scopes : List Scope) : List Scope :=
  ss.foldl (fun scopes s => afterStmt s scopes) scopes

theorem tail_afterStmt (s : Stmt) (scopes : List Scope) :
    (afterStmt s scopes).tail = scopes.tail := by
  unfold afterStmt
  split
  · exact tail_marked _ _ _
  · rfl

theorem tail_afterStmts : ∀ (ss : List Stmt) (scopes : List Scope),
    (afterStmts ss scopes).tail = scopes.tail
  | [], _ => rfl
  | s :: ss, scopes => (tail_afterStmts ss (afterStmt s scopes)).trans (tail_afterStmt s scopes)

/-! ## Statements and errors -/

/-- A pass that ends without errors began without errors. -/
def Quiet (p : Resolve α) : Prop := ∀ r, (p r).2.errors = [] → r.errors = []

theorem quiet_of_keeps {p : Resolve α} (h : Keeps p) : Quiet p := fun r => (h r).2

theorem quiet_pure (a : α) : Quiet (Pure.pure a : Resolve α) := fun _ h => h

theorem quiet_bind {p : Resolve α} {f : α → Resolve β} (hp : Quiet p) (hf : ∀ a, Quiet (f a)) :
    Quiet (p >>= f) := fun r h => hp r (hf _ _ h)

theorem quiet_openScope (scope : Scope) : Quiet (openScope scope) := fun _ h => h

theorem quiet_closeScope : Quiet closeScope := fun _ h => h

theorem quiet_mark (name : Token) (ready : Bool) : Quiet (mark name ready) := by
  intro r h
  rwa [mark_run] at h

theorem quiet_check (c : Prop) [Decidable c] (t : Token) (fault : StaticFault) :
    Quiet (check c t fault) := quiet_of_keeps (keeps_check c t fault)

theorem quiet_expression (cls : ClassContext) (e : Expr) : Quiet (expression cls e) :=
  quiet_of_keeps (keeps_expression cls e)

theorem quiet_parameters : ∀ params, Quiet (parameters params)
  | [] => quiet_pure _
  | p :: rest => quiet_bind (quiet_mark p false) fun _ => quiet_bind (quiet_mark p true) fun _ =>
      quiet_parameters rest

mutual

theorem quiet_statement : ∀ fn cls s, Quiet (statement fn cls s)
  | _, _, .expr _ e => by
    rw [statement]; exact quiet_bind (quiet_expression _ e) fun _ => quiet_pure _
  | _, _, .print _ e => by
    rw [statement]; exact quiet_bind (quiet_expression _ e) fun _ => quiet_pure _
  | _, _, .varDecl _ name none => by
    rw [statement]
    exact quiet_bind (quiet_mark _ _) fun _ => quiet_bind (quiet_mark _ _) fun _ => quiet_pure _
  | _, _, .varDecl _ name (some e) => by
    rw [statement]
    exact quiet_bind (quiet_mark _ _) fun _ => quiet_bind (quiet_expression _ e) fun _ =>
      quiet_bind (quiet_mark _ _) fun _ => quiet_pure _
  | _, _, .block _ body => by
    rw [statement]
    exact quiet_bind (quiet_openScope _) fun _ => quiet_bind (quiet_statements _ _ body) fun _ =>
      quiet_bind quiet_closeScope fun _ => quiet_pure _
  | _, _, .ifElse _ c yes none => by
    rw [statement]
    exact quiet_bind (quiet_expression _ c) fun _ =>
      quiet_bind (quiet_statement _ _ yes) fun _ => quiet_pure _
  | _, _, .ifElse _ c yes (some no) => by
    rw [statement]
    exact quiet_bind (quiet_expression _ c) fun _ => quiet_bind (quiet_statement _ _ yes) fun _ =>
      quiet_bind (quiet_statement _ _ no) fun _ => quiet_pure _
  | _, _, .loop _ c body => by
    rw [statement]
    exact quiet_bind (quiet_expression _ c) fun _ =>
      quiet_bind (quiet_statement _ _ body) fun _ => quiet_pure _
  | _, _, .funDecl (.mk name params body) => by
    rw [statement]
    exact quiet_bind (quiet_mark _ _) fun _ => quiet_bind (quiet_mark _ _) fun _ =>
      quiet_bind (quiet_function _ _ (.mk name params body)) fun _ => quiet_pure _
  | _, _, .ret _ none => by
    rw [statement_ret_none]; exact quiet_bind (quiet_check _ _ _) fun _ => quiet_pure _
  | _, _, .ret _ (some e) => by
    rw [statement_ret_some]
    exact quiet_bind (quiet_check _ _ _) fun _ => quiet_bind (quiet_check _ _ _) fun _ =>
      quiet_bind (quiet_expression _ e) fun _ => quiet_pure _
  | _, _, .classDecl _ name none ms => by
    rw [statement]
    exact quiet_bind (quiet_mark _ _) fun _ => quiet_bind (quiet_mark _ _) fun _ =>
      quiet_bind (quiet_openScope _) fun _ => quiet_bind (quiet_methods _ ms) fun _ =>
      quiet_bind quiet_closeScope fun _ => quiet_pure _
  | _, _, .classDecl _ name (some ref) ms => by
    rw [statement_subclass]
    exact quiet_bind (quiet_mark _ _) fun _ => quiet_bind (quiet_mark _ _) fun _ =>
      quiet_bind (quiet_check _ _ _) fun _ =>
      quiet_bind (quiet_of_keeps (keeps_variableRef ref)) fun _ =>
      quiet_bind (quiet_openScope _) fun _ => quiet_bind (quiet_openScope _) fun _ =>
      quiet_bind (quiet_methods _ ms) fun _ => quiet_bind quiet_closeScope fun _ =>
      quiet_bind quiet_closeScope fun _ => quiet_pure _

theorem quiet_statements : ∀ fn cls ss, Quiet (statements fn cls ss)
  | _, _, [] => by rw [statements]; exact quiet_pure _
  | _, _, s :: ss => by
    rw [statements]
    exact quiet_bind (quiet_statement _ _ s) fun _ =>
      quiet_bind (quiet_statements _ _ ss) fun _ => quiet_pure _

theorem quiet_function : ∀ fn cls f, Quiet (function fn cls f)
  | _, _, .mk name params body => by
    rw [function]
    exact quiet_bind (quiet_openScope _) fun _ => quiet_bind (quiet_parameters params) fun _ =>
      quiet_bind (quiet_statements _ _ body) fun _ =>
      quiet_bind quiet_closeScope fun _ => quiet_pure _

theorem quiet_methods : ∀ cls fs, Quiet (methods cls fs)
  | _, [] => by rw [methods]; exact quiet_pure _
  | _, .mk name params body :: fs => by
    rw [methods]
    exact quiet_bind (quiet_function _ _ (.mk name params body)) fun _ =>
      quiet_bind (quiet_methods _ fs) fun _ => quiet_pure _

end

/-! ## Statements and scopes -/

theorem mark_scopes (name : Token) (ready : Bool) (r : Resolver) :
    (mark name ready r).2.scopes = marked name.lexeme ready r.scopes := by rw [mark_run]

/-- The state after a name has been declared and defined. -/
def opened (name : Token) (r : Resolver) : Resolver := (define name (declare name r).2).2

theorem opened_run (name : Token) (r : Resolver) :
    opened name r = ⟨marked name.lexeme true r.scopes, r.errors⟩ := by
  simp only [opened, declare, define, mark_run, marked_marked]

theorem opened_scopes (name : Token) (r : Resolver) :
    (opened name r).scopes = marked name.lexeme true r.scopes := by rw [opened_run]

theorem parameters_tail : ∀ (params : List Token) (r : Resolver),
    (parameters params r).2.scopes.tail = r.scopes.tail
  | [], _ => rfl
  | p :: rest, r => by
    refine (parameters_tail rest (opened p r)).trans ?_
    rw [opened_scopes]
    exact tail_marked _ _ _

mutual

theorem statement_scopes : ∀ fn cls s, s.Proper → ∀ r,
    (statement fn cls s r).2.scopes = afterStmt s r.scopes
  | _, cls, .expr _ e, _, r => by rw [statement]; exact (keeps_expression cls e r).1
  | _, cls, .print _ e, _, r => by rw [statement]; exact (keeps_expression cls e r).1
  | _, _, .varDecl _ name none, _, r => by
    rw [statement]
    exact opened_scopes name r
  | _, cls, .varDecl _ name (some e), _, r => by
    rw [statement]
    refine (mark_scopes name true _).trans ?_
    rw [(keeps_expression cls e _).1]
    exact (congrArg _ (mark_scopes name false r)).trans (marked_marked _ _ _ _)
  | fn, cls, .block _ body, h, r => by
    rw [statement]
    have hbody := statements_scopes fn cls body h ⟨[] :: r.scopes, r.errors⟩
    exact (congrArg List.tail hbody).trans (tail_afterStmts body _)
  | fn, cls, .ifElse _ c yes none, h, r => by
    rw [statement]
    refine (statement_scopes fn cls yes h.2.1 _).trans ?_
    rw [(keeps_expression cls c r).1, afterStmt, h.2.2]
    rfl
  | fn, cls, .ifElse _ c yes (some no), h, r => by
    rw [statement]
    refine (statement_scopes fn cls no h.2.2.1 _).trans ?_
    rw [afterStmt, h.2.2.2]
    refine (statement_scopes fn cls yes h.2.1.1 _).trans ?_
    rw [(keeps_expression cls c r).1, afterStmt, h.2.1.2]
    rfl
  | fn, cls, .loop _ c body, h, r => by
    rw [statement]
    refine (statement_scopes fn cls body h.2.1 _).trans ?_
    rw [(keeps_expression cls c r).1, afterStmt, h.2.2]
    rfl
  | _, cls, .funDecl (.mk name params body), h, r => by
    rw [statement]
    exact (function_scopes .function cls (.mk name params body) h (opened name r)).trans
      (opened_scopes name r)
  | _, _, .ret k none, _, r => by
    rw [statement_ret_none]; exact (keeps_check _ _ _ r).1
  | _, cls, .ret k (some e), _, r => by
    rw [statement_ret_some]
    exact (keeps_bind (keeps_check _ _ _) (fun _ => keeps_bind (keeps_check _ _ _) fun _ =>
      keeps_bind (keeps_expression cls e) fun _ => keeps_pure _) r).1
  | _, _, .classDecl _ name none ms, h, r => by
    rw [statement]
    refine (congrArg List.tail (methods_scopes .plain ms h.2
      ⟨[(utf8 "this", true)] :: (opened name r).scopes, (opened name r).errors⟩)).trans ?_
    exact opened_scopes name r
  | _, _, .classDecl _ name (some ref) ms, h, r => by
    rw [statement_subclass]
    have hkeep : ∀ r, ((check (ref.name.lexeme = name.lexeme) ref.name .selfInheritance >>=
        fun _ => variableRef ref) r).2.scopes = r.scopes := fun r =>
      (keeps_bind (keeps_check _ _ _) (fun _ => keeps_variableRef ref) r).1
    have hopen := hkeep (opened name r)
    refine (congrArg (fun l => l.tail.tail) (methods_scopes .subclass ms h.2.2 _)).trans ?_
    exact hopen.trans (opened_scopes name r)

theorem statements_scopes : ∀ fn cls ss, Stmt.AllProper ss → ∀ r,
    (statements fn cls ss r).2.scopes = afterStmts ss r.scopes
  | _, _, [], _, _ => by rw [statements]; rfl
  | fn, cls, s :: ss, h, r => by
    rw [statements]
    refine (statements_scopes fn cls ss h.2 _).trans ?_
    rw [statement_scopes fn cls s h.1 r]
    rfl

theorem function_scopes : ∀ fn cls f, f.Proper → ∀ r, (function fn cls f r).2.scopes = r.scopes
  | fn, cls, .mk name params body, h, r => by
    rw [function]
    refine (congrArg List.tail (statements_scopes fn cls body h.2.2 _)).trans ?_
    exact (tail_afterStmts body _).trans (parameters_tail params ⟨[] :: r.scopes, r.errors⟩)

theorem methods_scopes : ∀ cls fs, FunDecl.AllProper fs → ∀ r,
    (methods cls fs r).2.scopes = r.scopes
  | _, [], _, _ => by rw [methods]; rfl
  | cls, .mk name params body :: fs, h, r => by
    rw [methods]
    exact (methods_scopes cls fs h.2 _).trans
      (function_scopes (methodContext name) cls (.mk name params body) h.1 r)

end

end Lox.Resolver
