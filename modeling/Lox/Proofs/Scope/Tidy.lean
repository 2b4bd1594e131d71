import Lox.Proofs.Scope.Visits
import Lox.Scope.References
/-!
# Programs in which names do not change their meaning

A block or a body may declare a name after it has used the same name of an outer scope, and the
initializer of a variable may assign to the variable that it initializes. In a tidy program neither
happens. `Visits.tidy` says what this comes to at every position that the resolver visits: a scope
that a reference is resolved past will never declare the name.
-/

namespace Lox

/-! ## References that are resolved past a scope -/

/-- The variable of a reference that is resolved more than `k` scopes out, or to no scope. -/
def Reference.past? (k : Nat) (r : Reference) : Option Bytes :=
  match r.form with
  | .read | .write => if r.ref.hops.all (k < ·) then some r.ref.name.lexeme else none
  | .this | .super => none

def pastNames (refs : List Reference) (k : Nat) : List Bytes := refs.filterMap (·.past? k)

/-- The variables that are assigned to. -/
def writtenNames (refs : List Reference) : List Bytes :=
  refs.filterMap fun r => if r.form = .write then some r.ref.name.lexeme else none

mutual

/-- The variables of references in a statement that are resolved past the scope `k` scopes out
from the statement. -/
def Stmt.past : Stmt → Nat → List Bytes
  | .expr _ e, k | .print _ e, k => pastNames e.references k
  | .varDecl _ _ none, _ => []
  | .varDecl _ _ (some init), k => pastNames init.references k
  | .block _ body, k => Stmt.listPast body (k + 1)
  | .ifElse _ cond yes none, k => pastNames cond.references k ++ yes.past k
  | .ifElse _ cond yes (some no), k => pastNames cond.references k ++ (yes.past k ++ no.past k)
  | .loop _ cond body, k => pastNames cond.references k ++ body.past k
  | .funDecl f, k => f.past k
  | .ret _ none, _ => []
  | .ret _ (some e), k => pastNames e.references k
  | .classDecl _ _ none ms, k => FunDecl.listPast ms (k + 1)
  | .classDecl _ _ (some ref) ms, k =>
    pastNames [⟨.read, ref⟩] k ++ FunDecl.listPast ms (k + 2)

def Stmt.listPast : List Stmt → Nat → List Bytes
  | [], _ => []
  | s :: rest, k => s.past k ++ Stmt.listPast rest k

def FunDecl.past : FunDecl → Nat → List Bytes
  | .mk _ _ body, k => Stmt.listPast body (k + 1)

def FunDecl.listPast : List FunDecl → Nat → List Bytes
  | [], _ => []
  | f :: rest, k => f.past k ++ FunDecl.listPast rest k

end

/-! ## Tidy programs -/

/-- The initializer of a variable does not assign to the variable. -/
def Stmt.sparesOwn : Stmt → Bool
  | .varDecl _ name (some init) => !(writtenNames init.references).contains name.lexeme
  | _ => true

mutual

/-- All blocks and bodies inside the statement are tidy. -/
def Stmt.tidy : Stmt → Bool
  | .block _ body => Stmt.scopeTidy body
  | .ifElse _ _ yes none => yes.tidy
  | .ifElse _ _ yes (some no) => yes.tidy && no.tidy
  | .loop _ _ body => body.tidy
  | .funDecl f => f.tidy
  | .classDecl _ _ _ ms => FunDecl.listTidy ms
  | .expr _ _ | .print _ _ | .varDecl _ _ _ | .ret _ _ => true

/-- The statements of a local scope: none declares a name that an earlier one has resolved past
this scope, and no initializer assigns to its own variable. -/
def Stmt.scopeTidy : List Stmt → Bool
  | [] => true
  | s :: rest => s.tidy && s.sparesOwn &&
    (declaredNames rest).all (fun x => !(s.past 0).contains x) && Stmt.scopeTidy rest

def FunDecl.tidy : FunDecl → Bool
  | .mk _ _ body => Stmt.scopeTidy body

def FunDecl.listTidy : List FunDecl → Bool
  | [] => true
  | f :: rest => f.tidy && FunDecl.listTidy rest

end

/-- All local scopes of a program are tidy. -/
def Stmt.listTidy (program : List Stmt) : Bool := program.all Stmt.tidy

/-! ## Scopes that do not change the meaning of names -/

/-- An open scope has each of its names already, or the node at hand does not resolve the name
past this scope, or the node itself declares it. -/
structure Clear (layers : List Layer) (scopes : List Scope) (past : Nat → List Bytes)
    (own : List Bytes) : Prop where
  kept : ∀ i names scope, layers[i]? = some (.body names) → scopes[i]? = some scope →
    ∀ x ∈ names, scope.has x = true ∨ x ∉ past i ∨ (i = 0 ∧ x ∈ own)
  ordinary : ∀ names, Layer.body names ∈ layers → ∀ x ∈ names, Ordinary x

namespace Clear

variable {layers : List Layer} {scopes : List Scope} {past past' : Nat → List Bytes}
  {own own' : List Bytes}

theorem mono (h : Clear layers scopes past own) (hp : ∀ k x, x ∈ past' k → x ∈ past k)
    (ho : ∀ x ∈ own, x ∈ own' ∨ x ∉ past' 0) : Clear layers scopes past' own' := by
  refine ⟨fun i names scope hl hs x hx => ?_, h.ordinary⟩
  rcases h.kept i names scope hl hs x hx with hhas | hpast | ⟨rfl, hown⟩
  · exact .inl hhas
  · exact .inr (.inl fun hx => hpast (hp i x hx))
  · rcases ho x hown with hown | hpast
    · exact .inr (.inr ⟨rfl, hown⟩)
    · exact .inr (.inl hpast)

/-- A name that the node declares is added to the innermost scope. -/
theorem marked (h : Clear layers scopes past own) (name : Bytes) (ready : Bool)
    (ho : ∀ x ∈ own, x = name ∨ x ∈ own') :
    Clear layers (Resolver.marked name ready scopes) past own' := by
  refine ⟨fun i names scope hl hs x hx => ?_, h.ordinary⟩
  cases scopes with
  | nil => cases hs
  | cons first outer =>
    cases i with
    | zero =>
      cases hs
      rw [Bindings.has_insert, Bool.or_eq_true, decide_eq_true_eq]
      rcases h.kept 0 names first hl rfl x hx with hhas | hpast | ⟨-, hown⟩
      · exact .inl (.inr hhas)
      · exact .inr (.inl hpast)
      · rcases ho x hown with rfl | hown
        · exact .inl (.inl rfl)
        · exact .inr (.inr ⟨rfl, hown⟩)
    | succ i =>
      rcases h.kept (i + 1) names scope hl hs x hx with hhas | hpast | ⟨hi, -⟩
      · exact .inl hhas
      · exact .inr (.inl hpast)
      · cases hi

/-- The node declares just this name, and now it has. -/
theorem declares {name : Bytes} (h : Clear layers scopes past [name]) (ready : Bool) :
    Clear layers (Resolver.marked name ready scopes) past [] :=
  h.marked name ready fun _ hx => .inl (List.mem_singleton.1 hx)

theorem nil : Clear [] scopes past own := by
  refine ⟨fun i names scope hl => ?_, fun names hl => ?_⟩
  · cases hl
  · cases hl

/-- The statement at hand has been passed. -/
theorem afterStmt {s : Stmt} (h : Clear layers scopes past (declaredNames [s] ++ own)) :
    Clear layers (Resolver.afterStmt s scopes) past own := by
  unfold Resolver.afterStmt
  cases hd : s.declared? with
  | none =>
    rw [show declaredNames [s] = [] by simp [declaredNames, hd], List.nil_append] at h
    exact h
  | some name =>
    rw [show declaredNames [s] = [name.lexeme] by simp [declaredNames, hd]] at h
    exact h.marked name.lexeme true fun x hx => List.mem_cons.1 hx

/-- A block or a body is entered. -/
theorem body (h : Clear layers scopes past []) {names : List Bytes} {scope : Scope}
    (hp : ∀ k x, x ∈ past' (k + 1) → x ∈ past k) (hx : ∀ x ∈ names, Ordinary x)
    (ho : ∀ x ∈ names, scope.has x = true ∨ x ∈ own') :
    Clear (.body names :: layers) (scope :: scopes) past' own' := by
  refine ⟨fun i names' scope' hl hs x hx' => ?_, fun names' hl => ?_⟩
  · cases i with
    | zero =>
      cases hl
      cases hs
      exact (ho x hx').imp id fun hown => .inr ⟨rfl, hown⟩
    | succ i =>
      rcases h.kept i names' scope' hl hs x hx' with hhas | hpast | ⟨-, hown⟩
      · exact .inl hhas
      · exact .inr (.inl fun hx => hpast (hp i x hx))
      · cases hown
  · rcases List.mem_cons.1 hl with hl | hl
    · cases hl; exact hx
    · exact h.ordinary names' hl

/-- The scope of `this` or `super` is entered. -/
theorem keyword (h : Clear layers scopes past []) {l : Layer} {scope : Scope}
    (hl : ∀ names, l ≠ .body names) (hp : ∀ k x, x ∈ past' (k + 1) → x ∈ past k) :
    Clear (l :: layers) (scope :: scopes) past' [] := by
  refine ⟨fun i names' scope' hl' hs x hx' => ?_, fun names' hl' => ?_⟩
  · cases i with
    | zero => cases hl'; exact absurd rfl (hl names')
    | succ i =>
      rcases h.kept i names' scope' hl' hs x hx' with hhas | hpast | ⟨-, hown⟩
      · exact .inl hhas
      · exact .inr (.inl fun hx => hpast (hp i x hx))
      · cases hown
  · rcases List.mem_cons.1 hl' with hl' | hl'
    · exact absurd hl'.symm (hl names')
    · exact h.ordinary names' hl'

end Clear

/-- The references of an expression go past no scope that will declare them, and none of them
assigns to a variable that waits for its initializer. -/
structure ExprTidy (layers : List Layer) (scopes : List Scope) (refs : List Reference) : Prop where
  clear : Clear layers scopes (pastNames refs) []
  ready : ∀ x ∈ writtenNames refs, ∀ scope, scopes.head? = some scope → scope.get? x ≠ some false

theorem Nested.eq_nil {cls : ClassContext} {scopes : List Scope} (h : Nested cls [] scopes) :
    scopes = [] := by
  cases h
  rfl

theorem ExprTidy.mono {layers : List Layer} {scopes : List Scope} {refs refs' : List Reference}
    (h : ExprTidy layers scopes refs) (hsub : refs' ⊆ refs) : ExprTidy layers scopes refs' := by
  refine ⟨h.clear.mono (fun k x hx => ?_) (fun x hx => by cases hx), fun x hx => h.ready x ?_⟩
  · obtain ⟨r, hr, hrx⟩ := List.mem_filterMap.1 hx
    exact List.mem_filterMap.2 ⟨r, hsub hr, hrx⟩
  · obtain ⟨r, hr, hrx⟩ := List.mem_filterMap.1 hx
    exact List.mem_filterMap.2 ⟨r, hsub hr, hrx⟩

namespace Position

open Resolver

/-- What holds at the positions of a tidy program. -/
def Tidy : Position → Prop
  | ⟨.expr cls e, layers, r⟩ => ExprTidy layers r.scopes (expression cls e r).1.references
  | ⟨.exprs cls es, layers, r⟩ =>
    ExprTidy layers r.scopes (Expr.listReferences (expressions cls es r).1)
  | ⟨.stmt fn cls s, layers, r⟩ =>
    Clear layers r.scopes (statement fn cls s r).1.past (declaredNames [s]) ∧
      (statement fn cls s r).1.tidy = true ∧
      (layers = [] ∨ (statement fn cls s r).1.sparesOwn = true)
  | ⟨.stmts fn cls ss, layers, r⟩ =>
    Clear layers r.scopes (Stmt.listPast (statements fn cls ss r).1) (declaredNames ss) ∧
      (layers = [] ∧ Stmt.listTidy (statements fn cls ss r).1 = true ∨
        Stmt.scopeTidy (statements fn cls ss r).1 = true)
  | ⟨.function fn cls f, layers, r⟩ =>
    Clear layers r.scopes (function fn cls f r).1.past [] ∧ (function fn cls f r).1.tidy = true
  | ⟨.methods cls fs, layers, r⟩ =>
    Clear layers r.scopes (FunDecl.listPast (methods cls fs r).1) [] ∧
      FunDecl.listTidy (methods cls fs r).1 = true

variable {fn : FunctionContext} {cls : ClassContext} {layers : List Layer} {r : Resolver}
  {scopes : List Scope} {q : Position}

theorem tidy_expr {e : Expr} {refs : List Reference} (h : ExprTidy layers scopes refs)
    (hs : r.scopes = scopes) (hsub : (expression cls e r).1.references ⊆ refs) :
    Tidy ⟨.expr cls e, layers, r⟩ := by
  subst hs
  exact h.mono hsub

theorem tidy_exprs {es : List Expr} {refs : List Reference} (h : ExprTidy layers scopes refs)
    (hs : r.scopes = scopes) (hsub : Expr.listReferences (expressions cls es r).1 ⊆ refs) :
    Tidy ⟨.exprs cls es, layers, r⟩ := by
  subst hs
  exact h.mono hsub

theorem exprCalls_tidy (e : Expr) (h : Tidy ⟨.expr cls e, layers, r⟩)
    (hq : q ∈ exprCalls cls layers r e) : q.Tidy := by
  have h : ExprTidy layers r.scopes (expression cls e r).1.references := h
  cases e with
  | literal _ _ => cases hq
  | var _ => cases hq
  | this _ => cases hq
  | super _ _ => cases hq
  | grouping _ e =>
    cases List.mem_singleton.1 hq
    rw [expression] at h
    exact tidy_expr h rfl (List.Subset.refl _)
  | unary _ _ e =>
    cases List.mem_singleton.1 hq
    rw [expression] at h
    exact tidy_expr h rfl (List.Subset.refl _)
  | get o _ =>
    cases List.mem_singleton.1 hq
    rw [expression] at h
    exact tidy_expr h rfl (List.Subset.refl _)
  | assign ref v =>
    cases List.mem_singleton.1 hq
    rw [expression] at h
    exact tidy_expr h rfl (List.subset_cons_self _ _)
  | binary _ _ a b =>
    rw [expression] at h
    rcases mem_pair hq with rfl | rfl
    · exact tidy_expr h rfl (List.subset_append_left _ _)
    · exact tidy_expr h (keeps_expression cls a r).1 (List.subset_append_right _ _)
  | logical _ _ a b =>
    rw [expression] at h
    rcases mem_pair hq with rfl | rfl
    · exact tidy_expr h rfl (List.subset_append_left _ _)
    · exact tidy_expr h (keeps_expression cls a r).1 (List.subset_append_right _ _)
  | call _ f args =>
    rw [expression] at h
    rcases mem_pair hq with rfl | rfl
    · exact tidy_expr h rfl (List.subset_append_left _ _)
    · exact tidy_exprs h (keeps_expression cls f r).1 (List.subset_append_right _ _)
  | set o _ v =>
    rw [expression] at h
    rcases mem_pair hq with rfl | rfl
    · exact tidy_expr h rfl (List.subset_append_right _ _)
    · exact tidy_expr h (keeps_expression cls v r).1 (List.subset_append_left _ _)

/-- In scopes that wait for no initializer every name can be assigned to. -/
theorem not_waiting (hr : ∀ scope ∈ scopes, scope.Ready) (x : Bytes) (scope : Scope)
    (hs : scopes.head? = some scope) : scope.get? x ≠ some false := by
  intro hx
  cases hr scope (List.mem_of_mem_head? hs) x false hx

/-- An expression of a statement that declares nothing. -/
theorem tidy_part {e : Expr} {past : Nat → List Bytes} (h : Clear layers scopes past [])
    (hr : ∀ scope ∈ scopes, scope.Ready) (hs : r.scopes = scopes)
    (hsub : ∀ k, pastNames (expression cls e r).1.references k ⊆ past k) :
    Tidy ⟨.expr cls e, layers, r⟩ := by
  subst hs
  exact ⟨h.mono (fun k x hx => hsub k hx) (fun x hx => by cases hx), fun x _ => not_waiting hr x⟩

theorem declared_statement (s : Stmt) : (statement fn cls s r).1.declared? = s.declared? := by
  match s with
  | .expr _ _ | .print _ _ | .varDecl _ _ none | .varDecl _ _ (some _) | .block _ _
  | .ifElse _ _ _ none | .ifElse _ _ _ (some _) | .loop _ _ _ | .classDecl _ _ none _ =>
    rw [statement]; rfl
  | .funDecl (.mk _ _ _) => rw [statement]; rfl
  | .ret _ none => rw [statement_ret_none]; rfl
  | .ret _ (some _) => rw [statement_ret_some]; rfl
  | .classDecl _ _ (some _) _ => rw [statement_subclass]; rfl

theorem declaredNames_cons (s : Stmt) (ss : List Stmt) :
    declaredNames (s :: ss) = declaredNames [s] ++ declaredNames ss :=
  List.filterMap_append (l := [s])

theorem declaredNames_statements (ss : List Stmt) :
    declaredNames (statements fn cls ss r).1 = declaredNames ss := by
  induction ss generalizing r with
  | nil => rw [statements]; rfl
  | cons s ss ih =>
    rw [statements]
    show declaredNames ((statement fn cls s r).1 :: (statements fn cls ss _).1) = _
    have hone : declaredNames [(statement fn cls s r).1] = declaredNames [s] := by
      simp only [declaredNames, List.filterMap_cons, declared_statement]
    rw [declaredNames_cons, declaredNames_cons s, ih, hone]

theorem sparesOwn_of_none {s : Stmt} (h : s.declared? = none) : s.sparesOwn = true := by
  cases s with
  | varDecl _ _ _ => cases h
  | _ => rfl

/-- A branch of a statement declares nothing. -/
theorem tidy_branch {s : Stmt} {past : Nat → List Bytes} (h : Clear layers scopes past [])
    (hd : s.declared? = none) (hs : r.scopes = scopes)
    (hsub : ∀ k, (statement fn cls s r).1.past k ⊆ past k)
    (ht : (statement fn cls s r).1.tidy = true) : Tidy ⟨.stmt fn cls s, layers, r⟩ := by
  subst hs
  refine ⟨h.mono (fun k x hx => hsub k hx) (fun x hx => by cases hx), ht, .inr ?_⟩
  exact sparesOwn_of_none ((declared_statement s).trans hd)

theorem ordinary_names : ∀ {ss : List Stmt}, Stmt.AllProper ss →
    ∀ x ∈ declaredNames ss, Ordinary x
  | [], _, x, hx => by cases hx
  | s :: ss, h, x, hx => by
    obtain ⟨s', hs', hx'⟩ := List.mem_filterMap.1 hx
    rcases List.mem_cons.1 hs' with rfl | hs'
    · obtain ⟨name, hname, rfl⟩ := Option.map_eq_some_iff.1 hx'
      exact h.1.ordinary hname
    · exact ordinary_names h.2 x (List.mem_filterMap.2 ⟨s', hs', hx'⟩)

theorem stmtCalls_tidy (s : Stmt) (hsound : Sound ⟨.stmt fn cls s, layers, r⟩)
    (h : Tidy ⟨.stmt fn cls s, layers, r⟩) (hq : q ∈ stmtCalls fn cls layers r s) : q.Tidy := by
  obtain ⟨hc, ht, hown⟩ := h
  have hr : ∀ scope ∈ r.scopes, scope.Ready := hsound.ready
  have hp : s.Proper := hsound.proper
  have hn : Nested cls layers r.scopes := hsound.nested
  match s with
  | .expr _ e =>
    cases List.mem_singleton.1 hq
    rw [statement] at hc
    exact tidy_part hc hr rfl fun k => List.Subset.refl _
  | .print _ e =>
    cases List.mem_singleton.1 hq
    rw [statement] at hc
    exact tidy_part hc hr rfl fun k => List.Subset.refl _
  | .varDecl _ _ none => cases hq
  | .varDecl _ name (some init) =>
    cases List.mem_singleton.1 hq
    rw [statement] at hc hown
    refine tidy_expr ⟨Clear.declares hc false,
      fun x hx scope hs => ?_⟩ (mark_scopes name false r) (List.Subset.refl _)
    -- the only name that waits is the declared one, which the initializer does not assign to
    rcases hown with rfl | hown
    · rw [hn.eq_nil] at hs
      cases hs
    · have hx : x ∈ writtenNames (expression cls init (declare name r).2).1.references := hx
      have hown : (!(writtenNames (expression cls init (declare name r).2).1.references).contains
          name.lexeme) = true := hown
      have hne : name.lexeme ≠ x := by
        rintro rfl
        rw [List.contains_iff_mem.2 hx] at hown
        cases hown
      cases hscopes : r.scopes with
      | nil => rw [hscopes] at hs; cases hs
      | cons first outer =>
        rw [hscopes] at hs hr
        cases hs
        rw [Bindings.get?_insert_of_ne hne]
        exact not_waiting hr x first rfl
  | .block _ body =>
    cases List.mem_singleton.1 hq
    rw [statement] at hc ht
    refine ⟨hc.body (fun k x hx => hx) (ordinary_names hp) fun x hx => .inr hx, .inr ht⟩
  | .ifElse _ cond yes none =>
    rw [statement] at hc ht
    rcases mem_pair hq with rfl | rfl
    · exact tidy_part hc hr rfl fun k => List.subset_append_left _ _
    · exact tidy_branch hc hp.2.2 (keeps_expression cls cond r).1
        (fun k => List.subset_append_right _ _) ht
  | .ifElse _ cond yes (some no) =>
    rw [statement] at hc ht
    have hcond := (keeps_expression cls cond r).1
    have hyes : (statement fn cls yes (expression cls cond r).2).2.scopes = r.scopes := by
      rw [statement_scopes fn cls yes hp.2.1.1, afterStmt, hp.2.1.2, hcond]
    obtain ⟨hty, htn⟩ := Bool.and_eq_true_iff.1 ht
    simp only [stmtCalls, List.mem_cons, List.not_mem_nil, or_false] at hq
    rcases hq with rfl | rfl | rfl
    · exact tidy_part hc hr rfl fun k => List.subset_append_left _ _
    · exact tidy_branch hc hp.2.1.2 hcond (fun k => List.subset_append_of_subset_right _
        (List.subset_append_left _ _)) hty
    · exact tidy_branch hc hp.2.2.2 hyes (fun k => List.subset_append_of_subset_right _
        (List.subset_append_right _ _)) htn
  | .loop _ cond body =>
    rw [statement] at hc ht
    rcases mem_pair hq with rfl | rfl
    · exact tidy_part hc hr rfl fun k => List.subset_append_left _ _
    · exact tidy_branch hc hp.2.2 (keeps_expression cls cond r).1
        (fun k => List.subset_append_right _ _) ht
  | .funDecl (.mk name params body) =>
    cases List.mem_singleton.1 hq
    rw [statement] at hc ht
    refine ⟨?_, ht⟩
    rw [opened_scopes]
    exact Clear.declares hc true
  | .ret _ none => cases hq
  | .ret keyword (some e) =>
    cases List.mem_singleton.1 hq
    rw [statement_ret_some] at hc
    exact tidy_part hc hr (keeps_bind (keeps_check _ _ _) (fun _ => keeps_check _ _ _) r).1
      fun k => List.Subset.refl _
  | .classDecl _ name none ms =>
    cases List.mem_singleton.1 hq
    rw [statement] at hc ht
    have hc' := Clear.declares hc true
    rw [← opened_scopes] at hc'
    exact ⟨hc'.keyword (fun names => by simp) fun k x hx => hx, ht⟩
  | .classDecl _ name (some ref) ms =>
    rw [statement_subclass] at hc ht
    have hat : (atSuperclass name ref r).scopes = marked name.lexeme true r.scopes :=
      (keeps_check _ _ _ _).1.trans (opened_scopes name r)
    have hvar := (keeps_variableRef ref (atSuperclass name ref r)).1.trans hat
    have hc' := Clear.declares hc true
    rcases mem_pair hq with rfl | rfl
    · refine tidy_part hc' (ready_marked hr) hat fun k => ?_
      rw [expression]
      exact List.subset_append_left _ _
    · rw [← hvar] at hc'
      have hsuper : ∀ text, Clear (.super text :: layers) (superScope ::
          (variableRef ref (atSuperclass name ref r)).2.scopes)
          (fun k => FunDecl.listPast (methods .subclass ms (atSubclassMethods name ref r)).1
            (k + 1)) [] := fun text =>
        hc'.keyword (fun names => by simp) fun k x => List.mem_append_right _
      exact ⟨(hsuper _).keyword (fun names => by simp) fun k x hx => hx, ht⟩

/-- Tidiness at a position passes to the positions that the resolver goes to from there. -/
theorem Tidy.call {p : Position} (hsound : p.Sound) (h : p.Tidy) (hq : q ∈ p.calls) : q.Tidy := by
  match p with
  | ⟨.expr cls e, layers, r⟩ => exact exprCalls_tidy e h hq
  | ⟨.exprs _ [], _, _⟩ => cases hq
  | ⟨.exprs cls (e :: es), layers, r⟩ =>
    have h : ExprTidy layers r.scopes (Expr.listReferences (expressions cls (e :: es) r).1) := h
    rw [expressions] at h
    rcases mem_pair hq with rfl | rfl
    · exact tidy_expr h rfl (List.subset_append_left _ _)
    · exact tidy_exprs h (keeps_expression cls e r).1 (List.subset_append_right _ _)
  | ⟨.stmt fn cls s, layers, r⟩ => exact stmtCalls_tidy s hsound h hq
  | ⟨.stmts _ _ [], _, _⟩ => cases hq
  | ⟨.stmts fn cls (s :: ss), layers, r⟩ =>
    obtain ⟨hc, ht⟩ := h
    have hp : Stmt.AllProper (s :: ss) := hsound.proper
    rw [statements] at hc ht
    have hafter := statement_scopes fn cls s hp.1 r
    rcases ht with ⟨rfl, ht⟩ | ht
    · obtain ⟨hts, htss⟩ := Bool.and_eq_true_iff.1 ht
      rcases mem_pair hq with rfl | rfl
      · exact ⟨.nil, hts, .inl rfl⟩
      · exact ⟨.nil, .inl ⟨rfl, htss⟩⟩
    · have ht : ((statement fn cls s r).1.tidy && (statement fn cls s r).1.sparesOwn &&
          (declaredNames (statements fn cls ss (statement fn cls s r).2).1).all
            (fun x => !((statement fn cls s r).1.past 0).contains x) &&
          Stmt.scopeTidy (statements fn cls ss (statement fn cls s r).2).1) = true := ht
      simp only [Bool.and_eq_true, declaredNames_statements, List.all_eq_true] at ht
      obtain ⟨⟨⟨hts, hown⟩, hlater⟩, htss⟩ := ht
      rw [declaredNames_cons] at hc
      rcases mem_pair hq with rfl | rfl
      · refine ⟨hc.mono (fun k x => List.mem_append_left _) fun x hx => ?_, hts, .inr hown⟩
        exact (List.mem_append.1 hx).imp id fun hx => by simpa using hlater x hx
      · refine ⟨?_, .inr htss⟩
        rw [hafter]
        exact Clear.afterStmt (hc.mono (fun k x => List.mem_append_right _) fun x hx => .inl hx)
  | ⟨.function fn cls (.mk name params body), layers, r⟩ =>
    obtain ⟨hc, ht⟩ := h
    have hp : FunDecl.Proper (.mk name params body) := hsound.proper
    rw [function] at hc ht
    cases List.mem_singleton.1 hq
    have hscopes : (parameters params ⟨[] :: r.scopes, r.errors⟩).2.scopes =
        parameterScope params :: r.scopes := by rw [parameters_run]; rfl
    refine ⟨?_, .inr ht⟩
    rw [hscopes]
    refine hc.body (fun k x hx => hx) (fun x hx => ?_) fun x hx => ?_
    · rcases List.mem_append.1 hx with hx | hx
      · obtain ⟨p, hmem, rfl⟩ := List.mem_map.1 hx
        exact hp.2.1 p hmem
      · exact ordinary_names hp.2.2 x hx
    · exact (List.mem_append.1 hx).imp has_parameterScope.2 id
  | ⟨.methods _ [], _, _⟩ => cases hq
  | ⟨.methods cls (.mk name params body :: fs), layers, r⟩ =>
    obtain ⟨hc, ht⟩ := h
    have hp : FunDecl.AllProper (.mk name params body :: fs) := hsound.proper
    rw [methods] at hc ht
    obtain ⟨htf, htfs⟩ := Bool.and_eq_true_iff.1 ht
    rcases mem_pair hq with rfl | rfl
    · exact ⟨hc.mono (fun k x => List.mem_append_left _) (fun x hx => by cases hx), htf⟩
    · have hs := function_scopes (methodContext name) cls _ hp.1 r
      refine ⟨?_, htfs⟩
      rw [hs]
      exact hc.mono (fun k x => List.mem_append_right _) (fun x hx => by cases hx)

end Position

/-- **Tidy programs are tidy at every position.** -/
theorem Visits.tidy {programs : List Stmt → Prop}
    (hp : ∀ program, programs program → Admissible program)
    (ht : ∀ program, programs program →
      Stmt.listTidy (Resolver.statements .none .none program ⟨[], []⟩).1 = true)
    {p : Position} (h : Visits programs p) : p.Tidy := by
  induction h with
  | root hprogram => exact ⟨.nil, .inl ⟨rfl, ht _ hprogram⟩⟩
  | call hv hq ih => exact ih.call (hv.sound hp) hq

end Lox
