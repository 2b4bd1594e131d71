import Lox.Proofs.Parse.Equations
/-!
# Errors are kept

A parser only ever adds errors, it fails only after recording one, and it starts to panic only
when it records one: `Parsed.Clean` says this of one result. So a parse that ends without errors
had none on the way and never failed or panicked in between, and the first error of a parse is
the first error of the part that met it.
-/

namespace Lox

/-- Errors are only added, there is no panic without one, and no failure. -/
def Parsed.Clean {α : Type} (c : Cursor) : Parsed α → Prop
  | .ok _ c' => c.errors <:+ c'.errors ∧
      (c'.errors = [] → c.panicking = false → c'.panicking = false)
  | .failed c' => c.errors <:+ c'.errors ∧ c'.errors ≠ []
  | .exhausted => True

namespace Parsed.Clean

variable {α : Type} {c c' : Cursor} {r : Parsed α} {a : α}

theorem errors (h : r.Clean c) (hr : r = .ok a c') (he : c'.errors = []) : c.errors = [] := by
  subst hr
  exact List.suffix_nil.1 (he ▸ h.1)

theorem panicking (h : r.Clean c) (hr : r = .ok a c') (he : c'.errors = [])
    (hp : c.panicking = false) : c'.panicking = false := by
  subst hr
  exact h.2 he hp

end Parsed.Clean

namespace Parser

variable {α β : Type} {fuel : Nat}

theorem clean_same (a : α) (c : Cursor) : (Parsed.ok a c).Clean c :=
  ⟨List.suffix_refl _, fun _ => id⟩

theorem clean_report (a : α) (c : Cursor) (site : Site) (fault : SyntaxFault) :
    (Parsed.ok a (c.report site fault)).Clean c :=
  ⟨List.suffix_cons _ _, fun h => absurd h (by simp [Cursor.report])⟩

theorem clean_panic (c : Cursor) (site : Site) (fault : SyntaxFault) :
    (Parsed.failed (c.panic site fault) : Parsed α).Clean c :=
  ⟨List.suffix_cons _ _, by simp [Cursor.panic, Cursor.report]⟩

theorem clean_bind {p : Parser α} {f : α → Parser β} {c : Cursor} (hp : (p c).Clean c)
    (hf : ∀ a c', (f a c').Clean c') : ((p >>= f) c).Clean c := by
  rw [bind_apply]
  cases h : p c with
  | ok a c' =>
    rw [h] at hp
    simp only
    have hc := hf a c'
    cases hr : f a c' with
    | ok b c'' =>
      rw [hr] at hc
      refine ⟨hp.1.trans hc.1, fun he hpan => hc.2 he (hp.2 ?_ hpan)⟩
      exact List.suffix_nil.1 (he ▸ hc.1)
    | failed c'' => rw [hr] at hc; exact ⟨hp.1.trans hc.1, hc.2⟩
    | exhausted => trivial
  | failed c' => rw [h] at hp; exact hp
  | exhausted => trivial

/-- What follows an item of a list. -/
theorem more_clean {p : Parser (List α)} {g : List α → List β} (hp : ∀ c, (p c).Clean c)
    (c : Cursor) : ((advance >>= fun _ => p >>= fun more => pure (g more)) c).Clean c :=
  clean_bind (c := c.advance) (hp _) fun _ _ => clean_same _ _

theorem expect_clean (kind : Kind) (fault : SyntaxFault) (c : Cursor) :
    (expect kind fault c).Clean c := by
  unfold expect
  split
  · split
    · exact ⟨List.suffix_refl _, fun _ => id⟩
    · exact clean_panic c _ _
  · exact clean_panic c _ _

theorem failHere_clean (fault : SyntaxFault) (c : Cursor) :
    (failHere fault c : Parsed α).Clean c := clean_panic c _ _

theorem limit_clean {count : Nat} {site : Site} {fault : SyntaxFault} {c : Cursor} {r : Parsed α}
    (h : r.Clean (limit count site fault c)) : r.Clean c := by
  unfold limit at h
  split at h
  · have hsuffix : c.errors <:+ (c.report site fault).errors := List.suffix_cons _ _
    cases r with
    | ok a c' => exact ⟨hsuffix.trans h.1, h.2⟩
    | failed c' => exact ⟨hsuffix.trans h.1, h.2⟩
    | exhausted => trivial
  · exact h

theorem expect_then_clean (kind : Kind) (fault : SyntaxFault) (f : Token → α) (c : Cursor) :
    ((expect kind fault >>= fun t => pure (f t)) c).Clean c :=
  clean_bind (expect_clean kind fault c) fun _ _ => clean_same _ _

/-! ## Expressions -/

structure ExprClean (fuel : Nat) : Prop where
  expression : ∀ level c, (expression fuel level c).Clean c
  operand : ∀ c, (operand fuel c).Clean c
  operators : ∀ level left c, (operators fuel level left c).Clean c
  unary : ∀ op token c, (unary fuel op token c).Clean c
  apply : ∀ op token left c, (apply fuel op token left c).Clean c
  arguments : ∀ count c, (arguments fuel count c).Clean c

theorem operand_clean (ih : ExprClean fuel) (c : Cursor) : (operand (fuel + 1) c).Clean c := by
  rw [operand_eq]
  split
  · exact failHere_clean _ c
  · rename_i t _
    split <;> first | exact clean_same _ c | exact failHere_clean _ c | skip
    · exact ih.unary .not t c
    · exact ih.unary .neg t c
    · exact clean_bind (c := c.advance) (ih.expression _ _) fun _ _ => expect_then_clean _ _ _ _
    · exact clean_bind (expect_clean _ _ _) fun _ _ => expect_then_clean _ _ _ _

theorem operators_clean (ih : ExprClean fuel) (level : Precedence) (left : Expr) (c : Cursor) :
    (operators (fuel + 1) level left c).Clean c := by
  rw [operators_eq]
  split
  · exact clean_same _ c
  · split
    · exact clean_same _ c
    · split
      · exact clean_bind (c := c.advance) (ih.apply _ _ _ _) fun left' c' =>
          ih.operators level left' c'
      · exact clean_same _ c

/-- Only a variable or a property is assigned to without an error. -/
theorem assignment_clean (token : Token) (left value : Expr) (c : Cursor) :
    (assignment token left value c).Clean c := by
  unfold assignment
  split
  · exact clean_same _ c
  · exact clean_same _ c
  · exact clean_report left c _ _

theorem apply_clean (ih : ExprClean fuel) (op : Operator) (token : Token) (left : Expr)
    (c : Cursor) : (apply (fuel + 1) op token left c).Clean c := by
  cases op with
  | binary b =>
    rw [apply_binary]
    exact clean_bind (c := c.advance) (ih.expression _ _) fun _ _ => clean_same _ _
  | logical l =>
    rw [apply_logical]
    exact clean_bind (c := c.advance) (ih.expression _ _) fun _ _ => clean_same _ _
  | assign =>
    rw [apply_assign]
    exact clean_bind (c := c.advance) (ih.expression _ _) (assignment_clean token left)
  | call =>
    rw [apply_call]
    split
    · exact expect_then_clean _ _ _ _
    · exact clean_bind (ih.arguments _ _) fun _ _ => expect_then_clean _ _ _ _
  | get =>
    rw [apply_get]
    exact expect_then_clean _ _ _ _

theorem afterArgument_clean (ih : ExprClean fuel) (count : Nat) (arg : Expr) (c : Cursor) :
    (afterArgument fuel count arg c).Clean c := by
  unfold afterArgument
  apply limit_clean
  simp only
  split
  · exact clean_bind (c := (limit _ _ _ c).advance) (ih.arguments _ _) fun _ _ => clean_same _ _
  · exact clean_same _ _

theorem arguments_clean (ih : ExprClean fuel) (count : Nat) (c : Cursor) :
    (arguments (fuel + 1) count c).Clean c := by
  rw [arguments_eq]
  exact clean_bind (c := c.advance) (ih.expression _ _) (afterArgument_clean ih count)

theorem exprClean : ∀ fuel, ExprClean fuel
  | 0 => ⟨fun _ _ => trivial, fun _ => trivial, fun _ _ _ => trivial, fun _ _ _ => trivial,
      fun _ _ _ _ => trivial, fun _ _ => trivial⟩
  | fuel + 1 =>
    have ih := exprClean fuel
    { expression := fun level c => by
        rw [expression_eq]
        exact clean_bind (ih.operand c) (ih.operators level)
      operand := operand_clean ih
      operators := operators_clean ih
      unary := fun op token c => by
        rw [unary_eq]
        exact clean_bind (c := c.advance) (ih.expression _ _) fun _ _ => clean_same _ _
      apply := apply_clean ih
      arguments := arguments_clean ih }

theorem expression_clean (fuel : Nat) (level : Precedence) (c : Cursor) :
    (expression fuel level c).Clean c := (exprClean fuel).expression level c

theorem expression_then_clean {level : Precedence} {kind : Kind} {fault : SyntaxFault}
    (f : Expr → α) (c : Cursor) :
    ((expression fuel level >>= fun e => expect kind fault >>= fun _ => pure (f e)) c).Clean c :=
  clean_bind (expression_clean fuel level c) fun _ _ => expect_then_clean _ _ _ _

/-! ## Pieces of statements -/

theorem parameters_clean : ∀ (fuel count : Nat) (c : Cursor), (parameters fuel count c).Clean c
  | 0, _, _ => trivial
  | fuel + 1, count, c => by
    rw [parameters_eq]
    refine clean_bind (expect_clean _ _ _) fun param c₁ => ?_
    unfold afterParameter
    apply limit_clean
    simp only
    split
    · exact clean_bind (c := (limit _ _ _ c₁).advance) (parameters_clean fuel _ _)
        fun _ _ => clean_same _ _
    · exact clean_same _ _

theorem varDecl_clean (fuel : Nat) (keyword : Token) (c : Cursor) :
    (varDecl fuel keyword c).Clean c := by
  rw [varDecl_eq]
  refine clean_bind (expect_clean _ _ _) fun name c₁ => ?_
  unfold afterVarName
  split
  · exact expression_then_clean _ c₁.advance.advance
  · exact expect_then_clean _ _ _ _

theorem exprStmt_clean (fuel : Nat) (c : Cursor) : (exprStmt fuel c).Clean c := by
  rw [exprStmt_eq]
  exact expression_then_clean _ c

theorem printStmt_clean (fuel : Nat) (keyword : Token) (c : Cursor) :
    (printStmt fuel keyword c).Clean c := by
  rw [printStmt_eq]
  exact expression_then_clean _ c.advance

theorem returnStmt_clean (fuel : Nat) (keyword : Token) (c : Cursor) :
    (returnStmt fuel keyword c).Clean c := by
  rw [returnStmt_eq]
  split
  · exact expect_then_clean _ _ _ _
  · exact expression_then_clean _ c.advance

theorem condition_clean (fuel : Nat) (opening closing : SyntaxFault) (c : Cursor) :
    (condition fuel opening closing c).Clean c := by
  rw [condition]
  refine clean_bind (expect_clean _ _ _) fun _ c₁ => ?_
  rw [advance_bind]
  exact expression_then_clean _ c₁.advance

theorem forInitializer_clean (fuel : Nat) (c : Cursor) : (forInitializer fuel c).Clean c := by
  rw [forInitializer_eq]
  split
  · split
    · exact clean_same _ _
    · exact clean_bind (varDecl_clean fuel _ c) fun _ _ => clean_same _ _
    · exact clean_bind (exprStmt_clean fuel c) fun _ _ => clean_same _ _
  · exact clean_bind (exprStmt_clean fuel c) fun _ _ => clean_same _ _

theorem forClause_clean (fuel : Nat) (ending : Kind) (fault : SyntaxFault) (c : Cursor) :
    (forClause fuel ending fault c).Clean c := by
  rw [forClause_eq]
  split
  · exact clean_same _ _
  · exact expression_then_clean _ c

/-! ## Statements and declarations -/

/-- A declaration that is given up leaves an error behind. -/
theorem recover_clean {p : Parser Stmt} {c : Cursor} (h : (p c).Clean c) :
    (recover p c).Clean c := by
  unfold recover
  cases hp : p c with
  | ok s c' =>
    rw [hp] at h
    simp only
    split
    · exact ⟨h.1, fun _ _ => rfl⟩
    · exact h
  | failed c' => rw [hp] at h; exact ⟨h.1, fun he => absurd he h.2⟩
  | exhausted => trivial

structure StmtClean (fuel : Nat) : Prop where
  declaration : ∀ c, (declaration fuel c).Clean c
  statement : ∀ c, (statement fuel c).Clean c
  block : ∀ c, (block fuel c).Clean c
  declarations : ∀ c, (declarations fuel c).Clean c
  function : ∀ kind name c, (function fuel kind name c).Clean c
  classDecl : ∀ keyword c, (classDecl fuel keyword c).Clean c
  methods : ∀ c, (methods fuel c).Clean c

theorem declared_clean (ih : StmtClean fuel) (c : Cursor) : (declared fuel c).Clean c := by
  unfold declared
  split
  · split
    · exact ih.classDecl _ c
    · refine clean_bind (expect_clean _ _ _) fun name c₁ => ?_
      exact clean_bind (ih.function _ _ _) fun _ _ => clean_same _ _
    · exact varDecl_clean fuel _ c
    · exact ih.statement c
  · exact ih.statement c

theorem declaration_clean (ih : StmtClean fuel) (c : Cursor) :
    (declaration (fuel + 1) c).Clean c := by
  rw [declaration_eq]
  exact recover_clean (declared_clean ih c)

theorem afterYes_clean (ih : StmtClean fuel) (keyword : Token) (cond : Expr) (yes : Stmt)
    (c : Cursor) : (afterYes fuel keyword cond yes c).Clean c := by
  unfold afterYes
  split
  · exact clean_bind (c := c.advance.advance) (ih.statement _) fun _ _ => clean_same _ _
  · exact clean_same _ _

theorem branches_clean (ih : StmtClean fuel) (keyword : Token) (cond : Expr) (c : Cursor) :
    ((statement fuel >>= afterYes fuel keyword cond) c).Clean c :=
  clean_bind (ih.statement c) (afterYes_clean ih keyword cond)

theorem forBody_clean (ih : StmtClean fuel) (t : Token) (init : Option Stmt)
    (cond step : Option Expr) (c : Cursor) : (forBody fuel t init cond step c).Clean c :=
  clean_bind (c := c.advance) (ih.statement _) fun _ _ => clean_same _ _

theorem forStep_clean (ih : StmtClean fuel) (t : Token) (init : Option Stmt) (cond : Option Expr)
    (c : Cursor) : (forStep fuel t init cond c).Clean c :=
  clean_bind (c := c.advance) (forClause_clean _ _ _ _) (forBody_clean ih t init cond)

theorem forCond_clean (ih : StmtClean fuel) (t : Token) (init : Option Stmt) (c : Cursor) :
    (forCond fuel t init c).Clean c :=
  clean_bind (c := c.advance) (forClause_clean _ _ _ _) (forStep_clean ih t init)

theorem forInit_clean (ih : StmtClean fuel) (t : Token) (c : Cursor) :
    (forInit fuel t c).Clean c :=
  clean_bind (c := c.advance) (forInitializer_clean _ _) (forCond_clean ih t)

theorem statement_clean (ih : StmtClean fuel) (c : Cursor) : (statement (fuel + 1) c).Clean c := by
  rw [statement_eq]
  split
  · exact exprStmt_clean fuel c
  · rename_i t _
    split
    · exact clean_bind (expect_clean _ _ _) fun _ c₁ => forInit_clean ih t c₁
    · refine clean_bind (condition_clean _ _ _ _) fun cond c₁ => ?_
      exact clean_bind (p := advance) (clean_same () c₁) fun _ c₁ => branches_clean ih t cond c₁
    · exact printStmt_clean fuel t c
    · exact returnStmt_clean fuel t c
    · refine clean_bind (condition_clean _ _ _ _) fun cond c₁ => ?_
      refine clean_bind (p := advance) (clean_same () c₁) fun _ c₁ => ?_
      exact clean_bind (ih.statement _) fun _ _ => clean_same _ _
    · exact clean_bind (ih.block c) fun _ _ => clean_same _ _
    · exact exprStmt_clean fuel c

theorem closeBlock_clean (body : List Stmt) (c : Cursor) : (closeBlock body c).Clean c := by
  unfold closeBlock
  split
  · exact clean_same _ _
  · exact ⟨List.suffix_cons _ _, fun h => absurd h (by simp [Cursor.panic, Cursor.report])⟩

theorem block_clean (ih : StmtClean fuel) (c : Cursor) : (block (fuel + 1) c).Clean c := by
  rw [block_eq]
  exact clean_bind (c := c.advance) (ih.declarations _) closeBlock_clean

theorem declarations_clean (ih : StmtClean fuel) (c : Cursor) :
    (declarations (fuel + 1) c).Clean c := by
  rw [declarations_eq]
  split
  · exact clean_same _ _
  · split
    · exact clean_same _ _
    · exact clean_bind (ih.declaration c) fun _ => more_clean ih.declarations

theorem functionBody_clean (ih : StmtClean fuel) (kind : Callee) (name : Token)
    (params : List Token) (c : Cursor) : (functionBody fuel kind name params c).Clean c := by
  unfold functionBody
  refine clean_bind (expect_clean _ _ _) fun _ c₁ => ?_
  refine clean_bind (expect_clean _ _ _) fun _ c₂ => ?_
  exact clean_bind (ih.block c₂) fun _ _ => clean_same _ _

theorem function_clean (ih : StmtClean fuel) (kind : Callee) (name : Token) (c : Cursor) :
    (function (fuel + 1) kind name c).Clean c := by
  rw [function_eq]
  refine clean_bind (expect_clean _ _ _) fun _ c₁ => ?_
  unfold functionRest
  split
  · exact functionBody_clean ih kind name [] c₁
  · exact clean_bind (parameters_clean _ _ _) (functionBody_clean ih kind name)

theorem closeClass_clean (keyword name : Token) (superclass : Option Ref) (ms : List FunDecl)
    (c : Cursor) : (closeClass keyword name superclass ms c).Clean c := by
  unfold closeClass
  split
  · exact clean_same _ _
  · exact failHere_clean _ _

theorem classBody_clean (ih : StmtClean fuel) (keyword name : Token) (superclass : Option Ref)
    (c : Cursor) : (classBody fuel keyword name superclass c).Clean c := by
  unfold classBody
  refine clean_bind (expect_clean _ _ _) fun _ c₁ => ?_
  refine clean_bind (p := advance) (clean_same () c₁) fun _ c₁ => ?_
  exact clean_bind (ih.methods _) (closeClass_clean keyword name superclass)

theorem classDecl_clean (ih : StmtClean fuel) (keyword : Token) (c : Cursor) :
    (classDecl (fuel + 1) keyword c).Clean c := by
  rw [classDecl_eq]
  refine clean_bind (expect_clean _ _ _) fun name c₁ => ?_
  unfold afterClassName
  split
  · exact clean_bind (c := c₁.advance) (expect_clean _ _ _) fun t c₂ =>
      classBody_clean ih keyword name _ c₂
  · exact classBody_clean ih keyword name none c₁

theorem methods_clean (ih : StmtClean fuel) (c : Cursor) : (methods (fuel + 1) c).Clean c := by
  rw [methods_eq]
  split
  · exact clean_same _ _
  · split
    · exact clean_same _ _
    · exact clean_bind (ih.function _ _ _) fun _ => more_clean ih.methods
    · exact failHere_clean _ _

theorem stmtClean : ∀ fuel, StmtClean fuel
  | 0 => ⟨fun _ => trivial, fun _ => trivial, fun _ => trivial, fun _ => trivial,
      fun _ _ _ => trivial, fun _ _ => trivial, fun _ => trivial⟩
  | fuel + 1 =>
    have ih := stmtClean fuel
    ⟨declaration_clean ih, statement_clean ih, block_clean ih, declarations_clean ih,
      function_clean ih, classDecl_clean ih, methods_clean ih⟩

theorem program_clean : ∀ (fuel : Nat) (c : Cursor), (program fuel c).Clean c
  | 0, _ => trivial
  | fuel + 1, c => by
    rw [program_eq]
    split
    · exact clean_same _ _
    · exact clean_bind ((stmtClean fuel).declaration c) fun _ => more_clean (program_clean fuel)

end Parser

end Lox
