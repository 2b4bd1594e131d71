import Lox.Proofs.Parse.Lockstep
import Lox.Proofs.Parse.Progress
/-!
# Errors met before

A parser never looks at the errors it has met: it only adds to them. So what it does from some
cursor it also does from the same cursor with earlier errors behind it, and with more fuel; the
line on which the input ends stays what it is. Main statements: `program_carried`, and from it
`program_resumes`: what is left of an input is parsed as if it stood alone.
-/

namespace Lox

namespace Cursor

/-- The cursor with earlier errors behind its own. -/
def behind (earlier : List SyntaxError) (c : Cursor) : Cursor :=
  { c with errors := c.errors ++ earlier }

/-- The second cursor is the first one with earlier errors, in an input that ends on `line`. -/
structure Carries (line : Nat) (earlier : List SyntaxError) (c c' : Cursor) : Prop where
  endLine : c.endLine = line
  eq : c' = c.behind earlier

namespace Carries

variable {line : Nat} {earlier : List SyntaxError} {c c' : Cursor}

theorem current (h : c.Carries line earlier c') : c'.current? = c.current? := by rw [h.eq]; rfl

theorem next (h : c.Carries line earlier c') : c'.next? = c.next? := by rw [h.eq]; rfl

theorem currentIs (h : c.Carries line earlier c') (kind : Kind) :
    c'.currentIs kind = c.currentIs kind := by
  simp only [Cursor.currentIs, h.current]

theorem nextIs (h : c.Carries line earlier c') (kind : Kind) :
    c'.nextIs kind = c.nextIs kind := by
  simp only [Cursor.nextIs, h.next]

theorem advance (h : c.Carries line earlier c') : c.advance.Carries line earlier c'.advance :=
  ⟨h.endLine, by rw [h.eq]; rfl⟩

theorem siteOf (h : c.Carries line earlier c') (t : Option Token) : c'.siteOf t = c.siteOf t := by
  rw [h.eq]
  rfl

theorem report (h : c.Carries line earlier c') (site : Site) (fault : SyntaxFault) :
    (c.report site fault).Carries line earlier (c'.report site fault) :=
  ⟨h.endLine, by rw [h.eq]; rfl⟩

theorem panic (h : c.Carries line earlier c') (site : Site) (fault : SyntaxFault) :
    (c.panic site fault).Carries line earlier (c'.panic site fault) :=
  ⟨h.endLine, by rw [h.eq]; rfl⟩

theorem limit (h : c.Carries line earlier c') (count : Nat) (site : Site) (fault : SyntaxFault) :
    (Parser.limit count site fault c).Carries line earlier (Parser.limit count site fault c') := by
  unfold Parser.limit
  split
  · exact h.report site fault
  · exact h

/-- The place where parsing goes on after a declaration has been given up. -/
theorem recovered (h : c.Carries line earlier c') :
    Carries line earlier { c with rest := Parser.skipStatement c.rest, panicking := false }
      { c' with rest := Parser.skipStatement c'.rest, panicking := false } :=
  ⟨h.endLine, by rw [h.eq]; rfl⟩

end Carries

end Cursor

open Cursor (Carries)

/-- A parse, and the same one with earlier errors. -/
def Lockstep.carrying (line : Nat) (earlier : List SyntaxError) : Lockstep where
  At := Carries line earlier
  On := Carries line earlier
  Failed := Carries line earlier
  Met _ := True
  current h := h.current
  next h := h.next
  on h _ _ := h
  advance h := h.advance
  met _ _ := trivial
  failCurrent h _ := by rw [h.current, h.siteOf]; exact h.panic _ _
  failNext h _ := by rw [h.next, h.siteOf]; exact h.panic _ _
  reportCurrent h _ := by rw [h.current, h.siteOf]; exact h.report _ _
  reportMet h _ _ := h.report _ _

/-- The second result is the first one with earlier errors, unless the first ran out of fuel. -/
def Parsed.Carried {α : Type} (line : Nat) (earlier : List SyntaxError) (r r' : Parsed α) : Prop :=
  r.InStep (Carries line earlier) (Carries line earlier) r'

namespace Parser

variable {α β γ : Type} {line : Nat} {earlier : List SyntaxError} {fuel fuel' : Nat} {c c' : Cursor}

theorem carried_ok (a : α) (h : c.Carries line earlier c') :
    (Parsed.ok a c).Carried line earlier (.ok a c') := inStep_ok a h

theorem carried_bind {p p' : Parser α} {f f' : α → Parser β}
    (hp : (p c).Carried line earlier (p' c'))
    (hf : ∀ a c₁ c₁', c₁.Carries line earlier c₁' → (f a c₁).Carried line earlier (f' a c₁')) :
    ((p >>= f) c).Carried line earlier ((p' >>= f') c') := inStep_bind hp hf

/-- An item of a list, and the items after it. -/
theorem more_carried {p p' : Parser α} {rest rest' : Parser (List β)} {g : α → List β → List γ}
    (hp : (p c).Carried line earlier (p' c'))
    (hrest : ∀ {c₁ c₁'}, c₁.Carries line earlier c₁' →
      (rest c₁).Carried line earlier (rest' c₁')) :
    ((p >>= fun a => advance >>= fun _ => rest >>= fun more => pure (g a more)) c).Carried
      line earlier
      ((p' >>= fun a => advance >>= fun _ => rest' >>= fun more => pure (g a more)) c') := by
  refine carried_bind hp fun a c₁ c₁' h₁ => ?_
  rw [advance_bind, advance_bind]
  exact carried_bind (hrest h₁.advance) fun _ _ _ h₂ => carried_ok _ h₂

theorem failHere_carried (h : c.Carries line earlier c') (fault : SyntaxFault) :
    (failHere fault c : Parsed α).Carried line earlier (failHere fault c') := by
  unfold failHere
  rw [h.current, h.siteOf]
  exact h.panic _ _

theorem expect_carried (h : c.Carries line earlier c') (kind : Kind) (fault : SyntaxFault) :
    (expect kind fault c).Carried line earlier (expect kind fault c') := by
  unfold expect
  rw [h.next]
  split
  · split
    · exact carried_ok _ h.advance
    · exact h.panic _ _
  · have := h.panic (.endOfInput c.endLine) fault
    rw [show c'.endLine = c.endLine by rw [h.eq]; rfl]
    exact this

theorem expect_then_carried (h : c.Carries line earlier c') (kind : Kind) (fault : SyntaxFault)
    (f : Token → α) :
    ((expect kind fault >>= fun t => pure (f t)) c).Carried line earlier
      ((expect kind fault >>= fun t => pure (f t)) c') :=
  carried_bind (expect_carried h kind fault) fun _ _ _ h₁ => carried_ok _ h₁

theorem expression_carried (hle : fuel ≤ fuel') (h : c.Carries line earlier c')
    (level : Precedence) :
    (expression fuel level c).Carried line earlier (expression fuel' level c') :=
  (exprInStep (.carrying line earlier) hle).expression level h

theorem expression_then_carried (hle : fuel ≤ fuel') (h : c.Carries line earlier c')
    (level : Precedence) (kind : Kind) (fault : SyntaxFault) (f : Expr → α) :
    ((expression fuel level >>= fun e => expect kind fault >>= fun _ => pure (f e)) c).Carried
      line earlier
      ((expression fuel' level >>= fun e => expect kind fault >>= fun _ => pure (f e)) c') :=
  carried_bind (expression_carried hle h level) fun _ _ _ h₁ => expect_then_carried h₁ kind fault _

/-! ## Pieces of statements -/

theorem parameters_carried : ∀ {fuel fuel' : Nat}, fuel ≤ fuel' → ∀ (count : Nat) {c c' : Cursor},
    c.Carries line earlier c' →
    (parameters fuel count c).Carried line earlier (parameters fuel' count c')
  | 0, _, _, _, _, _, _ => trivial
  | fuel + 1, fuel' + 1, hle, count, c, c', h => by
    rw [parameters_eq, parameters_eq]
    refine carried_bind (expect_carried h _ _) fun param c₁ c₁' h₁ => ?_
    have h₂ := h₁.limit count (.token param) .tooManyParameters
    simp only [afterParameter]
    rw [h₂.nextIs]
    split
    · exact carried_bind (parameters_carried (Nat.le_of_succ_le_succ hle) _ h₂.advance)
        fun _ _ _ h₃ => carried_ok _ h₃
    · exact carried_ok _ h₂

theorem varDecl_carried (hle : fuel ≤ fuel') (h : c.Carries line earlier c') (keyword : Token) :
    (varDecl fuel keyword c).Carried line earlier (varDecl fuel' keyword c') := by
  rw [varDecl_eq, varDecl_eq]
  refine carried_bind (expect_carried h _ _) fun name c₁ c₁' h₁ => ?_
  unfold afterVarName
  rw [h₁.nextIs]
  split
  · exact expression_then_carried hle h₁.advance.advance _ _ _ _
  · exact expect_then_carried h₁ _ _ _

theorem exprStmt_carried (hle : fuel ≤ fuel') (h : c.Carries line earlier c') :
    (exprStmt fuel c).Carried line earlier (exprStmt fuel' c') := by
  rw [exprStmt_eq, exprStmt_eq, h.current]
  exact expression_then_carried hle h _ _ _ _

theorem printStmt_carried (hle : fuel ≤ fuel') (h : c.Carries line earlier c')
    (keyword : Token) :
    (printStmt fuel keyword c).Carried line earlier (printStmt fuel' keyword c') := by
  rw [printStmt_eq, printStmt_eq]
  exact expression_then_carried hle h.advance _ _ _ _

theorem returnStmt_carried (hle : fuel ≤ fuel') (h : c.Carries line earlier c')
    (keyword : Token) :
    (returnStmt fuel keyword c).Carried line earlier (returnStmt fuel' keyword c') := by
  rw [returnStmt_eq, returnStmt_eq, h.nextIs]
  split
  · exact expect_then_carried h _ _ _
  · exact expression_then_carried hle h.advance _ _ _ _

theorem condition_carried (hle : fuel ≤ fuel') (h : c.Carries line earlier c')
    (opening closing : SyntaxFault) :
    (condition fuel opening closing c).Carried line earlier
      (condition fuel' opening closing c') := by
  rw [condition, condition]
  refine carried_bind (expect_carried h _ _) fun _ c₁ c₁' h₁ => ?_
  rw [advance_bind, advance_bind]
  exact expression_then_carried hle h₁.advance _ _ _ _

theorem forInitializer_carried (hle : fuel ≤ fuel') (h : c.Carries line earlier c') :
    (forInitializer fuel c).Carried line earlier (forInitializer fuel' c') := by
  have hexpr := carried_bind (exprStmt_carried hle h) fun s _ _ h₁ => carried_ok (some s) h₁
  rw [forInitializer_eq, forInitializer_eq, h.current]
  split
  · split
    · exact carried_ok _ h
    · exact carried_bind (varDecl_carried hle h _) fun _ _ _ h₁ => carried_ok _ h₁
    · exact hexpr
  · exact hexpr

theorem forClause_carried (hle : fuel ≤ fuel') (h : c.Carries line earlier c') (ending : Kind)
    (fault : SyntaxFault) :
    (forClause fuel ending fault c).Carried line earlier (forClause fuel' ending fault c') := by
  rw [forClause_eq, forClause_eq, h.currentIs]
  split
  · exact carried_ok _ h
  · exact expression_then_carried hle h _ _ _ _

/-! ## Statements and declarations -/

theorem recover_carried {p p' : Parser Stmt} (h : (p c).Carried line earlier (p' c')) :
    (recover p c).Carried line earlier (recover p' c') := by
  unfold recover
  cases hr : p c with
  | ok s c₁ =>
    rw [hr] at h
    obtain ⟨c₁', hr', h₁⟩ := Parsed.InStep.of_ok h
    simp only [hr']
    rw [show c₁'.panicking = c₁.panicking by rw [h₁.eq]; rfl]
    split
    · exact carried_ok none h₁.recovered
    · exact carried_ok _ h₁
  | failed c₁ =>
    rw [hr] at h
    obtain ⟨c₁', hr', h₁⟩ := Parsed.InStep.of_failed h
    simp only [hr']
    exact carried_ok none h₁.recovered
  | exhausted => trivial

structure StmtCarried (line : Nat) (earlier : List SyntaxError) (fuel fuel' : Nat) : Prop where
  declaration : ∀ {c c'}, Carries line earlier c c' →
    (declaration fuel c).Carried line earlier (declaration fuel' c')
  statement : ∀ {c c'}, Carries line earlier c c' →
    (statement fuel c).Carried line earlier (statement fuel' c')
  block : ∀ {c c'}, Carries line earlier c c' →
    (block fuel c).Carried line earlier (block fuel' c')
  declarations : ∀ {c c'}, Carries line earlier c c' →
    (declarations fuel c).Carried line earlier (declarations fuel' c')
  function : ∀ kind name {c c'}, Carries line earlier c c' →
    (function fuel kind name c).Carried line earlier (function fuel' kind name c')
  classDecl : ∀ keyword {c c'}, Carries line earlier c c' →
    (classDecl fuel keyword c).Carried line earlier (classDecl fuel' keyword c')
  methods : ∀ {c c'}, Carries line earlier c c' →
    (methods fuel c).Carried line earlier (methods fuel' c')

variable (hle : fuel ≤ fuel') (ih : StmtCarried line earlier fuel fuel')
include hle ih

theorem declared_carried (h : c.Carries line earlier c') :
    (declared fuel c).Carried line earlier (declared fuel' c') := by
  unfold declared
  rw [h.current]
  split
  · split
    · exact ih.classDecl _ h
    · refine carried_bind (expect_carried h _ _) fun name c₁ c₁' h₁ => ?_
      exact carried_bind (ih.function _ _ h₁) fun _ _ _ h₂ => carried_ok _ h₂
    · exact varDecl_carried hle h _
    · exact ih.statement h
  · exact ih.statement h

omit hle in
theorem branches_carried (h : c.Carries line earlier c') (keyword : Token) (cond : Expr) :
    ((statement fuel >>= afterYes fuel keyword cond) c).Carried line earlier
      ((statement fuel' >>= afterYes fuel' keyword cond) c') := by
  refine carried_bind (ih.statement h) fun yes c₁ c₁' h₁ => ?_
  unfold afterYes
  rw [h₁.nextIs]
  split
  · exact carried_bind (ih.statement h₁.advance.advance) fun _ _ _ h₂ => carried_ok _ h₂
  · exact carried_ok _ h₁

/-- The clauses of a `for` loop and its body. -/
theorem forInit_carried (h : c.Carries line earlier c') (t : Token) :
    (forInit fuel t c).Carried line earlier (forInit fuel' t c') := by
  rw [forInit, forInit, advance_bind, advance_bind]
  refine carried_bind (forInitializer_carried hle h.advance) fun init c₁ c₁' h₁ => ?_
  rw [forCond, forCond, advance_bind, advance_bind]
  refine carried_bind (forClause_carried hle h₁.advance _ _) fun cond c₂ c₂' h₂ => ?_
  rw [forStep, forStep, advance_bind, advance_bind]
  refine carried_bind (forClause_carried hle h₂.advance _ _) fun step c₃ c₃' h₃ => ?_
  rw [forBody, forBody, advance_bind, advance_bind]
  exact carried_bind (ih.statement h₃.advance) fun body _ _ h₄ => carried_ok _ h₄

theorem statement_carried (h : c.Carries line earlier c') :
    (statement (fuel + 1) c).Carried line earlier (statement (fuel' + 1) c') := by
  rw [statement_eq, statement_eq, h.current]
  split
  · exact exprStmt_carried hle h
  · rename_i t _
    split
    · exact carried_bind (expect_carried h _ _) fun _ _ _ h₁ => forInit_carried hle ih h₁ t
    · refine carried_bind (condition_carried hle h _ _) fun cond c₁ c₁' h₁ => ?_
      rw [advance_bind, advance_bind]
      exact branches_carried ih h₁.advance t cond
    · exact printStmt_carried hle h t
    · exact returnStmt_carried hle h t
    · refine carried_bind (condition_carried hle h _ _) fun cond c₁ c₁' h₁ => ?_
      rw [advance_bind, advance_bind]
      exact carried_bind (ih.statement h₁.advance) fun _ _ _ h₂ => carried_ok _ h₂
    · refine carried_bind (ih.block h) fun body c₁ c₁' h₁ => ?_
      unfold blockStmt
      rw [h₁.current]
      exact carried_ok _ h₁
    · exact exprStmt_carried hle h

omit hle in
theorem block_carried (h : c.Carries line earlier c') :
    (block (fuel + 1) c).Carried line earlier (block (fuel' + 1) c') := by
  rw [block_eq, block_eq]
  refine carried_bind (ih.declarations h.advance) fun body c₁ c₁' h₁ => ?_
  unfold closeBlock
  rw [h₁.currentIs, h₁.current, h₁.siteOf]
  split
  · exact carried_ok _ h₁
  · exact carried_ok _ (h₁.panic _ _)

omit hle in
theorem declarations_carried (h : c.Carries line earlier c') :
    (declarations (fuel + 1) c).Carried line earlier (declarations (fuel' + 1) c') := by
  rw [declarations_eq, declarations_eq, h.current]
  split
  · exact carried_ok _ h
  · split
    · exact carried_ok _ h
    · exact more_carried (ih.declaration h) ih.declarations

omit hle in
theorem functionBody_carried (h : c.Carries line earlier c') (kind : Callee) (name : Token)
    (params : List Token) :
    (functionBody fuel kind name params c).Carried line earlier
      (functionBody fuel' kind name params c') := by
  unfold functionBody
  refine carried_bind (expect_carried h _ _) fun _ c₁ c₁' h₁ => ?_
  refine carried_bind (expect_carried h₁ _ _) fun _ c₂ c₂' h₂ => ?_
  exact carried_bind (ih.block h₂) fun _ _ _ h₃ => carried_ok _ h₃

theorem function_carried (h : c.Carries line earlier c') (kind : Callee) (name : Token) :
    (function (fuel + 1) kind name c).Carried line earlier
      (function (fuel' + 1) kind name c') := by
  rw [function_eq, function_eq]
  refine carried_bind (expect_carried h _ _) fun _ c₁ c₁' h₁ => ?_
  unfold functionRest
  rw [h₁.nextIs]
  split
  · exact functionBody_carried ih h₁ kind name []
  · exact carried_bind (parameters_carried hle 0 h₁) fun params _ _ h₂ =>
      functionBody_carried ih h₂ kind name params

omit hle in
theorem classBody_carried (h : c.Carries line earlier c') (keyword name : Token)
    (superclass : Option Ref) :
    (classBody fuel keyword name superclass c).Carried line earlier
      (classBody fuel' keyword name superclass c') := by
  unfold classBody
  refine carried_bind (expect_carried h _ _) fun _ c₁ c₁' h₁ => ?_
  rw [advance_bind, advance_bind]
  refine carried_bind (ih.methods h₁.advance) fun ms c₂ c₂' h₂ => ?_
  unfold closeClass
  rw [h₂.currentIs]
  split
  · exact carried_ok _ h₂
  · exact failHere_carried h₂ _

omit hle in
theorem classDecl_carried (h : c.Carries line earlier c') (keyword : Token) :
    (classDecl (fuel + 1) keyword c).Carried line earlier
      (classDecl (fuel' + 1) keyword c') := by
  rw [classDecl_eq, classDecl_eq]
  refine carried_bind (expect_carried h _ _) fun name c₁ c₁' h₁ => ?_
  unfold afterClassName
  rw [h₁.nextIs]
  split
  · exact carried_bind (expect_carried h₁.advance _ _) fun t _ _ h₂ =>
      classBody_carried ih h₂ keyword name _
  · exact classBody_carried ih h₁ keyword name none

omit hle in
theorem methods_carried (h : c.Carries line earlier c') :
    (methods (fuel + 1) c).Carried line earlier (methods (fuel' + 1) c') := by
  rw [methods_eq, methods_eq, h.current]
  split
  · exact carried_ok _ h
  · split
    · exact carried_ok _ h
    · exact more_carried (ih.function _ _ h) ih.methods
    · exact failHere_carried h _

omit hle ih

theorem stmtCarried : ∀ {fuel fuel' : Nat}, fuel ≤ fuel' → StmtCarried line earlier fuel fuel'
  | 0, _, _ => ⟨fun _ => trivial, fun _ => trivial, fun _ => trivial, fun _ => trivial,
      fun _ _ _ _ _ => trivial, fun _ _ _ _ => trivial, fun _ => trivial⟩
  | fuel + 1, fuel' + 1, hsucc =>
    have hle := Nat.le_of_succ_le_succ hsucc
    have ih := stmtCarried hle
    { declaration := fun h => by
        rw [declaration_eq, declaration_eq]
        exact recover_carried (declared_carried hle ih h)
      statement := statement_carried hle ih
      block := block_carried ih
      declarations := declarations_carried ih
      function := fun kind name _ _ h => function_carried hle ih h kind name
      classDecl := fun keyword _ _ h => classDecl_carried ih h keyword
      methods := methods_carried ih }

/-- **Earlier errors are only carried along.** -/
theorem program_carried : ∀ {fuel fuel' : Nat}, fuel ≤ fuel' → ∀ {c c' : Cursor},
    c.Carries line earlier c' → (program fuel c).Carried line earlier (program fuel' c')
  | 0, _, _, _, _, _ => trivial
  | fuel + 1, fuel' + 1, hsucc, c, c', h => by
    have hle := Nat.le_of_succ_le_succ hsucc
    rw [program_eq, program_eq, h.current]
    split
    · exact carried_ok _ h
    · exact more_carried ((stmtCarried hle).declaration h) (program_carried hle)

/-! ## Parsing on -/

/-- A declaration that cannot be parsed is dropped. -/
theorem declaration_ne_failed (fuel : Nat) (c c' : Cursor) : declaration fuel c ≠ .failed c' := by
  cases fuel with
  | zero => rw [declaration]; simp [exhausted]
  | succ fuel =>
    rw [declaration_eq]
    unfold recover
    cases declared fuel c with
    | ok s c₁ => simp only; split <;> simp
    | failed c₁ => simp
    | exhausted => simp

theorem program_ne_failed : ∀ (fuel : Nat) (c c' : Cursor), program fuel c ≠ .failed c'
  | 0, _, _ => by rw [program]; simp [exhausted]
  | fuel + 1, c, c' => by
    rw [program_eq]
    split
    · simp
    · intro h
      rcases bind_failed h with h | ⟨s, c₁, -, h⟩
      · exact declaration_ne_failed fuel c c' h
      · rw [advance_bind] at h
        rcases bind_failed h with h | ⟨more, c₂, -, h⟩
        · exact program_ne_failed fuel _ c' h
        · cases h

theorem carries_self (c : Cursor) : c.Carries c.endLine [] c :=
  ⟨rfl, by simp [Cursor.behind]⟩

theorem declaration_endLine {s : Option Stmt} (h : declaration fuel c = .ok s c') :
    c'.endLine = c.endLine := by
  have hc := (stmtCarried (Nat.le_refl fuel)).declaration (carries_self c)
  rw [h] at hc
  exact hc.2.endLine

/-- **Parsing on is parsing alone.** What is left of the input is parsed as if it stood alone,
whatever errors have been met before. -/
theorem program_resumes (hp : c.panicking = false) (hf : program fuel c ≠ .exhausted) :
    ∃ c', program fuel c = .ok (Program.ofTokens c.rest c.endLine).statements c' ∧
      c'.errors = (Program.ofTokens c.rest c.endLine).errors.reverse ++ c.errors := by
  have hstart : (Program.start c.rest c.endLine).Carries c.endLine c.errors c := by
    refine ⟨rfl, ?_⟩
    cases c
    simp_all [Program.start, Cursor.behind]
  unfold Program.ofTokens
  generalize hn : Program.fuelFor c.rest.length = n
  have halone := program_carried (Nat.le_max_right fuel n) hstart
  have hself := program_carried (Nat.le_max_left fuel n) (carries_self c)
  cases hr : program n (Program.start c.rest c.endLine) with
  | ok ss c₁ =>
    rw [hr] at halone
    obtain ⟨c₂, h₂, hc₂⟩ := Parsed.InStep.of_ok halone
    cases hr' : program fuel c with
    | ok ss' c' =>
      rw [hr'] at hself
      obtain ⟨c₃, h₃, hc₃⟩ := Parsed.InStep.of_ok hself
      obtain ⟨rfl, rfl⟩ : ss = ss' ∧ c₂ = c₃ := by simpa [h₂] using h₃
      refine ⟨c', rfl, ?_⟩
      have herrors := congrArg Cursor.errors (hc₃.eq.symm.trans hc₂.eq)
      simpa [Cursor.behind] using herrors
    | failed c' => exact absurd hr' (program_ne_failed _ _ _)
    | exhausted => exact absurd hr' hf
  | failed c₁ => exact absurd hr (program_ne_failed _ _ _)
  | exhausted => exact absurd (hn ▸ hr) (Program.ofTokens_ends _ _)

theorem declaration_panicking {s : Option Stmt} (h : declaration fuel c = .ok s c') :
    c'.panicking = false := by
  cases fuel with
  | zero => rw [declaration] at h; cases h
  | succ fuel =>
    rw [declaration_eq] at h
    unfold recover at h
    split at h
    · split at h
      · cases h; rfl
      · rename_i hp
        cases h
        simpa using hp
    · cases h; rfl
    · cases h

end Parser

/-- The first declaration is parsed or dropped, and what is left is parsed as if it stood alone. -/
theorem Program.ofTokens_cons {tokens : List Token} {fuel : Nat} (ht : tokens ≠ [])
    (hf : fuelFor tokens.length = fuel + 1) (endLine : Nat) :
    ∃ s c, Parser.declaration fuel (start tokens endLine) = .ok s c ∧
      ofTokens tokens endLine =
        ⟨s.toList ++ (ofTokens c.rest.tail endLine).statements,
          c.errors.reverse ++ (ofTokens c.rest.tail endLine).errors⟩ := by
  have hends := ofTokens_ends tokens endLine
  obtain ⟨t, more, rfl⟩ := List.exists_cons_of_ne_nil ht
  rw [hf, Parser.program_eq] at hends
  cases h : Parser.declaration fuel (start (t :: more) endLine) with
  | ok s c =>
    have hprogram : Parser.program (fuel + 1) (start (t :: more) endLine) =
        (Parser.program fuel >>= fun more => pure (s.toList ++ more)) c.advance := by
      rw [Parser.program_eq]
      exact Parser.bind_of_ok h
    have hmore : Parser.program fuel c.advance ≠ .exhausted := by
      intro he
      rw [← Parser.program_eq, hprogram, Parser.bind_apply, he] at hends
      exact hends rfl
    have hcalm : c.panicking = false := Parser.declaration_panicking h
    obtain ⟨c', hr, he⟩ := Parser.program_resumes (c := c.advance) hcalm hmore
    refine ⟨s, c, rfl, ?_⟩
    have hline : c.endLine = endLine := Parser.declaration_endLine h
    rw [ofTokens, hf, hprogram, Parser.bind_of_ok hr, ← hline]
    simp only [pure, Parser.pure, he, Cursor.advance, List.reverse_append, List.reverse_reverse]
  | failed c => exact absurd h (Parser.declaration_ne_failed _ _ _)
  | exhausted =>
    refine absurd ?_ hends
    exact (Parser.bind_apply _ _ _).trans (by rw [h])

end Lox
