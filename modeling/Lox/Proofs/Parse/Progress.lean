import Lox.Proofs.Parse.Equations
/-!
# Parsing ends

Every recursive call of the parser stands behind a token that has been passed, so fuel linear in
the number of tokens is enough. `Parsed.Ends` says that a result is not `exhausted` and that the
cursor has not moved back; main statement: `program_ends`.
-/

namespace Lox

/-- The parser came to a result, and at most `n` tokens are left. -/
def Parsed.Ends {α : Type} (n : Nat) : Parsed α → Prop
  | .ok _ c | .failed c => c.rest.length ≤ n
  | .exhausted => False

theorem Parsed.Ends.mono {α : Type} {n m : Nat} {r : Parsed α} (h : r.Ends n) (hnm : n ≤ m) :
    r.Ends m := by
  cases r with
  | ok a c => exact Nat.le_trans h hnm
  | failed c => exact Nat.le_trans h hnm
  | exhausted => exact h

namespace Parser

variable {α β γ : Type} {fuel : Nat}

theorem ends_bind {p : Parser α} {f : α → Parser β} {c : Cursor} {n : Nat}
    (hp : (p c).Ends c.rest.length) (hn : c.rest.length ≤ n)
    (hf : ∀ a c', p c = .ok a c' → c'.rest.length ≤ c.rest.length → (f a c').Ends n) :
    ((p >>= f) c).Ends n := by
  rw [bind_apply]
  cases h : p c with
  | ok a c' => rw [h] at hp; exact hf a c' h hp
  | failed c' => rw [h] at hp; exact Nat.le_trans hp hn
  | exhausted => rw [h] at hp; exact hp

/-! ## Where the cursor stands -/

theorem length_advance (c : Cursor) : c.advance.rest.length = c.rest.length - 1 := by
  simp [Cursor.advance]

theorem length_of_current {c : Cursor} {t : Token} (h : c.current? = some t) :
    0 < c.rest.length := by
  cases hc : c.rest <;> simp_all [Cursor.current?]

theorem length_of_next {c : Cursor} {t : Token} (h : c.next? = some t) : 2 ≤ c.rest.length := by
  rcases hc : c.rest with _ | ⟨u, _ | ⟨v, rest⟩⟩ <;> simp_all [Cursor.next?]

theorem length_of_nextIs {c : Cursor} {kind : Kind} (h : c.nextIs kind = true) :
    2 ≤ c.rest.length := by
  cases hn : c.next? with
  | none => simp [Cursor.nextIs, hn] at h
  | some t => exact length_of_next hn

theorem length_limit (count : Nat) (site : Site) (fault : SyntaxFault) (c : Cursor) :
    (limit count site fault c).rest.length = c.rest.length := by
  unfold limit; split <;> rfl

theorem expect_ends (kind : Kind) (fault : SyntaxFault) (c : Cursor) :
    (expect kind fault c).Ends c.rest.length := by
  unfold expect
  split
  · split <;> simp [Parsed.Ends, Cursor.advance, Cursor.panic, Cursor.report]
  · simp [Parsed.Ends, Cursor.panic, Cursor.report]

theorem length_of_expect_ok {kind : Kind} {fault : SyntaxFault} {c c' : Cursor} {t : Token}
    (h : expect kind fault c = .ok t c') :
    0 < c'.rest.length ∧ c'.rest.length + 1 = c.rest.length := by
  obtain ⟨-, rfl, ht⟩ := expect_ok h
  have hl := congrArg List.length ht
  simp only [Cursor.advance, List.length_tail, List.length_cons] at hl ⊢
  omega

/-- An item of a list, and the items after it. -/
theorem more_ends {p : Parser α} {rest : Parser (List β)} {g : α → List β → List γ} {c : Cursor}
    (hp : (p c).Ends c.rest.length)
    (hrest : ∀ c', c'.rest.length ≤ c.rest.length - 1 → (rest c').Ends c'.rest.length) :
    ((p >>= fun a => advance >>= fun _ => rest >>= fun more => pure (g a more)) c).Ends
      c.rest.length := by
  refine ends_bind hp (Nat.le_refl _) fun a c₁ _ hc₁ => ?_
  rw [advance_bind]
  have hl := length_advance c₁
  exact ends_bind (hrest _ (by omega)) (by omega) fun _ c₂ _ hc₂ => Nat.le_trans hc₂ (by omega)

/-- A token that must follow, and then a result. -/
theorem expect_then_ends (kind : Kind) (fault : SyntaxFault) (f : Token → α) {c : Cursor} {n : Nat}
    (hn : c.rest.length ≤ n) : ((expect kind fault >>= fun t => pure (f t)) c).Ends n :=
  ends_bind (expect_ends kind fault c) hn fun _ _ _ hc => Nat.le_trans hc hn

/-! ## Expressions -/

/-- Enough fuel for each parser of expressions, by the number of tokens left. The last three
parsers run with the cursor on a token. -/
structure ExprEnds (fuel : Nat) : Prop where
  expression : ∀ level c, 3 * c.rest.length + 2 ≤ fuel →
    (expression fuel level c).Ends c.rest.length
  operand : ∀ c, 3 * c.rest.length + 1 ≤ fuel → (operand fuel c).Ends c.rest.length
  operators : ∀ level left c, 3 * c.rest.length + 1 ≤ fuel →
    (operators fuel level left c).Ends c.rest.length
  unary : ∀ op token c, 0 < c.rest.length → 3 * c.rest.length ≤ fuel →
    (unary fuel op token c).Ends c.rest.length
  apply : ∀ op token left c, 0 < c.rest.length → 3 * c.rest.length + 1 ≤ fuel →
    (apply fuel op token left c).Ends c.rest.length
  arguments : ∀ count c, 0 < c.rest.length → 3 * c.rest.length ≤ fuel →
    (arguments fuel count c).Ends c.rest.length

theorem expression_ends (ih : ExprEnds fuel) (level : Precedence) (c : Cursor)
    (h : 3 * c.rest.length + 2 ≤ fuel + 1) :
    (expression (fuel + 1) level c).Ends c.rest.length := by
  rw [expression_eq]
  refine ends_bind (ih.operand c (by omega)) (Nat.le_refl _) fun left c' _ hc' => ?_
  exact (ih.operators level left c' (by omega)).mono hc'

theorem operand_ends (ih : ExprEnds fuel) (c : Cursor) (h : 3 * c.rest.length + 1 ≤ fuel + 1) :
    (operand (fuel + 1) c).Ends c.rest.length := by
  rw [operand_eq]
  split
  · exact Nat.le_refl _
  · rename_i t ht
    have hc := length_of_current ht
    split <;> try exact Nat.le_refl _
    · exact ih.unary .not t c hc (by omega)
    · exact ih.unary .neg t c hc (by omega)
    · have hl := length_advance c
      refine ends_bind (ih.expression .lowest _ (by omega)) (by omega) fun inner c' _ hc' => ?_
      exact expect_then_ends _ _ _ (by omega)
    · refine ends_bind (expect_ends _ _ _) (Nat.le_refl _) fun _ c' _ hc' => ?_
      exact expect_then_ends _ _ _ hc'

theorem operators_ends (ih : ExprEnds fuel) (level : Precedence) (left : Expr) (c : Cursor)
    (h : 3 * c.rest.length + 1 ≤ fuel + 1) :
    (operators (fuel + 1) level left c).Ends c.rest.length := by
  rw [operators_eq]
  split
  · exact Nat.le_refl _
  · rename_i t ht
    have hc := length_of_next ht
    have hl := length_advance c
    split
    · exact Nat.le_refl _
    · split
      · refine ends_bind (ih.apply _ _ _ _ (by omega) (by omega)) (by omega)
          fun left' c' _ hc' => ?_
        exact (ih.operators level left' c' (by omega)).mono (by omega)
      · exact Nat.le_refl _

theorem unary_ends (ih : ExprEnds fuel) (op : UnaryOp) (token : Token) (c : Cursor)
    (hc : 0 < c.rest.length) (h : 3 * c.rest.length ≤ fuel + 1) :
    (unary (fuel + 1) op token c).Ends c.rest.length := by
  have hl := length_advance c
  rw [unary_eq]
  refine ends_bind (ih.expression .unary _ (by omega)) (by omega) fun _ c' _ hc' => ?_
  exact Nat.le_trans hc' (by omega)

theorem apply_ends (ih : ExprEnds fuel) (op : Operator) (token : Token) (left : Expr) (c : Cursor)
    (hc : 0 < c.rest.length) (h : 3 * c.rest.length + 1 ≤ fuel + 1) :
    (apply (fuel + 1) op token left c).Ends c.rest.length := by
  have hl := length_advance c
  cases op with
  | binary b =>
    rw [apply_binary]
    exact ends_bind (ih.expression _ _ (by omega)) (by omega) fun _ c' _ hc' =>
      Nat.le_trans hc' (by omega)
  | logical l =>
    rw [apply_logical]
    exact ends_bind (ih.expression _ _ (by omega)) (by omega) fun _ c' _ hc' =>
      Nat.le_trans hc' (by omega)
  | assign =>
    rw [apply_assign]
    refine ends_bind (ih.expression _ _ (by omega)) (by omega) fun e c' _ hc' => ?_
    have : c'.rest.length ≤ c.rest.length := by omega
    cases left <;> exact this
  | call =>
    rw [apply_call]
    split
    · exact expect_then_ends _ _ _ (Nat.le_refl _)
    · refine ends_bind (ih.arguments 0 c hc (by omega)) (Nat.le_refl _) fun args c' _ hc' => ?_
      exact expect_then_ends _ _ _ hc'
  | get =>
    rw [apply_get]
    exact expect_then_ends _ _ _ (Nat.le_refl _)

theorem arguments_ends (ih : ExprEnds fuel) (count : Nat) (c : Cursor) (hc : 0 < c.rest.length)
    (h : 3 * c.rest.length ≤ fuel + 1) : (arguments (fuel + 1) count c).Ends c.rest.length := by
  have hl := length_advance c
  rw [arguments_eq]
  refine ends_bind (ih.expression _ _ (by omega)) (by omega) fun arg c₁ _ hc₁ => ?_
  unfold afterArgument
  have hl₁ := length_limit count (c₁.siteOf c₁.current?) .tooManyArguments c₁
  generalize limit count (c₁.siteOf c₁.current?) .tooManyArguments c₁ = c₂ at hl₁
  have hl₂ := length_advance c₂
  simp only
  split
  · rename_i hn
    have := length_of_nextIs hn
    refine ends_bind (ih.arguments _ _ (by omega) (by omega)) (by omega) fun more c' _ hc' => ?_
    exact Nat.le_trans hc' (by omega)
  · show c₂.rest.length ≤ _
    omega

theorem exprEnds : ∀ fuel, ExprEnds fuel
  | 0 => ⟨fun _ _ h => by omega, fun _ h => by omega, fun _ _ _ h => by omega,
      fun _ _ _ _ h => by omega, fun _ _ _ _ _ h => by omega, fun _ _ _ h => by omega⟩
  | fuel + 1 =>
    have ih := exprEnds fuel
    ⟨expression_ends ih, operand_ends ih, operators_ends ih, unary_ends ih, apply_ends ih,
      arguments_ends ih⟩

/-- An expression and the token that ends it. -/
theorem expression_then_ends {level : Precedence} {kind : Kind} {fault : SyntaxFault}
    (f : Expr → α) {c : Cursor} {n : Nat} (h : 3 * c.rest.length + 2 ≤ fuel)
    (hn : c.rest.length ≤ n) :
    ((expression fuel level >>= fun e => expect kind fault >>= fun _ => pure (f e)) c).Ends n :=
  ends_bind ((exprEnds fuel).expression level c h) hn fun _ _ _ hc =>
    expect_then_ends kind fault _ (Nat.le_trans hc hn)

/-! ## Pieces of statements -/

theorem parameters_ends : ∀ (fuel count : Nat) (c : Cursor), c.rest.length + 1 ≤ fuel →
    (parameters fuel count c).Ends c.rest.length
  | 0, _, _, h => by omega
  | fuel + 1, count, c, h => by
    rw [parameters_eq]
    refine ends_bind (expect_ends _ _ _) (Nat.le_refl _) fun param c₁ hp hc₁ => ?_
    unfold afterParameter
    have hl₁ := length_limit count (.token param) .tooManyParameters c₁
    generalize limit count (.token param) .tooManyParameters c₁ = c₂ at hl₁
    have hl₂ := length_advance c₂
    simp only
    split
    · rename_i hn
      have := length_of_nextIs hn
      refine ends_bind (parameters_ends fuel (count + 1) c₂.advance (by omega)) (by omega)
        fun more c' _ hc' => ?_
      exact Nat.le_trans hc' (by omega)
    · show c₂.rest.length ≤ _
      omega

section
variable {c : Cursor} (h : 3 * c.rest.length + 2 ≤ fuel)
include h

theorem varDecl_ends (keyword : Token) : (varDecl fuel keyword c).Ends c.rest.length := by
  rw [varDecl_eq]
  refine ends_bind (expect_ends _ _ _) (Nat.le_refl _) fun name c₁ _ hc₁ => ?_
  unfold afterVarName
  have hl := length_advance c₁
  have hl' := length_advance c₁.advance
  split
  · exact expression_then_ends _ (by omega) (by omega)
  · exact expect_then_ends _ _ _ hc₁

theorem exprStmt_ends : (exprStmt fuel c).Ends c.rest.length := by
  rw [exprStmt_eq]
  exact expression_then_ends _ h (Nat.le_refl _)

theorem printStmt_ends (keyword : Token) : (printStmt fuel keyword c).Ends c.rest.length := by
  have hl := length_advance c
  rw [printStmt_eq]
  exact expression_then_ends _ (by omega) (by omega)

theorem returnStmt_ends (keyword : Token) : (returnStmt fuel keyword c).Ends c.rest.length := by
  have hl := length_advance c
  rw [returnStmt_eq]
  split
  · exact expect_then_ends _ _ _ (Nat.le_refl _)
  · exact expression_then_ends _ (by omega) (by omega)

theorem condition_ends (opening closing : SyntaxFault) :
    (condition fuel opening closing c).Ends c.rest.length := by
  rw [condition]
  refine ends_bind (expect_ends _ _ _) (Nat.le_refl _) fun _ c₁ _ hc₁ => ?_
  have hl := length_advance c₁
  rw [advance_bind]
  exact expression_then_ends _ (by omega) (by omega)

theorem forInitializer_ends : (forInitializer fuel c).Ends c.rest.length := by
  have hexpr : ((exprStmt fuel >>= fun s => pure (some s)) c).Ends c.rest.length :=
    ends_bind (exprStmt_ends h) (Nat.le_refl _) fun _ _ _ hc => hc
  rw [forInitializer_eq]
  split
  · rename_i t ht
    split
    · exact Nat.le_refl _
    · exact ends_bind (varDecl_ends h t) (Nat.le_refl _) fun _ _ _ hc => hc
    · exact hexpr
  · exact hexpr

theorem forClause_ends (ending : Kind) (fault : SyntaxFault) :
    (forClause fuel ending fault c).Ends c.rest.length := by
  rw [forClause_eq]
  split
  · exact Nat.le_refl _
  · exact expression_then_ends _ h (Nat.le_refl _)

end

/-! ## Statements and declarations -/

theorem length_skipStatement : ∀ ts : List Token, (skipStatement ts).length ≤ ts.length
  | [] => Nat.le_refl _
  | [_] => Nat.le_refl _
  | t :: u :: rest => by
    unfold skipStatement
    split
    · exact Nat.le_refl _
    · exact Nat.le_trans (length_skipStatement (u :: rest)) (by simp)

theorem recover_ends {p : Parser Stmt} {c : Cursor} {n : Nat} (h : (p c).Ends n) :
    (recover p c).Ends n := by
  unfold recover
  cases hp : p c with
  | ok s c' =>
    rw [hp] at h
    simp only
    split
    · exact Nat.le_trans (length_skipStatement _) h
    · exact h
  | failed c' => rw [hp] at h; exact Nat.le_trans (length_skipStatement _) h
  | exhausted => rw [hp] at h; exact h

/-- Enough fuel for each parser of statements, by the number of tokens left. -/
structure StmtEnds (fuel : Nat) : Prop where
  declaration : ∀ c, 4 * c.rest.length + 4 ≤ fuel → (declaration fuel c).Ends c.rest.length
  statement : ∀ c, 4 * c.rest.length + 3 ≤ fuel → (statement fuel c).Ends c.rest.length
  block : ∀ c, 0 < c.rest.length → 4 * c.rest.length + 2 ≤ fuel →
    (block fuel c).Ends c.rest.length
  declarations : ∀ c, 4 * c.rest.length + 5 ≤ fuel → (declarations fuel c).Ends c.rest.length
  function : ∀ kind name c, 4 * c.rest.length + 3 ≤ fuel →
    (function fuel kind name c).Ends c.rest.length
  classDecl : ∀ keyword c, 4 * c.rest.length + 3 ≤ fuel →
    (classDecl fuel keyword c).Ends c.rest.length
  methods : ∀ c, 4 * c.rest.length + 4 ≤ fuel → (methods fuel c).Ends c.rest.length

theorem declaration_ends (ih : StmtEnds fuel) (c : Cursor) (h : 4 * c.rest.length + 4 ≤ fuel + 1) :
    (declaration (fuel + 1) c).Ends c.rest.length := by
  rw [declaration_eq]
  refine recover_ends ?_
  unfold declared
  split
  · split
    · exact ih.classDecl _ c (by omega)
    · refine ends_bind (expect_ends _ _ _) (Nat.le_refl _) fun name c₁ _ hc₁ => ?_
      exact ends_bind (ih.function _ name c₁ (by omega)) hc₁ fun _ c₂ _ hc₂ =>
        Nat.le_trans hc₂ hc₁
    · exact varDecl_ends (by omega) _
    · exact ih.statement c (by omega)
  · exact ih.statement c (by omega)

theorem statement_ends (ih : StmtEnds fuel) (c : Cursor) (h : 4 * c.rest.length + 3 ≤ fuel + 1) :
    (statement (fuel + 1) c).Ends c.rest.length := by
  rw [statement_eq]
  split
  · exact exprStmt_ends (by omega)
  · rename_i t ht
    have hc := length_of_current ht
    split
    · refine ends_bind (expect_ends _ _ _) (Nat.le_refl _) fun _ c₁ h₁ hc₁ => ?_
      have := length_of_expect_ok h₁
      rw [advance_bind]
      have hl := length_advance c₁
      refine ends_bind (forInitializer_ends (by omega)) (by omega) fun _ c₂ _ hc₂ => ?_
      rw [advance_bind]
      have hl₂ := length_advance c₂
      refine ends_bind (forClause_ends (by omega) _ _) (by omega) fun _ c₃ _ hc₃ => ?_
      rw [advance_bind]
      have hl₃ := length_advance c₃
      refine ends_bind (forClause_ends (by omega) _ _) (by omega) fun _ c₄ _ hc₄ => ?_
      rw [advance_bind]
      have hl₄ := length_advance c₄
      exact ends_bind (ih.statement _ (by omega)) (by omega) fun _ c₅ _ hc₅ =>
        Nat.le_trans hc₅ (by omega)
    · refine ends_bind (condition_ends (by omega) _ _) (Nat.le_refl _) fun _ c₁ _ hc₁ => ?_
      rw [advance_bind]
      have hl := length_advance c₁
      refine ends_bind (ih.statement _ (by omega)) (by omega) fun yes c₂ _ hc₂ => ?_
      unfold afterYes
      have hl₂ := length_advance c₂
      have hl₃ := length_advance c₂.advance
      split
      · exact ends_bind (ih.statement _ (by omega)) (by omega) fun _ c₃ _ hc₃ =>
          Nat.le_trans hc₃ (by omega)
      · exact Nat.le_trans hc₂ (by omega)
    · exact printStmt_ends (by omega) t
    · exact returnStmt_ends (by omega) t
    · refine ends_bind (condition_ends (by omega) _ _) (Nat.le_refl _) fun _ c₁ _ hc₁ => ?_
      rw [advance_bind]
      have hl := length_advance c₁
      exact ends_bind (ih.statement _ (by omega)) (by omega) fun _ c₂ _ hc₂ =>
        Nat.le_trans hc₂ (by omega)
    · exact ends_bind (ih.block c hc (by omega)) (Nat.le_refl _) fun _ _ _ hc₁ => hc₁
    · exact exprStmt_ends (by omega)

theorem block_ends (ih : StmtEnds fuel) (c : Cursor) (hc : 0 < c.rest.length)
    (h : 4 * c.rest.length + 2 ≤ fuel + 1) : (block (fuel + 1) c).Ends c.rest.length := by
  have hl := length_advance c
  rw [block_eq]
  refine ends_bind (ih.declarations _ (by omega)) (by omega) fun body c₁ _ hc₁ => ?_
  have : c₁.rest.length ≤ c.rest.length := by omega
  unfold closeBlock
  split <;> exact this

theorem declarations_ends (ih : StmtEnds fuel) (c : Cursor)
    (h : 4 * c.rest.length + 5 ≤ fuel + 1) :
    (declarations (fuel + 1) c).Ends c.rest.length := by
  rw [declarations_eq]
  split
  · exact Nat.le_refl _
  · rename_i t ht
    have hc := length_of_current ht
    split
    · exact Nat.le_refl _
    · exact more_ends (ih.declaration c (by omega)) fun c' hc' => ih.declarations c' (by omega)

theorem functionBody_ends (ih : StmtEnds fuel) (kind : Callee) (name : Token)
    (params : List Token) (c : Cursor) (h : 4 * c.rest.length + 2 ≤ fuel) :
    (functionBody fuel kind name params c).Ends c.rest.length := by
  unfold functionBody
  refine ends_bind (expect_ends _ _ _) (Nat.le_refl _) fun _ c₁ _ hc₁ => ?_
  refine ends_bind (expect_ends _ _ _) hc₁ fun _ c₂ h₂ hc₂ => ?_
  have := length_of_expect_ok h₂
  exact ends_bind (ih.block c₂ this.1 (by omega)) (by omega) fun _ c₃ _ hc₃ =>
    Nat.le_trans hc₃ (by omega)

theorem function_ends (ih : StmtEnds fuel) (kind : Callee) (name : Token) (c : Cursor)
    (h : 4 * c.rest.length + 3 ≤ fuel + 1) :
    (function (fuel + 1) kind name c).Ends c.rest.length := by
  rw [function_eq]
  refine ends_bind (expect_ends _ _ _) (Nat.le_refl _) fun _ c₁ _ hc₁ => ?_
  unfold functionRest
  split
  · exact (functionBody_ends ih kind name [] c₁ (by omega)).mono hc₁
  · refine ends_bind (parameters_ends fuel 0 c₁ (by omega)) hc₁ fun params c₂ _ hc₂ => ?_
    exact (functionBody_ends ih kind name params c₂ (by omega)).mono (by omega)

theorem classBody_ends (ih : StmtEnds fuel) (keyword name : Token) (superclass : Option Ref)
    (c : Cursor) (h : 4 * c.rest.length ≤ fuel) :
    (classBody fuel keyword name superclass c).Ends c.rest.length := by
  unfold classBody
  refine ends_bind (expect_ends _ _ _) (Nat.le_refl _) fun _ c₁ h₁ hc₁ => ?_
  have := length_of_expect_ok h₁
  rw [advance_bind]
  have hl := length_advance c₁
  refine ends_bind (ih.methods _ (by omega)) (by omega) fun ms c₂ _ hc₂ => ?_
  have : c₂.rest.length ≤ c.rest.length := by omega
  unfold closeClass
  split <;> exact this

theorem classDecl_ends (ih : StmtEnds fuel) (keyword : Token) (c : Cursor)
    (h : 4 * c.rest.length + 3 ≤ fuel + 1) :
    (classDecl (fuel + 1) keyword c).Ends c.rest.length := by
  rw [classDecl_eq]
  refine ends_bind (expect_ends _ _ _) (Nat.le_refl _) fun name c₁ _ hc₁ => ?_
  unfold afterClassName
  have hl := length_advance c₁
  split
  · refine ends_bind (expect_ends _ _ _) (by omega) fun t c₂ _ hc₂ => ?_
    exact (classBody_ends ih keyword name _ c₂ (by omega)).mono (by omega)
  · exact (classBody_ends ih keyword name none c₁ (by omega)).mono hc₁

theorem methods_ends (ih : StmtEnds fuel) (c : Cursor) (h : 4 * c.rest.length + 4 ≤ fuel + 1) :
    (methods (fuel + 1) c).Ends c.rest.length := by
  rw [methods_eq]
  split
  · exact Nat.le_refl _
  · rename_i t ht
    have hc := length_of_current ht
    split
    · exact Nat.le_refl _
    · exact more_ends (ih.function _ t c (by omega)) fun c' hc' => ih.methods c' (by omega)
    · exact Nat.le_refl _

theorem stmtEnds : ∀ fuel, StmtEnds fuel
  | 0 => ⟨fun _ h => by omega, fun _ h => by omega, fun _ _ h => by omega, fun _ h => by omega,
      fun _ _ _ h => by omega, fun _ _ h => by omega, fun _ h => by omega⟩
  | fuel + 1 =>
    have ih := stmtEnds fuel
    ⟨declaration_ends ih, statement_ends ih, block_ends ih, declarations_ends ih,
      function_ends ih, classDecl_ends ih, methods_ends ih⟩

/-- **Parsing ends.** With fuel linear in the number of tokens the parser is never exhausted. -/
theorem program_ends : ∀ (fuel : Nat) (c : Cursor), 4 * c.rest.length + 5 ≤ fuel →
    (program fuel c).Ends c.rest.length
  | 0, _, h => by omega
  | fuel + 1, c, h => by
    rw [program_eq]
    split
    · exact Nat.le_refl _
    · rename_i t ht
      have hc := length_of_current ht
      exact more_ends ((stmtEnds fuel).declaration c (by omega)) fun c' hc' =>
        program_ends fuel c' (by omega)

end Parser

theorem Program.ofTokens_ends (tokens : List Token) (endLine : Nat) :
    Parser.program (fuelFor tokens.length) (start tokens endLine) ≠ .exhausted := by
  have h := Parser.program_ends (fuelFor tokens.length) (start tokens endLine)
    (by simp [start, fuelFor]; omega)
  intro he
  rw [he] at h
  exact h

end Lox
