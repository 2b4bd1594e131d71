import Lox.Proofs.Parse.Equations
/-!
# Parsers in step

Two parses go in step when they see the same tokens: then they come to the same tree, or fail
together. `Lockstep` lists what has to be known of two cursors for that, with as little
look-ahead as the parsers of expressions need: the token behind a semicolon is never looked at.
Main statement: `exprInStep`. The second parse may have more fuel than the first.
-/

namespace Lox

/-- Whether the phrase in which this fault is met is given up. -/
def SyntaxFault.unwinds : SyntaxFault → Bool
  | invalidTarget | tooManyArguments | tooManyParameters => false
  | _ => true

/-- The two results are alike: the same tree with the cursors in `R`, or two failures with the
cursors in `F`. The first parser may also have run out of fuel. -/
def Parsed.InStep {α : Type} (R F : Cursor → Cursor → Prop) : Parsed α → Parsed α → Prop
  | .ok a c, .ok a' c' => a' = a ∧ R c c'
  | .failed c, .failed c' => F c c'
  | .exhausted, _ => True
  | _, _ => False

theorem Parsed.InStep.of_ok {α : Type} {R F : Cursor → Cursor → Prop} {a : α} {c : Cursor}
    {r' : Parsed α} (h : (Parsed.ok a c).InStep R F r') : ∃ c', r' = .ok a c' ∧ R c c' := by
  cases r' with
  | ok a' c' => exact ⟨c', by rw [h.1], h.2⟩
  | failed c' => exact h.elim
  | exhausted => exact h.elim

theorem Parsed.InStep.of_failed {α : Type} {R F : Cursor → Cursor → Prop} {c : Cursor}
    {r' : Parsed α} (h : (Parsed.failed c).InStep R F r') : ∃ c', r' = .failed c' ∧ F c c' := by
  cases r' with
  | ok a' c' => exact h.elim
  | failed c' => exact ⟨c', rfl, h⟩
  | exhausted => exact h.elim

/-- Two cursors moving over the same tokens. `At` says that they stand on the same token, `On`
that they see the same next token as well, `Failed` that both parsers have given up there, and
`Met` that the token has been seen. -/
structure Lockstep where
  At : Cursor → Cursor → Prop
  On : Cursor → Cursor → Prop
  Failed : Cursor → Cursor → Prop
  Met : Token → Prop
  current {c c' : Cursor} : At c c' → c'.current? = c.current?
  next {c c' : Cursor} : On c c' → c'.next? = c.next?
  on {c c' : Cursor} {t : Token} :
    At c c' → c.current? = some t → t.kind ≠ .semicolon → On c c'
  advance {c c' : Cursor} : On c c' → At c.advance c'.advance
  met {c c' : Cursor} {t : Token} : On c c' → c.next? = some t → Met t
  failCurrent {c c' : Cursor} {fault : SyntaxFault} : At c c' → fault.unwinds = true →
    Failed (c.panic (c.siteOf c.current?) fault) (c'.panic (c'.siteOf c'.current?) fault)
  failNext {c c' : Cursor} {fault : SyntaxFault} : On c c' → fault.unwinds = true →
    Failed (c.panic (c.siteOf c.next?) fault) (c'.panic (c'.siteOf c'.next?) fault)
  reportCurrent {c c' : Cursor} {fault : SyntaxFault} : On c c' → fault.unwinds = false →
    On (c.report (c.siteOf c.current?) fault) (c'.report (c'.siteOf c'.current?) fault)
  reportMet {c c' : Cursor} {t : Token} {fault : SyntaxFault} : On c c' → Met t →
    fault.unwinds = false → On (c.report (.token t) fault) (c'.report (.token t) fault)

theorem Lockstep.nextIs (L : Lockstep) {c c' : Cursor} (h : L.On c c') (kind : Kind) :
    c'.nextIs kind = c.nextIs kind := by
  simp only [Cursor.nextIs, L.next h]

namespace Parser

variable {α β : Type} {fuel fuel' : Nat} {c c' : Cursor} {R R' F : Cursor → Cursor → Prop}

theorem inStep_ok (a : α) (h : R c c') : (Parsed.ok a c).InStep R F (.ok a c') := ⟨rfl, h⟩

theorem inStep_bind {p p' : Parser α} {f f' : α → Parser β}
    (hp : (p c).InStep R F (p' c'))
    (hf : ∀ a c₁ c₁', R c₁ c₁' → (f a c₁).InStep R' F (f' a c₁')) :
    ((p >>= f) c).InStep R' F ((p' >>= f') c') := by
  rw [bind_apply, bind_apply]
  cases hr : p c with
  | ok a c₁ =>
    rw [hr] at hp
    obtain ⟨c₁', hr', h₁⟩ := hp.of_ok
    rw [hr']
    exact hf a c₁ c₁' h₁
  | failed c₁ =>
    rw [hr] at hp
    obtain ⟨c₁', hr', h₁⟩ := hp.of_failed
    rw [hr']
    exact h₁
  | exhausted => trivial

variable {L : Lockstep}

/-- A token that must follow and is no semicolon is passed by both. -/
theorem expect_inStep {kind : Kind} {fault : SyntaxFault} (h : L.On c c')
    (hk : kind ≠ .semicolon) (hf : fault.unwinds = true) :
    (expect kind fault c).InStep L.On L.Failed (expect kind fault c') := by
  have hfail := L.failNext h hf
  unfold expect
  rw [L.next h] at hfail ⊢
  cases hn : c.next? with
  | none =>
    rw [hn] at hfail
    exact hfail
  | some t =>
    rw [hn] at hfail
    simp only
    split
    · rename_i hkind
      refine inStep_ok t (L.on (L.advance h) hn ?_)
      rw [beq_iff_eq.1 hkind]
      exact hk
    · exact hfail

theorem expect_then_inStep {kind : Kind} {fault : SyntaxFault} (f : Token → α) (h : L.On c c')
    (hk : kind ≠ .semicolon) (hf : fault.unwinds = true) :
    ((expect kind fault >>= fun t => pure (f t)) c).InStep L.On L.Failed
      ((expect kind fault >>= fun t => pure (f t)) c') :=
  inStep_bind (expect_inStep h hk hf) fun _ _ _ hc => inStep_ok _ hc

theorem failHere_inStep {fault : SyntaxFault} (h : L.At c c') (hf : fault.unwinds = true) :
    (failHere fault c : Parsed α).InStep R L.Failed (failHere fault c') :=
  L.failCurrent h hf

/-! ## Expressions -/

/-- Each parser of expressions from cursors in step. Those that run with the cursor on a token of
their own need more than `At`. -/
structure ExprInStep (L : Lockstep) (fuel fuel' : Nat) : Prop where
  expression : ∀ level {c c'}, L.At c c' →
    (expression fuel level c).InStep L.On L.Failed (expression fuel' level c')
  operand : ∀ {c c'}, L.At c c' → (operand fuel c).InStep L.On L.Failed (operand fuel' c')
  operators : ∀ level left {c c'}, L.On c c' →
    (operators fuel level left c).InStep L.On L.Failed (operators fuel' level left c')
  unary : ∀ op token {c c'}, L.On c c' →
    (unary fuel op token c).InStep L.On L.Failed (unary fuel' op token c')
  apply : ∀ op token left {c c'}, L.Met token → L.On c c' →
    (apply fuel op token left c).InStep L.On L.Failed (apply fuel' op token left c')
  arguments : ∀ count {c c'}, L.On c c' →
    (arguments fuel count c).InStep L.On L.Failed (arguments fuel' count c')

theorem operand_inStep (ih : ExprInStep L fuel fuel') (h : L.At c c') :
    (operand (fuel + 1) c).InStep L.On L.Failed (operand (fuel' + 1) c') := by
  rw [operand_eq, operand_eq, L.current h]
  cases hc : c.current? with
  | none => exact failHere_inStep h rfl
  | some t =>
    have on : t.kind ≠ .semicolon → L.On c c' := L.on h hc
    simp only
    cases hk : t.kind <;> simp only
    case bang => exact ih.unary .not t (on (by simp [hk]))
    case minus => exact ih.unary .neg t (on (by simp [hk]))
    case leftParen =>
      refine inStep_bind (ih.expression .lowest (L.advance (on (by simp [hk]))))
        fun inner c₁ c₁' h₁ => ?_
      exact expect_then_inStep _ h₁ (by simp) rfl
    case kwSuper =>
      refine inStep_bind (expect_inStep (on (by simp [hk])) (by simp) rfl) fun _ c₁ c₁' h₁ => ?_
      exact expect_then_inStep _ h₁ (by simp) rfl
    case ident | number | string | kwTrue | kwFalse | kwNil | kwThis =>
      exact inStep_ok _ (on (by simp [hk]))
    all_goals exact failHere_inStep h rfl

theorem operators_inStep (ih : ExprInStep L fuel fuel') (level : Precedence) (left : Expr)
    (h : L.On c c') :
    (operators (fuel + 1) level left c).InStep L.On L.Failed
      (operators (fuel' + 1) level left c') := by
  rw [operators_eq, operators_eq, L.next h]
  cases hn : c.next? with
  | none => exact inStep_ok _ h
  | some t =>
    simp only
    cases ho : Operator.ofKind? t.kind with
    | none => exact inStep_ok _ h
    | some op =>
      have hk : t.kind ≠ .semicolon := by
        intro hk
        rw [hk] at ho
        cases ho
      simp only
      split
      · exact inStep_bind (ih.apply op t left (L.met h hn) (L.on (L.advance h) hn hk))
          fun left' _ _ h₁ => ih.operators level left' h₁
      · exact inStep_ok _ h

theorem assignment_inStep (token : Token) (left value : Expr) (ht : L.Met token)
    (h : L.On c c') :
    (assignment token left value c).InStep L.On L.Failed (assignment token left value c') := by
  unfold assignment
  split
  · exact inStep_ok _ h
  · exact inStep_ok _ h
  · exact inStep_ok _ (L.reportMet h ht rfl)

theorem apply_inStep (ih : ExprInStep L fuel fuel') (op : Operator) (token : Token) (left : Expr)
    (ht : L.Met token) (h : L.On c c') :
    (apply (fuel + 1) op token left c).InStep L.On L.Failed
      (apply (fuel' + 1) op token left c') := by
  cases op with
  | binary b =>
    rw [apply_binary, apply_binary]
    exact inStep_bind (ih.expression _ (L.advance h)) fun _ _ _ h₁ => inStep_ok _ h₁
  | logical l =>
    rw [apply_logical, apply_logical]
    exact inStep_bind (ih.expression _ (L.advance h)) fun _ _ _ h₁ => inStep_ok _ h₁
  | assign =>
    rw [apply_assign, apply_assign]
    exact inStep_bind (ih.expression _ (L.advance h)) fun value _ _ h₁ =>
      assignment_inStep token left value ht h₁
  | call =>
    rw [apply_call, apply_call, L.nextIs h]
    split
    · exact expect_then_inStep _ h (by simp) rfl
    · refine inStep_bind (ih.arguments 0 h) fun args _ _ h₁ => ?_
      exact expect_then_inStep _ h₁ (by simp) rfl
  | get =>
    rw [apply_get, apply_get]
    exact expect_then_inStep _ h (by simp) rfl

theorem limit_inStep (count : Nat) (h : L.On c c') :
    L.On (limit count (c.siteOf c.current?) .tooManyArguments c)
      (limit count (c'.siteOf c'.current?) .tooManyArguments c') := by
  unfold limit
  split
  · exact L.reportCurrent h rfl
  · exact h

theorem arguments_inStep (ih : ExprInStep L fuel fuel') (count : Nat) (h : L.On c c') :
    (arguments (fuel + 1) count c).InStep L.On L.Failed (arguments (fuel' + 1) count c') := by
  rw [arguments_eq, arguments_eq]
  refine inStep_bind (ih.expression .lowest (L.advance h)) fun arg c₁ c₁' h₁ => ?_
  have h₂ := limit_inStep count h₁
  simp only [afterArgument]
  rw [L.nextIs h₂]
  split
  · rename_i hcomma
    have h₃ : L.On (limit count (c₁.siteOf c₁.current?) .tooManyArguments c₁).advance
        (limit count (c₁'.siteOf c₁'.current?) .tooManyArguments c₁').advance := by
      obtain ⟨t, hn, hk⟩ := next_of_nextIs hcomma
      exact L.on (L.advance h₂) hn (by simp [hk])
    exact inStep_bind (ih.arguments (count + 1) h₃) fun _ _ _ h₄ => inStep_ok _ h₄
  · exact inStep_ok _ h₂

/-- **Parsers of expressions go in step.** -/
theorem exprInStep (L : Lockstep) : ∀ {fuel fuel' : Nat}, fuel ≤ fuel' → ExprInStep L fuel fuel'
  | 0, _, _ => ⟨fun _ _ _ _ => trivial, fun _ => trivial, fun _ _ _ _ _ => trivial,
      fun _ _ _ _ _ => trivial, fun _ _ _ _ _ _ _ => trivial, fun _ _ _ _ => trivial⟩
  | fuel + 1, fuel' + 1, hle =>
    have ih := exprInStep L (Nat.le_of_succ_le_succ hle)
    { expression := fun level _ _ h => by
        rw [expression_eq, expression_eq]
        exact inStep_bind (ih.operand h) fun left _ _ h₁ => ih.operators level left h₁
      operand := operand_inStep ih
      operators := fun level left _ _ => operators_inStep ih level left
      unary := fun op token _ _ h => by
        rw [unary_eq, unary_eq]
        exact inStep_bind (ih.expression .unary (L.advance h)) fun _ _ _ h₁ => inStep_ok _ h₁
      apply := fun op token left _ _ => apply_inStep ih op token left
      arguments := fun count _ _ => arguments_inStep ih count }

end Parser

end Lox
