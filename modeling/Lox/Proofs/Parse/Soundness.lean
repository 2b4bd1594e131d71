import Lox.Proofs.Parse.Errors
import Lox.Proofs.Parse.Tiers
/-!
# What the parser accepts is grammatical

A parser that leaves no errors has read exactly the tokens of a derivation of its result. The
cursor stands on the last token of a phrase when it is done, so what is left of the input is
`c.rest.tail`.
-/

namespace Lox.Parser

open Grammar (Spells Tier Above StopsAt Forms)

variable {α β : Type} {fuel : Nat} {c c' : Cursor}

/-- A token that must follow, and then a result. -/
theorem expect_then_ok {kind : Kind} {fault : SyntaxFault} {f : Token → α} {a : α}
    (h : (expect kind fault >>= fun t => pure (f t)) c = .ok a c') :
    ∃ t, t.kind = kind ∧ a = f t ∧ c' = c.advance ∧ c.rest.tail = t :: c'.rest.tail := by
  obtain ⟨t, c₁, h₁, h₂⟩ := bind_ok h
  obtain ⟨hk, hc, ht⟩ := expect_ok h₁
  cases h₂
  exact ⟨t, hk, rfl, hc, ht⟩

theorem limit_eq_of_errors {count : Nat} {site : Site} {fault : SyntaxFault}
    (h : (limit count site fault c).errors = []) :
    limit count site fault c = c ∧ count < maxArguments := by
  unfold limit at h ⊢
  split
  · rename_i hle; simp [hle, Cursor.report] at h
  · rename_i hlt; exact ⟨rfl, by omega⟩

/-! ## Expressions -/

/-- What each parser of expressions has read when it leaves no errors. -/
structure ExprSound (fuel : Nat) : Prop where
  expression : ∀ level c e c', expression fuel level c = .ok e c' → c'.errors = [] →
    ∃ t ts, Spells (.tier t e) ts ∧ c.rest = ts ++ c'.rest.tail ∧ Above level t ∧
      StopsAt level.rank c'.rest.tail
  operand : ∀ c e c', operand fuel c = .ok e c' → c'.errors = [] →
    ∃ t ts, Spells (.tier t e) ts ∧ c.rest = ts ++ c'.rest.tail ∧ 9 ≤ t.rank ∧
      StopsAt t.follow c'.rest.tail
  operators : ∀ level left c e c' t ls, operators fuel level left c = .ok e c' →
    c'.errors = [] → Spells (.tier t left) ls → Above level t → StopsAt t.follow c.rest.tail →
    ∃ t' more, Spells (.tier t' e) (ls ++ more) ∧ c.rest.tail = more ++ c'.rest.tail ∧
      Above level t' ∧ StopsAt level.rank c'.rest.tail
  unary : ∀ op token c e c', Grammar.unaryOp? token.kind = some op →
    unary fuel op token c = .ok e c' → c'.errors = [] →
    ∃ ts, Spells (.tier .unary e) (token :: ts) ∧ c.rest.tail = ts ++ c'.rest.tail ∧
      StopsAt Tier.unary.follow c'.rest.tail
  apply : ∀ op token left c e c' t ls, Operator.ofKind? token.kind = some op →
    apply fuel op token left c = .ok e c' → c'.errors = [] → Spells (.tier t left) ls →
    op.precedence.rank ≤ t.follow →
    ∃ more, Spells (.tier (.ofOperator op) e) (ls ++ token :: more) ∧
      c.rest.tail = more ++ c'.rest.tail ∧ StopsAt (Tier.ofOperator op).follow c'.rest.tail
  arguments : ∀ count c es c', arguments fuel count c = .ok es c' → c'.errors = [] →
    ∃ ts, Spells (.arguments es) ts ∧ c.rest.tail = ts ++ c'.rest.tail ∧
      count + es.length ≤ maxArguments

theorem expression_sound (ih : ExprSound fuel) (level : Precedence) (c : Cursor) (e : Expr)
    (c' : Cursor) (h : expression (fuel + 1) level c = .ok e c') (he : c'.errors = []) :
    ∃ t ts, Spells (.tier t e) ts ∧ c.rest = ts ++ c'.rest.tail ∧ Above level t ∧
      StopsAt level.rank c'.rest.tail := by
  rw [expression_eq] at h
  obtain ⟨left, c₁, h₁, h₂⟩ := bind_ok h
  have he₁ := ((exprClean fuel).operators level left c₁).errors h₂ he
  obtain ⟨t, ls, hl, hr, ht, hs⟩ := ih.operand c left c₁ h₁ he₁
  obtain ⟨t', more, hm, hr', ht', hs'⟩ :=
    ih.operators level left c₁ e c' t ls h₂ he hl (Or.inr ht) hs
  exact ⟨t', ls ++ more, hm, by rw [hr, hr', List.append_assoc], ht', hs'⟩

theorem operand_sound (ih : ExprSound fuel) (c : Cursor) (e : Expr) (c' : Cursor)
    (h : operand (fuel + 1) c = .ok e c') (he : c'.errors = []) :
    ∃ t ts, Spells (.tier t e) ts ∧ c.rest = ts ++ c'.rest.tail ∧ 9 ≤ t.rank ∧
      StopsAt t.follow c'.rest.tail := by
  -- a primary phrase stands on one token, and any operator may follow it
  have one : ∀ {t : Token} {e : Expr}, c.current? = some t → Spells (.tier .primary e) [t] →
      ∃ tier ts, Spells (.tier tier e) ts ∧ c.rest = ts ++ c.rest.tail ∧ 9 ≤ tier.rank ∧
        StopsAt tier.follow c.rest.tail := fun ht hs =>
    ⟨.primary, _, hs, rest_of_current ht, by decide, (Grammar.stopsAt_call _).mono (by decide)⟩
  rw [operand_eq] at h
  split at h
  · cases h
  · rename_i t ht
    have hrest := rest_of_current ht
    split at h
    · rename_i hk; cases h; exact one ht (.name hk)
    · rename_i hk; cases h; exact one ht (.constant (by simp [Grammar.constant?, hk]))
    · rename_i hk; cases h; exact one ht (.constant (by simp [Grammar.constant?, hk]))
    · rename_i hk; cases h; exact one ht (.constant (by simp [Grammar.constant?, hk]))
    · rename_i hk; cases h; exact one ht (.constant (by simp [Grammar.constant?, hk]))
    · rename_i hk; cases h; exact one ht (.constant (by simp [Grammar.constant?, hk]))
    · rename_i hk
      obtain ⟨ts, hs, hr, hstop⟩ :=
        ih.unary .not t c e c' (by simp [Grammar.unaryOp?, hk]) h he
      exact ⟨.unary, _, hs, by rw [hrest, hr, List.cons_append], by decide, hstop⟩
    · rename_i hk
      obtain ⟨ts, hs, hr, hstop⟩ :=
        ih.unary .neg t c e c' (by simp [Grammar.unaryOp?, hk]) h he
      exact ⟨.unary, _, hs, by rw [hrest, hr, List.cons_append], by decide, hstop⟩
    · rename_i hk
      obtain ⟨inner, c₁, h₁, h₂⟩ := bind_ok h
      have he₁ := (expect_then_clean .rightParen .groupClose _ c₁).errors h₂ he
      obtain ⟨closing, hck, rfl, -, hrest'⟩ := expect_then_ok h₂
      obtain ⟨tier, ts, hs, hr, -, -⟩ := ih.expression _ _ _ _ h₁ he₁
      refine ⟨.primary, t :: (ts ++ [closing]), .group hk hs.expression hck, ?_, by decide,
        (Grammar.stopsAt_call _).mono (by decide)⟩
      have hr' : c.rest.tail = ts ++ c₁.rest.tail := hr
      rw [hrest, hr', hrest']
      simp
    · rename_i hk; cases h; exact one ht (.this hk)
    · rename_i hk
      obtain ⟨dot, c₁, h₁, h₂⟩ := bind_ok h
      obtain ⟨hd, -, hr₁⟩ := expect_ok h₁
      obtain ⟨name, hn, rfl, -, hr₂⟩ := expect_then_ok h₂
      refine ⟨.primary, [t, dot, name], .super hk hd hn, ?_, by decide,
        (Grammar.stopsAt_call _).mono (by decide)⟩
      rw [hrest, hr₁, hr₂]
      rfl
    · cases h

theorem operators_sound (ih : ExprSound fuel) (level : Precedence) (left : Expr) (c : Cursor)
    (e : Expr) (c' : Cursor) (t : Tier) (ls : List Token)
    (h : operators (fuel + 1) level left c = .ok e c') (he : c'.errors = [])
    (hl : Spells (.tier t left) ls) (ht : Above level t) (hs : StopsAt t.follow c.rest.tail) :
    ∃ t' more, Spells (.tier t' e) (ls ++ more) ∧ c.rest.tail = more ++ c'.rest.tail ∧
      Above level t' ∧ StopsAt level.rank c'.rest.tail := by
  -- nothing is added when no operator above the level comes next
  have stay : ∀ {c' : Cursor}, StopsAt level.rank c.rest.tail → c = c' →
      ∃ t' more, Spells (.tier t' left) (ls ++ more) ∧ c.rest.tail = more ++ c'.rest.tail ∧
        Above level t' ∧ StopsAt level.rank c'.rest.tail := by
    rintro c' hstop rfl
    exact ⟨t, [], by simpa using hl, rfl, ht, hstop⟩
  rw [operators_eq] at h
  split at h
  · rename_i hn
    cases h
    exact stay (fun u op hu _ => by cases hn.symm.trans hu) rfl
  · rename_i u hu
    split at h
    · rename_i ho
      cases h
      exact stay (fun v op hv hop => by cases hu.symm.trans hv; cases ho.symm.trans hop) rfl
    · rename_i op ho
      split at h
      · rename_i hrank
        obtain ⟨left', c₁, h₁, h₂⟩ := bind_ok h
        have he₁ := ((exprClean fuel).operators level left' c₁).errors h₂ he
        obtain ⟨more, hm, hr, hstop⟩ :=
          ih.apply op u left _ _ _ t ls ho h₁ he₁ hl (hs u op hu ho)
        have habove : Above level (.ofOperator op) := by
          left; rw [Tier.rank_ofOperator]; exact hrank
        obtain ⟨t', more', hm', hr', ht', hs'⟩ :=
          ih.operators level left' c₁ e c' _ _ h₂ he hm habove hstop
        refine ⟨t', u :: more ++ more', by simpa using hm', ?_, ht', hs'⟩
        rw [tail_of_next hu, hr, hr']
        simp
      · rename_i hrank
        cases h
        refine stay (fun v op' hv hop => ?_) rfl
        cases hu.symm.trans hv
        cases ho.symm.trans hop
        omega

theorem unary_sound (ih : ExprSound fuel) (op : UnaryOp) (token : Token) (c : Cursor) (e : Expr)
    (c' : Cursor) (hk : Grammar.unaryOp? token.kind = some op)
    (h : unary (fuel + 1) op token c = .ok e c') (he : c'.errors = []) :
    ∃ ts, Spells (.tier .unary e) (token :: ts) ∧ c.rest.tail = ts ++ c'.rest.tail ∧
      StopsAt Tier.unary.follow c'.rest.tail := by
  rw [unary_eq] at h
  obtain ⟨operand, c₁, h₁, h₂⟩ := bind_ok h
  cases h₂
  obtain ⟨t, ts, hs, hr, ht, hstop⟩ := ih.expression _ _ _ _ h₁ he
  have hrank : Tier.unary.rank ≤ t.rank := by
    rcases ht with ht | ht
    · exact Nat.le_of_lt ht
    · exact ht
  exact ⟨ts, .unary hk (hs.of_rank_le hrank), hr, hstop⟩

/-- The right operand is of the next tighter tier, and what follows it does not bind tighter. -/
theorem rightOperand_sound (ih : ExprSound fuel) {op : Operator} {u : Tier}
    (hu : (Tier.ofOperator op).tighter? = some u) (hf : (Tier.ofOperator op).rank < 9)
    {e : Expr} (h : expression fuel op.precedence c.advance = .ok e c') (he : c'.errors = []) :
    ∃ more, Spells (.tier u e) more ∧ c.rest.tail = more ++ c'.rest.tail ∧
      StopsAt (Tier.ofOperator op).rank c'.rest.tail := by
  obtain ⟨t, ts, hs, hr, ht, hstop⟩ := ih.expression _ _ _ _ h he
  rw [← Tier.rank_ofOperator] at hstop
  have hru := Tier.rank_of_tighter hu
  have hrank : u.rank ≤ t.rank := by
    rcases ht with ht | ht
    · rw [← Tier.rank_ofOperator] at ht; omega
    · have : Precedence.unary.rank = 9 := rfl
      omega
  exact ⟨ts, hs.of_rank_le hrank, hr, hstop⟩

theorem apply_sound (ih : ExprSound fuel) (op : Operator) (token : Token) (left : Expr)
    (c : Cursor) (e : Expr) (c' : Cursor) (t : Tier) (ls : List Token)
    (hk : Operator.ofKind? token.kind = some op)
    (h : apply (fuel + 1) op token left c = .ok e c') (he : c'.errors = [])
    (hl : Spells (.tier t left) ls) (hop : op.precedence.rank ≤ t.follow) :
    ∃ more, Spells (.tier (.ofOperator op) e) (ls ++ token :: more) ∧
      c.rest.tail = more ++ c'.rest.tail ∧ StopsAt (Tier.ofOperator op).follow c'.rest.tail := by
  have hl' : Spells (.tier (.ofOperator op) left) ls :=
    hl.of_rank_le (by rw [Tier.rank_ofOperator]; exact Nat.le_trans hop (Tier.follow_le_rank t))
  cases op with
  | binary b =>
    rw [apply_binary] at h
    obtain ⟨r, c₁, h₁, h₂⟩ := bind_ok h
    cases h₂
    obtain ⟨u, hu⟩ := Tier.tighter_ofBinary b
    obtain ⟨more, hs, hr, hstop⟩ :=
      rightOperand_sound ih hu (by cases b <;> decide) h₁ he
    exact ⟨more, .operator (Tier.node_of_binary hk) hu hl' hs, hr,
      hstop.mono (by cases b <;> decide)⟩
  | logical l =>
    rw [apply_logical] at h
    obtain ⟨r, c₁, h₁, h₂⟩ := bind_ok h
    cases h₂
    obtain ⟨u, hu⟩ := Tier.tighter_ofLogical l
    obtain ⟨more, hs, hr, hstop⟩ :=
      rightOperand_sound ih hu (by cases l <;> decide) h₁ he
    exact ⟨more, .operator (Tier.node_of_logical hk) hu hl' hs, hr,
      hstop.mono (by cases l <;> decide)⟩
  | assign =>
    have htoken : token.kind = .assign := by
      cases ht : token.kind <;> simp [Operator.ofKind?, ht] at hk ⊢
    rw [apply_assign] at h
    obtain ⟨v, c₁, h₁, h₂⟩ := bind_ok h
    unfold assignment at h₂
    split at h₂
    · rename_i ref
      cases h₂
      obtain ⟨tv, ts, hs, hr, -, hstop⟩ := ih.expression _ _ _ _ h₁ he
      obtain ⟨name, hn, rfl, rfl⟩ := hl.var_inv
      exact ⟨ts, .assignName hn htoken hs.expression, hr, hstop⟩
    · rename_i object name
      cases h₂
      obtain ⟨tv, ts, hs, hr, -, hstop⟩ := ih.expression _ _ _ _ h₁ he
      obtain ⟨os, dot, ho, hd, hn, rfl⟩ := hl.get_inv
      refine ⟨ts, ?_, hr, hstop⟩
      rw [List.append_assoc]
      exact .assignProperty ho hd hn htoken hs.expression
    · cases h₂
      simp [Cursor.report] at he
  | call =>
    have htoken : token.kind = .leftParen := by
      cases ht : token.kind <;> simp [Operator.ofKind?, ht] at hk ⊢
    rw [apply_call] at h
    split at h
    · obtain ⟨closing, hc, rfl, -, hr⟩ := expect_then_ok h
      exact ⟨[closing], .callEmpty hl' htoken hc, hr, Grammar.stopsAt_call _⟩
    · obtain ⟨args, c₁, h₁, h₂⟩ := bind_ok h
      have he₁ := (expect_then_clean .rightParen .argumentsClose _ c₁).errors h₂ he
      obtain ⟨closing, hc, rfl, -, hr'⟩ := expect_then_ok h₂
      obtain ⟨ts, hs, hr, hlen⟩ := ih.arguments _ _ _ _ h₁ he₁
      refine ⟨ts ++ [closing], .call hl' htoken hs (by omega) hc, ?_, Grammar.stopsAt_call _⟩
      rw [hr, hr']
      simp
  | get =>
    have htoken : token.kind = .dot := by
      cases ht : token.kind <;> simp [Operator.ofKind?, ht] at hk ⊢
    rw [apply_get] at h
    obtain ⟨name, hn, rfl, -, hr⟩ := expect_then_ok h
    exact ⟨[name], .property hl' htoken hn, hr, Grammar.stopsAt_call _⟩

theorem arguments_sound (ih : ExprSound fuel) (count : Nat) (c : Cursor) (es : List Expr)
    (c' : Cursor) (h : arguments (fuel + 1) count c = .ok es c') (he : c'.errors = []) :
    ∃ ts, Spells (.arguments es) ts ∧ c.rest.tail = ts ++ c'.rest.tail ∧
      count + es.length ≤ maxArguments := by
  rw [arguments_eq] at h
  obtain ⟨arg, c₁, h₁, h₂⟩ := bind_ok h
  unfold afterArgument at h₂
  simp only at h₂
  split at h₂
  · rename_i hn
    obtain ⟨more, c₂, h₃, h₄⟩ := bind_ok h₂
    cases h₄
    have he₁ := ((exprClean fuel).arguments (count + 1) _).errors h₃ he
    obtain ⟨hlim, hcount⟩ := limit_eq_of_errors he₁
    rw [hlim] at hn h₃ he₁
    obtain ⟨comma, hcomma, hck⟩ := next_of_nextIs hn
    obtain ⟨t, ts, hs, hr, -, -⟩ := ih.expression _ _ _ _ h₁ he₁
    obtain ⟨ts', hs', hr', hlen⟩ := ih.arguments _ _ _ _ h₃ he
    refine ⟨ts ++ comma :: ts', .argument hs.expression hck hs', ?_, ?_⟩
    · have hr : c.rest.tail = ts ++ c₁.rest.tail := hr
      rw [hr, tail_of_next hcomma, hr']
      simp
    · simp only [List.length_cons]
      omega
  · cases h₂
    obtain ⟨hlim, hcount⟩ := limit_eq_of_errors he
    rw [hlim] at he ⊢
    obtain ⟨t, ts, hs, hr, -, -⟩ := ih.expression _ _ _ _ h₁ he
    exact ⟨ts, .lastArgument hs.expression, hr, hcount⟩

theorem exprSound : ∀ fuel, ExprSound fuel
  | 0 =>
    { expression := fun _ _ _ _ h => by simp [expression, exhausted] at h
      operand := fun _ _ _ h => by simp [operand, exhausted] at h
      operators := fun _ _ _ _ _ _ _ h => by simp [operators, exhausted] at h
      unary := fun _ _ _ _ _ _ h => by simp [unary, exhausted] at h
      apply := fun _ _ _ _ _ _ _ _ _ h => by simp [apply, exhausted] at h
      arguments := fun _ _ _ _ h => by simp [arguments, exhausted] at h }
  | fuel + 1 =>
    have ih := exprSound fuel
    ⟨expression_sound ih, operand_sound ih, operators_sound ih, unary_sound ih, apply_sound ih,
      arguments_sound ih⟩

/-- An expression and the token that ends it. -/
theorem expression_then_ok {kind : Kind} {fault : SyntaxFault} {f : Expr → α} {a : α}
    (h : (expression fuel .lowest >>= fun e => expect kind fault >>= fun _ => pure (f e)) c =
      .ok a c') (he : c'.errors = []) :
    ∃ e ts t, Grammar.Expression e ts ∧ t.kind = kind ∧ a = f e ∧
      c.rest = ts ++ t :: c'.rest.tail := by
  obtain ⟨e, c₁, h₁, h₂⟩ := bind_ok h
  have he₁ := (expect_then_clean kind fault _ c₁).errors h₂ he
  obtain ⟨t, hk, rfl, -, hr'⟩ := expect_then_ok h₂
  obtain ⟨tier, ts, hs, hr, -, -⟩ := (exprSound fuel).expression _ _ _ _ h₁ he₁
  exact ⟨e, ts, t, hs.expression, hk, rfl, by rw [hr, hr']⟩

/-! ## Pieces of statements -/

theorem parameters_sound : ∀ (fuel count : Nat) (c : Cursor) (ps : List Token) (c' : Cursor),
    parameters fuel count c = .ok ps c' → c'.errors = [] →
    ∃ ts, Grammar.Names ps ts ∧ c.rest.tail = ts ++ c'.rest.tail ∧
      count + ps.length ≤ maxArguments
  | 0, _, _, _, _, h, _ => by simp [parameters, exhausted] at h
  | fuel + 1, count, c, ps, c', h, he => by
    rw [parameters_eq] at h
    obtain ⟨param, c₁, h₁, h₂⟩ := bind_ok h
    obtain ⟨hk, -, hr₁⟩ := expect_ok h₁
    unfold afterParameter at h₂
    simp only at h₂
    split at h₂
    · rename_i hn
      obtain ⟨more, c₂, h₃, h₄⟩ := bind_ok h₂
      cases h₄
      have he₁ := (parameters_clean fuel (count + 1) _).errors h₃ he
      obtain ⟨hlim, hcount⟩ := limit_eq_of_errors he₁
      rw [hlim] at hn h₃
      obtain ⟨comma, hcomma, hck⟩ := next_of_nextIs hn
      obtain ⟨ts, hs, hr, hlen⟩ := parameters_sound fuel _ _ _ _ h₃ he
      refine ⟨param :: comma :: ts, .more hk hck hs, ?_, ?_⟩
      · rw [hr₁, tail_of_next hcomma, hr]
        rfl
      · simp only [List.length_cons]
        omega
    · cases h₂
      obtain ⟨hlim, hcount⟩ := limit_eq_of_errors he
      rw [hlim]
      exact ⟨[param], .last hk, hr₁, hcount⟩

theorem varDecl_sound {keyword : Token} {s : Stmt} (hk : keyword.kind = .kwVar)
    (h : varDecl fuel keyword c = .ok s c') (he : c'.errors = []) :
    ∃ ts, Grammar.VarDecl s (keyword :: ts) ∧ c.rest.tail = ts ++ c'.rest.tail := by
  rw [varDecl_eq] at h
  obtain ⟨name, c₁, h₁, h₂⟩ := bind_ok h
  obtain ⟨hn, -, hr₁⟩ := expect_ok h₁
  unfold afterVarName at h₂
  split at h₂
  · rename_i hnext
    obtain ⟨eq, heq, hek⟩ := next_of_nextIs hnext
    obtain ⟨e, ts, semicolon, hs, hsk, rfl, hr⟩ := expression_then_ok h₂ he
    refine ⟨name :: eq :: (ts ++ [semicolon]), .init hk hn hek hs hsk, ?_⟩
    have hr : c₁.advance.rest.tail = ts ++ semicolon :: c'.rest.tail := hr
    rw [hr₁, tail_of_next heq, hr]
    simp
  · obtain ⟨semicolon, hsk, rfl, -, hr⟩ := expect_then_ok h₂
    exact ⟨[name, semicolon], .plain hk hn hsk, by rw [hr₁, hr]; rfl⟩

theorem exprStmt_sound {s : Stmt} (h : exprStmt fuel c = .ok s c') (he : c'.errors = []) :
    ∃ ts, Grammar.ExprStmt s ts ∧ c.rest = ts ++ c'.rest.tail := by
  rw [exprStmt_eq] at h
  obtain ⟨e, ts, semicolon, hs, hk, rfl, hr⟩ := expression_then_ok h he
  cases ts with
  | nil => exact absurd rfl hs.ne_nil
  | cons first ts =>
    have hfirst : c.current? = some first := by simp [Cursor.current?, hr]
    refine ⟨first :: (ts ++ [semicolon]), ?_, by rw [hr]; simp⟩
    rw [hfirst]
    exact .mk hs hk

theorem condition_sound {opening closing : SyntaxFault} {e : Expr}
    (h : condition fuel opening closing c = .ok e c') (he : c'.errors = []) :
    ∃ l ts r, l.kind = .leftParen ∧ Grammar.Expression e ts ∧ r.kind = .rightParen ∧
      c.rest.tail = l :: (ts ++ r :: c'.rest.tail) := by
  rw [condition] at h
  obtain ⟨l, c₁, h₁, h₂⟩ := bind_ok h
  obtain ⟨hl, -, hr₁⟩ := expect_ok h₁
  rw [advance_bind] at h₂
  obtain ⟨e', ts, r, hs, hk, rfl, hr⟩ := expression_then_ok h₂ he
  have hr : c₁.rest.tail = ts ++ r :: c'.rest.tail := hr
  exact ⟨l, ts, r, hl, hs, hk, by rw [hr₁, hr]⟩

theorem forInitializer_sound {init : Option Stmt} (h : forInitializer fuel c = .ok init c')
    (he : c'.errors = []) : ∃ ts, Grammar.ForInit init ts ∧ c.rest = ts ++ c'.rest.tail := by
  have hexpr : ∀ {init}, (exprStmt fuel >>= fun s => pure (some s)) c = .ok init c' →
      ∃ ts, Grammar.ForInit init ts ∧ c.rest = ts ++ c'.rest.tail := by
    intro init h
    obtain ⟨s, c₁, h₁, h₂⟩ := bind_ok h
    cases h₂
    obtain ⟨ts, hs, hr⟩ := exprStmt_sound h₁ he
    exact ⟨ts, .expr hs, hr⟩
  rw [forInitializer_eq] at h
  split at h
  · rename_i t ht
    split at h
    · rename_i hk
      cases h
      exact ⟨[t], .absent hk, rest_of_current ht⟩
    · rename_i hk
      obtain ⟨s, c₁, h₁, h₂⟩ := bind_ok h
      cases h₂
      obtain ⟨ts, hs, hr⟩ := varDecl_sound hk h₁ he
      exact ⟨t :: ts, .var hs, by rw [rest_of_current ht, hr]; rfl⟩
    · exact hexpr h
  · exact hexpr h

/-- A clause and the token that ends it. -/
theorem forClause_sound {ending : Kind} {fault : SyntaxFault} {e : Option Expr}
    (h : forClause fuel ending fault c = .ok e c') (he : c'.errors = []) :
    ∃ ts t, Grammar.Optional e ts ∧ t.kind = ending ∧ c.rest = ts ++ t :: c'.rest.tail := by
  rw [forClause_eq] at h
  split at h
  · rename_i hcur
    cases h
    obtain ⟨t, ht, hk⟩ := current_of_currentIs hcur
    exact ⟨[], t, .absent, hk, rest_of_current ht⟩
  · obtain ⟨e', ts, t, hs, hk, rfl, hr⟩ := expression_then_ok h he
    exact ⟨ts, t, .present hs, hk, hr⟩

/-! ## Statements and declarations -/

/-- A declaration that leaves no errors was not given up. -/
theorem recover_ok {p : Parser Stmt} {o : Option Stmt} (hclean : (p c).Clean c)
    (h : recover p c = .ok o c') (he : c'.errors = []) (hp : c.panicking = false) :
    ∃ s, o = some s ∧ p c = .ok s c' := by
  unfold recover at h
  cases hr : p c with
  | ok s c₁ =>
    rw [hr] at h hclean
    simp only at h
    split at h
    · rename_i hpan
      cases h
      have := hclean.2 he hp
      simp [hpan] at this
    · cases h
      exact ⟨s, rfl, rfl⟩
  | failed c₁ =>
    rw [hr] at h hclean
    cases h
    exact absurd he hclean.2
  | exhausted => rw [hr] at h; cases h

/-- What each parser of statements has read when it leaves no errors. -/
structure StmtSound (fuel : Nat) : Prop where
  declaration : ∀ c o c', declaration fuel c = .ok o c' → c'.errors = [] → c.panicking = false →
    ∃ s ts, o = some s ∧ Forms (.decl s) ts ∧ c.rest = ts ++ c'.rest.tail
  statement : ∀ c s c', statement fuel c = .ok s c' → c'.errors = [] → c.panicking = false →
    ∃ short ts, Forms (.stmt short s) ts ∧ c.rest = ts ++ c'.rest.tail ∧
      (short = true → c'.nextIs .kwElse = false)
  block : ∀ c ss c', block fuel c = .ok ss c' → c'.errors = [] → c.panicking = false →
    ∃ ts closing, Forms (.decls ss) ts ∧ closing.kind = .rightBrace ∧
      c.rest.tail = ts ++ closing :: c'.rest.tail ∧ c'.current? = some closing
  declarations : ∀ c ss c', declarations fuel c = .ok ss c' → c'.errors = [] →
    c.panicking = false → ∃ ts, Forms (.decls ss) ts ∧ c.rest = ts ++ c'.rest
  function : ∀ kind name c f c', name.kind = .ident → function fuel kind name c = .ok f c' →
    c'.errors = [] → c.panicking = false →
    ∃ ts, Forms (.function f) (name :: ts) ∧ c.rest.tail = ts ++ c'.rest.tail
  classDecl : ∀ keyword c s c', keyword.kind = .kwClass → classDecl fuel keyword c = .ok s c' →
    c'.errors = [] → c.panicking = false →
    ∃ ts, Forms (.decl s) (keyword :: ts) ∧ c.rest.tail = ts ++ c'.rest.tail
  methods : ∀ c fs c', methods fuel c = .ok fs c' → c'.errors = [] → c.panicking = false →
    ∃ ts, Forms (.methods fs) ts ∧ c.rest = ts ++ c'.rest

theorem declaration_sound (ih : StmtSound fuel) (c : Cursor) (o : Option Stmt) (c' : Cursor)
    (h : declaration (fuel + 1) c = .ok o c') (he : c'.errors = []) (hp : c.panicking = false) :
    ∃ s ts, o = some s ∧ Forms (.decl s) ts ∧ c.rest = ts ++ c'.rest.tail := by
  rw [declaration_eq] at h
  obtain ⟨s, rfl, hs⟩ := recover_ok (declared_clean (stmtClean fuel) c) h he hp
  have hstmt : statement fuel c = .ok s c' →
      ∃ ts, Forms (.decl s) ts ∧ c.rest = ts ++ c'.rest.tail := by
    intro h
    obtain ⟨short, ts, hf, hr, -⟩ := ih.statement _ _ _ h he hp
    exact ⟨ts, .stmtDecl hf, hr⟩
  suffices ∃ ts, Forms (.decl s) ts ∧ c.rest = ts ++ c'.rest.tail by
    obtain ⟨ts, hf, hr⟩ := this
    exact ⟨s, ts, rfl, hf, hr⟩
  unfold declared at hs
  split at hs
  · rename_i t ht
    have hrest := rest_of_current ht
    split at hs
    · rename_i hk
      obtain ⟨ts, hf, hr⟩ := ih.classDecl t c s c' hk hs he hp
      exact ⟨t :: ts, hf, by rw [hrest, hr]; rfl⟩
    · rename_i hk
      obtain ⟨name, c₁, h₁, h₂⟩ := bind_ok hs
      obtain ⟨hn, rfl, hr₁⟩ := expect_ok h₁
      obtain ⟨f, c₂, h₃, h₄⟩ := bind_ok h₂
      cases h₄
      obtain ⟨ts, hf, hr⟩ := ih.function _ _ _ _ _ hn h₃ he hp
      exact ⟨t :: name :: ts, .funDecl hk hf, by rw [hrest, hr₁, hr]; rfl⟩
    · rename_i hk
      obtain ⟨ts, hv, hr⟩ := varDecl_sound hk hs he
      exact ⟨t :: ts, .varDecl hv, by rw [hrest, hr]; rfl⟩
    · exact hstmt hs
  · exact hstmt hs

/-- The branches of an `if`: an `else` goes to the branch before it only if that cannot end in
an `if` of its own that still lacks one. -/
theorem ifStmt_sound (ih : StmtSound fuel) {t l r : Token} {cond : Expr} {cs : List Token}
    {s : Stmt} {c₁ : Cursor} (hk : t.kind = .kwIf) (hl : l.kind = .leftParen)
    (hcond : Grammar.Expression cond cs) (hr : r.kind = .rightParen)
    (h : (statement fuel >>= afterYes fuel t cond) c₁.advance = .ok s c') (he : c'.errors = [])
    (hp : c₁.panicking = false) :
    ∃ short ts, Forms (.stmt short s) (t :: l :: (cs ++ r :: ts)) ∧
      c₁.rest.tail = ts ++ c'.rest.tail ∧ (short = true → c'.nextIs .kwElse = false) := by
  obtain ⟨yes, c₂, h₁, h₂⟩ := bind_ok h
  unfold afterYes at h₂
  split at h₂
  · rename_i hn
    obtain ⟨other, hother, hok⟩ := next_of_nextIs hn
    obtain ⟨no, c₃, h₃, h₄⟩ := bind_ok h₂
    cases h₄
    have he₂ := ((stmtClean fuel).statement c₂.advance.advance).errors h₃ he
    have hp₂ := ((stmtClean fuel).statement c₁.advance).panicking h₁ he₂ hp
    obtain ⟨short, ys, hy, hry, hshort⟩ := ih.statement _ _ _ h₁ he₂ hp
    obtain ⟨short', ns, hno, hrn, hshort'⟩ := ih.statement _ _ _ h₃ he hp₂
    have hfalse : short = false := by
      cases short with
      | false => rfl
      | true => rw [hshort rfl] at hn; cases hn
    subst hfalse
    refine ⟨short', ys ++ other :: ns, .ifElse hk hl hcond hr hy hok hno, ?_, hshort'⟩
    have hry : c₁.rest.tail = ys ++ c₂.rest.tail := hry
    have hrn : c₂.advance.rest.tail = ns ++ c'.rest.tail := hrn
    rw [hry, tail_of_next hother, hrn]
    simp
  · rename_i hn
    cases h₂
    obtain ⟨short, ys, hy, hry, -⟩ := ih.statement _ _ _ h₁ he hp
    exact ⟨true, ys, .ifShort hk hl hcond hr hy, hry, fun _ => by simpa using hn⟩

theorem forStmt_sound (ih : StmtSound fuel) {t : Token} {s : Stmt} (hk : t.kind = .kwFor)
    (h : (do
      let _ ← expect .leftParen .forOpen
      advance
      let init ← forInitializer fuel
      advance
      let cond ← forClause fuel .semicolon .loopConditionEnd
      advance
      let increment ← forClause fuel .rightParen .forClose
      advance
      let body ← statement fuel
      pure (.forLoop t init cond increment body) : Parser Stmt) c = .ok s c')
    (he : c'.errors = []) (hp : c.panicking = false) :
    ∃ short ts, Forms (.stmt short s) (t :: ts) ∧ c.rest.tail = ts ++ c'.rest.tail ∧
      (short = true → c'.nextIs .kwElse = false) := by
  obtain ⟨l, c₁, h₁, h⟩ := bind_ok h
  obtain ⟨hl, -, hr₁⟩ := expect_ok h₁
  rw [advance_bind] at h
  obtain ⟨init, c₂, h₂, h⟩ := bind_ok h
  rw [advance_bind] at h
  obtain ⟨cond, c₃, h₃, h⟩ := bind_ok h
  rw [advance_bind] at h
  obtain ⟨step, c₄, h₄, h⟩ := bind_ok h
  rw [advance_bind] at h
  obtain ⟨body, c₅, h₅, h⟩ := bind_ok h
  cases h
  -- no errors at the end, so none at any of the cursors in between
  have he₄ := ((stmtClean fuel).statement c₄.advance).errors h₅ he
  have he₃ := (forClause_clean fuel _ _ c₃.advance).errors h₄ he₄
  have he₂ := (forClause_clean fuel _ _ c₂.advance).errors h₃ he₃
  have he₁ := (forInitializer_clean fuel c₁.advance).errors h₂ he₂
  have hp₁ := (expect_clean _ _ c).panicking h₁ he₁ hp
  have hp₂ := (forInitializer_clean fuel c₁.advance).panicking h₂ he₂ hp₁
  have hp₃ := (forClause_clean fuel _ _ c₂.advance).panicking h₃ he₃ hp₂
  have hp₄ := (forClause_clean fuel _ _ c₃.advance).panicking h₄ he₄ hp₃
  obtain ⟨is, hi, hri⟩ := forInitializer_sound h₂ he₂
  obtain ⟨cs, semicolon, hc, hsk, hrc⟩ := forClause_sound h₃ he₃
  obtain ⟨us, closing, hu, hck, hru⟩ := forClause_sound h₄ he₄
  obtain ⟨short, bs, hb, hrb, hshort⟩ := ih.statement _ _ _ h₅ he hp₄
  refine ⟨short, _, .forLoop hk hl hi hc hsk hu hck hb (Grammar.whileForm_iff.2 rfl), ?_, hshort⟩
  have hri : c₁.rest.tail = is ++ c₂.rest.tail := hri
  have hrc : c₂.rest.tail = cs ++ semicolon :: c₃.rest.tail := hrc
  have hru : c₃.rest.tail = us ++ closing :: c₄.rest.tail := hru
  have hrb : c₄.rest.tail = bs ++ c'.rest.tail := hrb
  rw [hr₁, hri, hrc, hru, hrb]
  simp

theorem statement_sound (ih : StmtSound fuel) (c : Cursor) (s : Stmt) (c' : Cursor)
    (h : statement (fuel + 1) c = .ok s c') (he : c'.errors = []) (hp : c.panicking = false) :
    ∃ short ts, Forms (.stmt short s) ts ∧ c.rest = ts ++ c'.rest.tail ∧
      (short = true → c'.nextIs .kwElse = false) := by
  have hexpr : exprStmt fuel c = .ok s c' → ∃ short ts, Forms (.stmt short s) ts ∧
      c.rest = ts ++ c'.rest.tail ∧ (short = true → c'.nextIs .kwElse = false) := by
    intro h
    obtain ⟨ts, hs, hr⟩ := exprStmt_sound h he
    exact ⟨false, ts, .expr hs, hr, fun h => by cases h⟩
  rw [statement_eq] at h
  split at h
  · exact hexpr h
  · rename_i t ht
    have hrest := rest_of_current ht
    split at h
    · rename_i hk
      obtain ⟨short, ts, hf, hr, hshort⟩ := forStmt_sound ih hk h he hp
      exact ⟨short, t :: ts, hf, by rw [hrest, hr]; rfl, hshort⟩
    · rename_i hk
      obtain ⟨cond, c₁, h₁, h₂⟩ := bind_ok h
      rw [advance_bind] at h₂
      have he₁ := (branches_clean (stmtClean fuel) t cond c₁.advance).errors h₂ he
      have hp₁ := (condition_clean fuel _ _ c).panicking h₁ he₁ hp
      obtain ⟨l, cs, r, hl, hcond, hr, hrc⟩ := condition_sound h₁ he₁
      obtain ⟨short, ts, hf, hrt, hshort⟩ := ifStmt_sound ih hk hl hcond hr h₂ he hp₁
      exact ⟨short, _, hf, by rw [hrest, hrc, hrt]; simp, hshort⟩
    · rename_i hk
      rw [printStmt_eq] at h
      obtain ⟨e, ts, semicolon, hs, hsk, rfl, hr⟩ := expression_then_ok h he
      have hr : c.rest.tail = ts ++ semicolon :: c'.rest.tail := hr
      exact ⟨false, _, .print hk hs hsk, by rw [hrest, hr]; simp, fun h => by cases h⟩
    · rename_i hk
      rw [returnStmt_eq] at h
      split at h
      · obtain ⟨semicolon, hsk, rfl, -, hr⟩ := expect_then_ok h
        exact ⟨false, _, .ret hk .absent hsk, by rw [hrest, hr]; rfl, fun h => by cases h⟩
      · obtain ⟨e, ts, semicolon, hs, hsk, rfl, hr⟩ := expression_then_ok h he
        have hr : c.rest.tail = ts ++ semicolon :: c'.rest.tail := hr
        exact ⟨false, _, .ret hk (.present hs) hsk, by rw [hrest, hr]; simp, fun h => by cases h⟩
    · rename_i hk
      obtain ⟨cond, c₁, h₁, h₂⟩ := bind_ok h
      rw [advance_bind] at h₂
      obtain ⟨body, c₂, h₃, h₄⟩ := bind_ok h₂
      cases h₄
      have he₁ := ((stmtClean fuel).statement c₁.advance).errors h₃ he
      have hp₁ := (condition_clean fuel _ _ c).panicking h₁ he₁ hp
      obtain ⟨l, cs, r, hl, hcond, hr, hrc⟩ := condition_sound h₁ he₁
      obtain ⟨short, bs, hb, hrb, hshort⟩ := ih.statement _ _ _ h₃ he hp₁
      have hrb : c₁.rest.tail = bs ++ c'.rest.tail := hrb
      exact ⟨short, _, .loop hk hl hcond hr hb, by rw [hrest, hrc, hrb]; simp, hshort⟩
    · rename_i hk
      obtain ⟨body, c₁, h₁, h₂⟩ := bind_ok h
      cases h₂
      obtain ⟨ts, closing, hf, hck, hr, hcur⟩ := ih.block _ _ _ h₁ he hp
      rw [hcur]
      exact ⟨false, _, .block hk hf hck, by rw [hrest, hr]; simp, fun h => by cases h⟩
    · exact hexpr h

theorem block_sound (ih : StmtSound fuel) (c : Cursor) (ss : List Stmt) (c' : Cursor)
    (h : block (fuel + 1) c = .ok ss c') (he : c'.errors = []) (hp : c.panicking = false) :
    ∃ ts closing, Forms (.decls ss) ts ∧ closing.kind = .rightBrace ∧
      c.rest.tail = ts ++ closing :: c'.rest.tail ∧ c'.current? = some closing := by
  rw [block_eq] at h
  obtain ⟨body, c₁, h₁, h₂⟩ := bind_ok h
  unfold closeBlock at h₂
  split at h₂
  · rename_i hcur
    cases h₂
    obtain ⟨closing, hclosing, hck⟩ := current_of_currentIs hcur
    obtain ⟨ts, hf, hr⟩ := ih.declarations _ _ _ h₁ he hp
    refine ⟨ts, closing, hf, hck, ?_, hclosing⟩
    rw [← rest_of_current hclosing]
    exact hr
  · cases h₂
    simp [Cursor.panic, Cursor.report] at he

theorem declarations_sound (ih : StmtSound fuel) (c : Cursor) (ss : List Stmt) (c' : Cursor)
    (h : declarations (fuel + 1) c = .ok ss c') (he : c'.errors = []) (hp : c.panicking = false) :
    ∃ ts, Forms (.decls ss) ts ∧ c.rest = ts ++ c'.rest := by
  rw [declarations_eq] at h
  split at h
  · cases h
    exact ⟨[], .noDecls, rfl⟩
  · split at h
    · cases h
      exact ⟨[], .noDecls, rfl⟩
    · obtain ⟨o, c₁, h₁, h₂⟩ := bind_ok h
      rw [advance_bind] at h₂
      obtain ⟨more, c₂, h₃, h₄⟩ := bind_ok h₂
      cases h₄
      have he₁ := ((stmtClean fuel).declarations c₁.advance).errors h₃ he
      have hp₁ := ((stmtClean fuel).declaration c).panicking h₁ he₁ hp
      obtain ⟨s, ts, rfl, hf, hr⟩ := ih.declaration _ _ _ h₁ he₁ hp
      obtain ⟨ts', hf', hr'⟩ := ih.declarations _ _ _ h₃ he hp₁
      have hr' : c₁.rest.tail = ts' ++ c'.rest := hr'
      exact ⟨ts ++ ts', .decls hf hf', by rw [hr, hr', List.append_assoc]⟩

theorem functionBody_sound (ih : StmtSound fuel) {kind : Callee} {name : Token}
    {params : List Token} {f : FunDecl} (h : functionBody fuel kind name params c = .ok f c')
    (he : c'.errors = []) (hp : c.panicking = false) :
    ∃ body ts closing bodyOpening bodyClosing, f = .mk name params body ∧
      closing.kind = .rightParen ∧ bodyOpening.kind = .leftBrace ∧ Forms (.decls body) ts ∧
      bodyClosing.kind = .rightBrace ∧
      c.rest.tail = closing :: bodyOpening :: (ts ++ bodyClosing :: c'.rest.tail) := by
  unfold functionBody at h
  obtain ⟨closing, c₁, h₁, h⟩ := bind_ok h
  obtain ⟨hck, rfl, hr₁⟩ := expect_ok h₁
  obtain ⟨bodyOpening, c₂, h₂, h⟩ := bind_ok h
  obtain ⟨hok, rfl, hr₂⟩ := expect_ok h₂
  obtain ⟨body, c₃, h₃, h⟩ := bind_ok h
  cases h
  obtain ⟨ts, bodyClosing, hf, hbk, hr, -⟩ := ih.block _ _ _ h₃ he hp
  exact ⟨body, ts, closing, bodyOpening, bodyClosing, rfl, hck, hok, hf, hbk,
    by rw [hr₁, hr₂, hr]⟩

theorem function_sound (ih : StmtSound fuel) (kind : Callee) (name : Token) (c : Cursor)
    (f : FunDecl) (c' : Cursor) (hn : name.kind = .ident)
    (h : function (fuel + 1) kind name c = .ok f c') (he : c'.errors = [])
    (hp : c.panicking = false) :
    ∃ ts, Forms (.function f) (name :: ts) ∧ c.rest.tail = ts ++ c'.rest.tail := by
  rw [function_eq] at h
  obtain ⟨opening, c₁, h₁, h₂⟩ := bind_ok h
  obtain ⟨hok, rfl, hr₁⟩ := expect_ok h₁
  unfold functionRest at h₂
  split at h₂
  · obtain ⟨body, ts, closing, bo, bc, rfl, hck, hbo, hf, hbc, hr⟩ := functionBody_sound ih h₂ he hp
    exact ⟨_, .function hn hok .absent hck hbo hf hbc, by rw [hr₁, hr]; simp⟩
  · obtain ⟨params, c₂, h₃, h₄⟩ := bind_ok h₂
    have he₂ := (functionBody_clean (stmtClean fuel) kind name params c₂).errors h₄ he
    have hp₂ := (parameters_clean fuel 0 c.advance).panicking h₃ he₂ hp
    obtain ⟨ps, hps, hrp, hlen⟩ := parameters_sound fuel _ _ _ _ h₃ he₂
    obtain ⟨body, ts, closing, bo, bc, rfl, hck, hbo, hf, hbc, hr⟩ :=
      functionBody_sound ih h₄ he hp₂
    exact ⟨_, .function hn hok (.present hps (by omega)) hck hbo hf hbc,
      by rw [hr₁, hrp, hr]; simp⟩

theorem classBody_sound (ih : StmtSound fuel) {keyword name : Token} {superclass : Option Ref}
    {s : Stmt} (h : classBody fuel keyword name superclass c = .ok s c') (he : c'.errors = [])
    (hp : c.panicking = false) :
    ∃ ms ts opening closing, s = .classDecl keyword name superclass ms ∧
      opening.kind = .leftBrace ∧ Forms (.methods ms) ts ∧ closing.kind = .rightBrace ∧
      c.rest.tail = opening :: (ts ++ closing :: c'.rest.tail) := by
  unfold classBody at h
  obtain ⟨opening, c₁, h₁, h⟩ := bind_ok h
  obtain ⟨hok, rfl, hr₁⟩ := expect_ok h₁
  rw [advance_bind] at h
  obtain ⟨ms, c₂, h₂, h₃⟩ := bind_ok h
  unfold closeClass at h₃
  split at h₃
  · rename_i hcur
    cases h₃
    obtain ⟨closing, hclosing, hck⟩ := current_of_currentIs hcur
    obtain ⟨ts, hf, hr⟩ := ih.methods _ _ _ h₂ he hp
    have hr : c.advance.rest.tail = ts ++ c'.rest := hr
    exact ⟨ms, ts, opening, closing, rfl, hok, hf, hck,
      by rw [hr₁, hr, rest_of_current hclosing]; rfl⟩
  · cases h₃

theorem classDecl_sound (ih : StmtSound fuel) (keyword : Token) (c : Cursor) (s : Stmt)
    (c' : Cursor) (hk : keyword.kind = .kwClass) (h : classDecl (fuel + 1) keyword c = .ok s c')
    (he : c'.errors = []) (hp : c.panicking = false) :
    ∃ ts, Forms (.decl s) (keyword :: ts) ∧ c.rest.tail = ts ++ c'.rest.tail := by
  rw [classDecl_eq] at h
  obtain ⟨name, c₁, h₁, h₂⟩ := bind_ok h
  obtain ⟨hn, rfl, hr₁⟩ := expect_ok h₁
  unfold afterClassName at h₂
  split at h₂
  · rename_i hless
    obtain ⟨less, hl, hlk⟩ := next_of_nextIs hless
    obtain ⟨base, c₂, h₃, h₄⟩ := bind_ok h₂
    obtain ⟨hb, rfl, hr₂⟩ := expect_ok h₃
    obtain ⟨ms, ts, opening, closing, rfl, hok, hf, hck, hr⟩ := classBody_sound ih h₄ he hp
    exact ⟨_, .subclassDecl hk hn hlk hb hok hf hck,
      by rw [hr₁, tail_of_next hl, hr₂, hr]; simp⟩
  · obtain ⟨ms, ts, opening, closing, rfl, hok, hf, hck, hr⟩ := classBody_sound ih h₂ he hp
    exact ⟨_, .classDecl hk hn hok hf hck, by rw [hr₁, hr]; simp⟩

theorem methods_sound (ih : StmtSound fuel) (c : Cursor) (fs : List FunDecl) (c' : Cursor)
    (h : methods (fuel + 1) c = .ok fs c') (he : c'.errors = []) (hp : c.panicking = false) :
    ∃ ts, Forms (.methods fs) ts ∧ c.rest = ts ++ c'.rest := by
  rw [methods_eq] at h
  split at h
  · cases h
    exact ⟨[], .noMethods, rfl⟩
  · rename_i t ht
    split at h
    · cases h
      exact ⟨[], .noMethods, rfl⟩
    · rename_i hk
      obtain ⟨m, c₁, h₁, h₂⟩ := bind_ok h
      rw [advance_bind] at h₂
      obtain ⟨more, c₂, h₃, h₄⟩ := bind_ok h₂
      cases h₄
      have he₁ := ((stmtClean fuel).methods c₁.advance).errors h₃ he
      have hp₁ := ((stmtClean fuel).function .method t c).panicking h₁ he₁ hp
      obtain ⟨ts, hf, hr⟩ := ih.function _ _ _ _ _ hk h₁ he₁ hp
      obtain ⟨ts', hf', hr'⟩ := ih.methods _ _ _ h₃ he hp₁
      have hr' : c₁.rest.tail = ts' ++ c'.rest := hr'
      exact ⟨t :: ts ++ ts', .methods hf hf', by rw [rest_of_current ht, hr, hr']; simp⟩
    · cases h

theorem stmtSound : ∀ fuel, StmtSound fuel
  | 0 =>
    { declaration := fun _ _ _ h => by simp [declaration, exhausted] at h
      statement := fun _ _ _ h => by simp [statement, exhausted] at h
      block := fun _ _ _ h => by simp [block, exhausted] at h
      declarations := fun _ _ _ h => by simp [declarations, exhausted] at h
      function := fun _ _ _ _ _ _ h => by simp [function, exhausted] at h
      classDecl := fun _ _ _ _ _ h => by simp [classDecl, exhausted] at h
      methods := fun _ _ _ h => by simp [methods, exhausted] at h }
  | fuel + 1 =>
    have ih := stmtSound fuel
    ⟨declaration_sound ih, statement_sound ih, block_sound ih, declarations_sound ih,
      function_sound ih, classDecl_sound ih, methods_sound ih⟩

/-- A program that leaves no errors has been read to its end. -/
theorem program_sound : ∀ (fuel : Nat) (c : Cursor) (ss : List Stmt) (c' : Cursor),
    program fuel c = .ok ss c' → c'.errors = [] → c.panicking = false →
    Grammar.Program ss c.rest
  | 0, _, _, _, h, _, _ => by simp [program, exhausted] at h
  | fuel + 1, c, ss, c', h, he, hp => by
    rw [program_eq] at h
    split at h
    · rename_i hcur
      cases h
      have : c.rest = [] := by simpa [Cursor.current?] using hcur
      rw [this]
      exact .noDecls
    · obtain ⟨o, c₁, h₁, h₂⟩ := bind_ok h
      rw [advance_bind] at h₂
      obtain ⟨more, c₂, h₃, h₄⟩ := bind_ok h₂
      cases h₄
      have he₁ := (program_clean fuel c₁.advance).errors h₃ he
      have hp₁ := ((stmtClean fuel).declaration c).panicking h₁ he₁ hp
      obtain ⟨s, ts, rfl, hf, hr⟩ := (stmtSound fuel).declaration _ _ _ h₁ he₁ hp
      rw [hr]
      exact .decls hf (program_sound fuel _ _ _ h₃ he hp₁)

end Lox.Parser
