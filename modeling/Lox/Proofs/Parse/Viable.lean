import Lox.Proofs.Parse.Beginnings
import Lox.Proofs.Parse.Stubs
/-!
# Where a program can go on

When the first thing that the parser finds wrong is that the input has ended, the tokens can be
completed to a program by a few names, semicolons and brackets, provided that nothing else is
wrong that the parser would say only later: that a value cannot be assigned to, and that there
are too many arguments or parameters. Those complaints come when what stands behind the equals
sign or the comma has been read, so they are sought out with the stubs of the tokens.

The proof follows the run of the parser. What it has read without complaint has a derivation, by
`Parser.exprSound` and `Parser.stmtSound`, and the phrase in which it ran into the end is completed.
-/

namespace Lox

/-- Errors were met, and the first of them is that the input has ended. -/
def Cursor.Stuck (c : Cursor) : Prop :=
  ∃ e, c.errors.getLast? = some e ∧ Completeness.isUnfinished e = true

/-- The parser came to an end, and nothing was wrong before the end of the input. -/
def Parsed.EndsFirst {α : Type} : Parsed α → Prop
  | .ok _ c => c.EndsFirst
  | .failed c => c.EndsFirst
  | .exhausted => False

/-- The parser ran into the end of the input, and nothing was wrong before. -/
def Parsed.Stuck {α : Type} : Parsed α → Prop
  | .ok _ c => c.Stuck
  | .failed c => c.Stuck
  | .exhausted => False

namespace Cursor

variable {c c' : Cursor}

/-- The first error is still the first one when others have been added. -/
theorem getLast_of_suffix {e : SyntaxError} (hs : c.errors <:+ c'.errors)
    (he : c.errors.getLast? = some e) : c'.errors.getLast? = some e := by
  obtain ⟨new, hnew⟩ := hs
  rw [← hnew, List.getLast?_append, he]
  rfl

theorem EndsFirst.of_suffix (h : c'.EndsFirst) (hs : c.errors <:+ c'.errors) : c.EndsFirst :=
  fun e he => h e (getLast_of_suffix hs he)

theorem Stuck.of_suffix (h : c'.Stuck) (hs : c.errors <:+ c'.errors) (hne : c.errors ≠ []) :
    c.Stuck := by
  obtain ⟨e, he, hu⟩ := h
  refine ⟨c.errors.getLast hne, List.getLast?_eq_some_getLast hne, ?_⟩
  have := getLast_of_suffix hs (List.getLast?_eq_some_getLast hne)
  rw [he] at this
  cases this
  exact hu

theorem not_stuck (h : c.errors = []) : ¬ c.Stuck := by
  rintro ⟨e, he, -⟩
  simp [h] at he

/-- A complaint about a token is not about the end. -/
theorem not_endsFirst_report (h : c.errors = []) (t : Token) (fault : SyntaxFault) :
    ¬ (c.report (.token t) fault).EndsFirst := by
  intro hf
  have := hf ⟨.token t, fault⟩ (by simp [Cursor.report, h])
  cases this

theorem Stuck.endsFirst (h : c.Stuck) : c.EndsFirst := by
  obtain ⟨e, he, hu⟩ := h
  intro e' he'
  cases he.symm.trans he'
  exact hu

end Cursor

theorem Parsed.Stuck.endsFirst {α : Type} {r : Parsed α} (h : r.Stuck) : r.EndsFirst := by
  cases r with
  | ok a c => exact Cursor.Stuck.endsFirst h
  | failed c => exact Cursor.Stuck.endsFirst h
  | exhausted => exact h

namespace Parser

open Grammar (Spells Tier Above StopsAt stubs mem_stubs_append mem_stubs_cons)

variable {α β : Type} {fuel : Nat} {c : Cursor} {t : Token} {ts u x ls r : List Token}

/-! ## Runs that end well -/

section
variable {p : Parser α} {f : α → Parser β} {a : α}

theorem endsFirst_bind (hf : ∀ a c', (f a c').Clean c') (h : ((p >>= f) c).EndsFirst) :
    (p c).EndsFirst := by
  rw [bind_apply] at h
  cases hp : p c with
  | ok a c' =>
    rw [hp] at h
    have hclean := hf a c'
    simp only at h
    cases hr : f a c' with
    | ok b c'' => rw [hr] at h hclean; exact h.of_suffix hclean.1
    | failed c'' => rw [hr] at h hclean; exact h.of_suffix hclean.1
    | exhausted => rw [hr] at h; exact h.elim
  | failed c' => rw [hp] at h; exact h
  | exhausted => rw [hp] at h; exact h

theorem endsFirst_after {P : Cursor → Prop} (hp : p c = .exhausted ∨ ∃ c', p c = .ok a c' ∧ P c')
    (h : ((p >>= f) c).EndsFirst) : ∃ c', P c' ∧ (f a c').EndsFirst := by
  rcases hp with hp | ⟨c', hp, hc'⟩
  · rw [bind_apply, hp] at h
    exact h.elim
  · rw [bind_of_ok hp] at h
    exact ⟨c', hc', h⟩

/-- Either the first part runs into the end, or it reads its phrase and the second part does. -/
theorem stuck_bind (hp : (p c).Clean c) (hf : ∀ a c', (f a c').Clean c')
    (hpan : c.panicking = false) (h : ((p >>= f) c).Stuck) :
    (p c).Stuck ∨ ∃ a c₁, p c = .ok a c₁ ∧ c₁.advance.Before c₁.rest.tail ∧ (f a c₁).Stuck := by
  rw [bind_apply] at h
  cases hr : p c with
  | ok a c₁ =>
    rw [hr] at h hp
    simp only at h
    have hclean := hf a c₁
    by_cases he : c₁.errors = []
    · exact .inr ⟨a, c₁, rfl, ⟨rfl, he, hp.2 he hpan⟩, h⟩
    · left
      cases hs : f a c₁ with
      | ok b c₂ => rw [hs] at h hclean; exact h.of_suffix hclean.1 he
      | failed c₂ => rw [hs] at h hclean; exact h.of_suffix hclean.1 he
      | exhausted => rw [hs] at h; exact h.elim
  | failed c₁ => rw [hr] at h; exact .inl h
  | exhausted => rw [hr] at h; exact .inl h

theorem not_stuck_ok (h : c.errors = []) (a : α) : ¬ (Parsed.ok a c).Stuck := Cursor.not_stuck h

theorem not_stuck_pure (h : c.errors = []) (a : α) : ¬ ((pure a : Parser α) c).Stuck :=
  not_stuck_ok h a

theorem not_stuck_at (h : c.errors = []) (t : Token) (fault : SyntaxFault) :
    ¬ (Parsed.failed (c.panic (.token t) fault) : Parsed α).Stuck := fun hs =>
  Cursor.not_endsFirst_report h t fault hs.endsFirst

end

/-- A token is expected and the input ends, or the token is there. -/
theorem expect_stuck {kind : Kind} {fault : SyntaxFault} {f : Token → Parser α}
    (hc : c.advance.Before u) (h : ((expect kind fault >>= f) c).Stuck) :
    u = [] ∨ ∃ t r, u = t :: r ∧ t.kind = kind ∧ (f t c.advance).Stuck := by
  cases u with
  | nil => exact .inl rfl
  | cons t r =>
    right
    by_cases hk : t.kind = kind
    · rw [bind_of_ok (expect_of_next hc.next hk)] at h
      exact ⟨t, r, rfl, hk, h⟩
    · have hfail : expect kind fault c = .failed (c.panic (.token t) fault) := by
        simp [expect, hc.next, hk]
      rw [bind_apply, hfail] at h
      exact (not_stuck_at (c := c) hc.errors t fault h).elim

/-! ## Completing a phrase -/

/-- A few more tokens make what is asked for. -/
def Completes (P : List Token → Prop) (u : List Token) : Prop :=
  ∃ v : List Filler, P (u ++ v.map Filler.token)

theorem completes_of {P : List Token → Prop} (v : List Filler)
    (h : P (u ++ v.map Filler.token)) : Completes P u := ⟨v, h⟩

/-- A phrase that is completed, with what stands before it and what has to follow it. -/
theorem Completes.within {P Q : List Token → Prop} (h : Completes P u) (ls : List Token)
    (v : List Filler) (hPQ : ∀ ts, P ts → Q (ls ++ (ts ++ v.map Filler.token))) :
    Completes Q (ls ++ u) := by
  obtain ⟨w, hw⟩ := h
  refine ⟨w ++ v, ?_⟩
  have := hPQ _ hw
  simpa using this

/-- A phrase that is completed behind another one and a token. -/
theorem Completes.past {P Q : List Token → Prop} (h : Completes P r) (ls : List Token) (t : Token)
    (v : List Filler) (hPQ : ∀ ts, P ts → Q (ls ++ t :: (ts ++ v.map Filler.token))) :
    Completes Q (ls ++ t :: r) := by
  have := h.within (Q := Q) (ls ++ [t]) v fun ts hts => by simpa using hPQ ts hts
  simpa using this

theorem Completes.imp {P Q : List Token → Prop} (h : Completes P u) (hPQ : ∀ ts, P ts → Q ts) :
    Completes Q u := by
  obtain ⟨w, hw⟩ := h
  exact ⟨w, hPQ _ hw⟩

/-! ## Stubs -/

/-- Started at the tokens, the parser finds nothing wrong before the end. -/
def Fine (p : Nat → Parser α) (x : List Token) : Prop :=
  ∃ fuel c, c.Before x ∧ (p fuel c).EndsFirst

/-- Started on the token before, the parser finds nothing wrong before the end. -/
def FineBehind (p : Nat → Parser α) (x : List Token) : Prop :=
  ∃ fuel c, c.advance.Before x ∧ (p fuel c).EndsFirst

theorem Fine.succ {p : Nat → Parser α} (h : Fine p x)
    (h₀ : ∀ c, p 0 c = .exhausted) :
    ∃ fuel c, c.Before x ∧ (p (fuel + 1) c).EndsFirst := by
  obtain ⟨_ | fuel, c, hc, h⟩ := h
  · rw [h₀] at h
    exact h.elim
  · exact ⟨fuel, c, hc, h⟩

theorem FineBehind.succ {p : Nat → Parser α} (h : FineBehind p x)
    (h₀ : ∀ c, p 0 c = .exhausted) :
    ∃ fuel c, c.advance.Before x ∧ (p (fuel + 1) c).EndsFirst := by
  obtain ⟨_ | fuel, c, hc, h⟩ := h
  · rw [h₀] at h
    exact h.elim
  · exact ⟨fuel, c, hc, h⟩

/-- All stubs of the tokens pass a test. -/
def Hopeful (F : List Token → Prop) (u : List Token) : Prop := ∀ x ∈ stubs u, F x

theorem head_of_stub (h : x ∈ stubs u) : x.head? = u.head? := by
  cases u with
  | nil => cases h
  | cons t u =>
    rcases mem_stubs_cons.1 h with ⟨-, rfl⟩ | ⟨y, -, rfl⟩
    · rfl
    · rfl

theorem nextIs_of_head {c' : Cursor} (hc : c.advance.Before x) (hc' : c'.advance.Before u)
    (h : x.head? = u.head?) (kind : Kind) : c.nextIs kind = c'.nextIs kind := by
  have hnext : c.next? = c'.next? := by
    rw [← hc.rest, ← hc'.rest] at h
    exact h
  rw [Cursor.nextIs, Cursor.nextIs, hnext]

section
variable {F G : List Token → Prop}

theorem Hopeful.imp (h : Hopeful F u) (hFG : ∀ x, x.head? = u.head? → F x → G x) : Hopeful G u :=
  fun x hx => hFG x (head_of_stub hx) (h x hx)

theorem hopeful_nil : Hopeful F [] := fun _ h => by cases h

/-- The stubs of what stands behind a phrase. -/
theorem Hopeful.behind (ls : List Token) (h : Hopeful F (ls ++ r))
    (hFG : ∀ x, x.head? = r.head? → F (ls ++ x) → G x) : Hopeful G r := fun x hx =>
  hFG x (head_of_stub hx) (h _ (mem_stubs_append.2 (.inr ⟨x, hx, rfl⟩)))

theorem Hopeful.past (ls : List Token) (t : Token) (h : Hopeful F (ls ++ t :: r))
    (hFG : ∀ x, x.head? = r.head? → F (ls ++ t :: x) → G x) : Hopeful G r :=
  Hopeful.behind (ls ++ [t]) (by simpa using h) fun x hx hF => hFG x hx (by simpa using hF)

/-- The stub that ends right behind a phrase. -/
theorem Hopeful.at_separator (ls : List Token) (h : Hopeful F (ls ++ t :: r))
    (ht : Grammar.separates t.kind = true) : F (ls ++ [t, Filler.name.token]) :=
  h _ (mem_stubs_append.2 (.inr ⟨_, mem_stubs_cons.2 (.inl ⟨ht, rfl⟩), rfl⟩))

end

/-! ## Expressions -/

/-- What completes the phrase in which a parser of expressions ran into the end. -/
structure ExprFills (fuel : Nat) : Prop where
  expression : ∀ level c u, c.Before u → level.rank ≤ Precedence.unary.rank →
    (expression fuel level c).Stuck → Hopeful (Fine (expression · level)) u →
    Completes (fun ts => ∃ t e, Spells (.tier t e) ts ∧ Above level t) u
  operand : ∀ c u, c.Before u → (operand fuel c).Stuck → Hopeful (Fine operand) u →
    Completes (fun ts => ∃ e, Spells (.tier .unary e) ts) u
  operators : ∀ level left c t ls r, c.advance.Before r → level.rank ≤ Precedence.unary.rank →
    (operators fuel level left c).Stuck → Spells (.tier t left) ls → Above level t →
    StopsAt t.follow r → Hopeful (Fine (Parser.expression · level)) (ls ++ r) →
    Completes (fun ts => ∃ t e, Spells (.tier t e) ts ∧ Above level t) (ls ++ r)
  unary : ∀ op token c u, Grammar.unaryOp? token.kind = some op → c.advance.Before u →
    (unary fuel op token c).Stuck → Hopeful (FineBehind (unary · op token)) u →
    Completes (fun ts => ∃ e, Spells (.tier .unary e) ts) (token :: u)
  apply : ∀ op token left c t ls r, Operator.ofKind? token.kind = some op →
    c.advance.Before r → (apply fuel op token left c).Stuck → Spells (.tier t left) ls →
    op.precedence.rank ≤ t.follow → Hopeful (FineBehind (apply · op token left)) r →
    (op = .assign → FineBehind (apply · op token left) [Filler.name.token]) →
    Completes (fun ts => ∃ e, Spells (.tier (.ofOperator op) e) ts) (ls ++ token :: r)
  arguments : ∀ count c r, c.advance.Before r → count < maxArguments →
    (arguments fuel count c).Stuck → Hopeful (FineBehind (arguments · count)) r →
    Completes (fun ts => ∃ es, Spells (.arguments es) ts ∧ count + es.length ≤ maxArguments) r

theorem fine_operand {level : Precedence} (h : Fine (expression · level) x) : Fine operand x := by
  obtain ⟨fuel, c, hc, h⟩ := h.succ fun _ => rfl
  simp only [expression_eq] at h
  exact ⟨fuel, c, hc, endsFirst_bind ((exprClean fuel).operators level) h⟩

theorem expression_fills (ih : ExprFills fuel) (level : Precedence) (c : Cursor) (u : List Token)
    (hc : c.Before u) (hlevel : level.rank ≤ Precedence.unary.rank)
    (h : (expression (fuel + 1) level c).Stuck) (hope : Hopeful (Fine (expression · level)) u) :
    Completes (fun ts => ∃ t e, Spells (.tier t e) ts ∧ Above level t) u := by
  rw [expression_eq] at h
  rcases stuck_bind ((exprClean fuel).operand c) ((exprClean fuel).operators level)
    hc.panicking h with h | ⟨left, c₁, h₁, hc₁, h⟩
  · refine (ih.operand c u hc h (hope.imp fun _ _ => fine_operand)).imp ?_
    rintro ts ⟨e, he⟩
    exact ⟨_, e, he, .inr (by decide)⟩
  · obtain ⟨t, ls, hl, hr, ht, hs⟩ := (exprSound fuel).operand c left c₁ h₁ hc₁.errors
    rw [hc.rest] at hr
    subst hr
    exact ih.operators level left c₁ t ls _ hc₁ hlevel h hl (.inr ht) hs hope

/-- An expression and the token that has to end it. -/
theorem expression_then_fills (ih : ExprFills fuel) {fault : SyntaxFault} {f : Expr → α}
    (k : Filler) (hc : c.Before u)
    (h : ((expression fuel .lowest >>= fun e => expect k.kind fault >>= fun _ =>
      pure (f e)) c).Stuck)
    (hope : Hopeful (Fine (expression · .lowest)) u) :
    Completes (fun ts => ∃ e ts' t, Grammar.Expression e ts' ∧ t.kind = k.kind ∧
      ts = ts' ++ [t]) u := by
  rcases stuck_bind ((exprClean fuel).expression _ c) (fun _ => expect_then_clean _ _ _)
    hc.panicking h with h | ⟨e, c₁, h₁, hc₁, h⟩
  · refine (ih.expression _ c u hc (by decide) h hope).within [] [k] ?_
    rintro ts ⟨t, e, he, -⟩
    exact ⟨e, ts, k.token, he.expression, rfl, rfl⟩
  · obtain ⟨t, ts, hs, hr, -, -⟩ := (exprSound fuel).expression _ c e c₁ h₁ hc₁.errors
    rw [hc.rest] at hr
    rcases expect_stuck hc₁ h with hnil | ⟨t, r, -, -, h⟩
    · rw [hnil, List.append_nil] at hr
      exact completes_of [k] ⟨e, ts, k.token, hs.expression, rfl, by rw [hr]; rfl⟩
    · exact (not_stuck_ok hc₁.errors _ h).elim

theorem stuck_pure {p : Parser α} {g : α → β} (h : ((p >>= fun a => pure (g a)) c).Stuck) :
    (p c).Stuck := by
  rw [bind_apply] at h
  cases hp : p c <;> rw [hp] at h <;> exact h

theorem not_stuck_failHere (hc : c.Before (t :: ts)) (fault : SyntaxFault) :
    ¬ (failHere fault c : Parsed α).Stuck := by
  rw [failHere, hc.current]
  exact not_stuck_at hc.errors t fault

theorem fine_unary {op : UnaryOp} (hop : Grammar.unaryOp? t.kind = some op)
    (h : Fine operand (t :: x)) : FineBehind (unary · op t) x := by
  obtain ⟨fuel, c, hc, h⟩ := h.succ fun _ => rfl
  rw [operand_eq, hc.current] at h
  unfold Grammar.unaryOp? at hop
  split at hop <;> cases hop <;> rename_i hk <;> simp only [hk] at h <;>
    exact ⟨fuel, c, hc.advance, h⟩

theorem fine_group (hk : t.kind = .leftParen) (h : Fine operand (t :: x)) :
    Fine (expression · .lowest) x := by
  obtain ⟨fuel, c, hc, h⟩ := h.succ fun _ => rfl
  rw [operand_eq, hc.current] at h
  simp only [hk] at h
  exact ⟨fuel, c.advance, hc.advance, endsFirst_bind (c := c.advance)
    (fun _ => expect_then_clean _ _ _) h⟩

theorem super_fills (hk : t.kind = .kwSuper) (hc : c.Before (t :: r))
    (h : ((expect .dot .superDot >>= fun _ => expect .ident .superMethod >>= fun m =>
      pure (Expr.super ⟨t, none⟩ m)) c).Stuck) :
    Completes (fun ts => ∃ e, Spells (.tier .primary e) ts) (t :: r) := by
  rcases expect_stuck hc.advance h with rfl | ⟨dot, r, rfl, hdot, h⟩
  · exact completes_of [.dot, .name] ⟨_, .super hk rfl rfl⟩
  rcases expect_stuck hc.advance.advance h with rfl | ⟨name, r, rfl, -, h⟩
  · exact completes_of [.name] ⟨_, .super hk hdot rfl⟩
  · exact (not_stuck_pure (c := c.advance.advance) hc.errors _ h).elim

theorem operand_fills (ih : ExprFills fuel) (c : Cursor) (u : List Token) (hc : c.Before u)
    (h : (operand (fuel + 1) c).Stuck) (hope : Hopeful (Fine operand) u) :
    Completes (fun ts => ∃ e, Spells (.tier .unary e) ts) u := by
  have loosen : ∀ ts, (∃ e, Spells (.tier .primary e) ts) → ∃ e, Spells (.tier .unary e) ts :=
    fun _ h => h.imp fun _ he => he.of_rank_le (by decide)
  cases u with
  | nil => exact completes_of [.name] (loosen _ ⟨_, .name rfl⟩)
  | cons t r =>
    have unary : ∀ op, Grammar.unaryOp? t.kind = some op → (Parser.unary fuel op t c).Stuck →
        Completes (fun ts => ∃ e, Spells (.tier .unary e) ts) (t :: r) := fun op hop h =>
      ih.unary op t c r hop hc.advance h
        (hope.behind [t] fun _ _ => fine_unary hop)
    rw [operand_eq, hc.current] at h
    simp only at h
    split at h
    case h_7 hk => exact unary .not (by rw [hk]; rfl) h
    case h_8 hk => exact unary .neg (by rw [hk]; rfl) h
    case h_9 hk =>
      refine (expression_then_fills ih .rightParen hc.advance h
        (hope.behind [t] fun _ _ => fine_group hk)).within [t] [] ?_
      rintro _ ⟨e, ts, closing, he, hclosing, rfl⟩
      exact loosen _ ⟨_, by simpa using Spells.group hk he hclosing⟩
    case h_11 hk => exact (super_fills hk hc h).imp loosen
    case h_12 => exact (not_stuck_failHere hc _ h).elim
    all_goals exact (not_stuck_ok hc.errors _ h).elim

theorem unary_fills (ih : ExprFills fuel) (op : UnaryOp) (token : Token) (c : Cursor)
    (u : List Token) (hop : Grammar.unaryOp? token.kind = some op) (hc : c.advance.Before u)
    (h : (unary (fuel + 1) op token c).Stuck)
    (hope : Hopeful (FineBehind (unary · op token)) u) :
    Completes (fun ts => ∃ e, Spells (.tier .unary e) ts) (token :: u) := by
  have hope' : Hopeful (Fine (expression · .unary)) u := by
    refine hope.imp fun x _ hx => ?_
    obtain ⟨fuel, c, hc, h⟩ := hx.succ fun _ => rfl
    simp only [unary_eq] at h
    exact ⟨fuel, c.advance, hc, endsFirst_bind (fun _ _ => clean_same _ _) h⟩
  rw [unary_eq] at h
  refine (ih.expression _ _ u hc (Nat.le_refl _) (stuck_pure h) hope').within [token] [] ?_
  rintro ts ⟨t, e, he, ht⟩
  have hrank : Tier.unary.rank ≤ t.rank := by
    rcases ht with ht | ht
    · exact Nat.le_of_lt ht
    · exact ht
  exact ⟨_, by simpa using Spells.unary hop (he.of_rank_le hrank)⟩

/-- The operators behind an operand are met when the whole expression is read. -/
theorem fine_apply {level : Precedence} {op : Operator} {left : Expr} {tier : Tier}
    (hl : Spells (.tier tier left) ls) (ht : Above level tier)
    (hlevel : level.rank ≤ Precedence.unary.rank) (hop : Operator.ofKind? t.kind = some op)
    (hrank : level.rank < op.precedence.rank) (hstop : op.precedence.rank ≤ tier.follow)
    (h : Fine (expression · level) (ls ++ t :: x)) : FineBehind (apply · op t left) x := by
  obtain ⟨fuel, c, hc, h⟩ := h
  simp only at h
  rcases exprParses hl fuel level c (t :: x) hc ht hlevel (Grammar.stopsAt_cons hop hstop) with
    hr | ⟨fuel', c', hr, hc'⟩
  · rw [hr] at h
    exact h.elim
  · rw [hr] at h
    cases fuel' with
    | zero => exact h.elim
    | succ fuel' =>
      rw [operators_eq, hc'.next] at h
      simp only [hop, hrank, if_true] at h
      exact ⟨fuel', c'.advance, hc'.advance,
        endsFirst_bind (c := c'.advance) ((exprClean fuel').operators level) h⟩

theorem operators_fills (ih : ExprFills fuel) (level : Precedence) (left : Expr) (c : Cursor)
    (t : Tier) (ls r : List Token) (hc : c.advance.Before r)
    (hlevel : level.rank ≤ Precedence.unary.rank) (h : (operators (fuel + 1) level left c).Stuck)
    (hl : Spells (.tier t left) ls) (ht : Above level t) (hs : StopsAt t.follow r)
    (hope : Hopeful (Fine (expression · level)) (ls ++ r)) :
    Completes (fun ts => ∃ t e, Spells (.tier t e) ts ∧ Above level t) (ls ++ r) := by
  have done : ¬ (Parsed.ok left c).Stuck := not_stuck_ok hc.errors left
  cases r with
  | nil =>
    rw [operators_eq, hc.spent.next] at h
    exact (done h).elim
  | cons tok r =>
    rw [operators_eq, hc.next] at h
    simp only at h
    split at h
    · exact (done h).elim
    rename_i op hop
    split at h
    · rename_i hrank
      have hstop := hs tok op rfl hop
      have habove : Above level (.ofOperator op) := by
        left; rw [Tier.rank_ofOperator]; exact hrank
      have fine := fun x => fine_apply (x := x) hl ht hlevel hop hrank hstop
      rcases stuck_bind (c := c.advance) ((exprClean fuel).apply op tok left _)
        ((exprClean fuel).operators level) hc.panicking h with h | ⟨left', c₁, h₁, hc₁, h⟩
      · refine (ih.apply op tok left _ t ls r hop hc.advance h hl hstop ?_ ?_).imp ?_
        · exact hope.past ls tok fun x _ => fine x
        · rintro rfl
          refine fine _ (hope.at_separator _ ?_)
          cases hk : tok.kind <;> simp_all [Operator.ofKind?, Grammar.separates]
        · rintro ts ⟨e, he⟩
          exact ⟨_, e, he, habove⟩
      · obtain ⟨more, hm, hr, hstop'⟩ :=
          (exprSound fuel).apply op tok left _ left' c₁ t ls hop h₁ hc₁.errors hl hstop
        have hrest : r = more ++ c₁.rest.tail := hc.advance.rest ▸ hr
        subst hrest
        have := ih.operators level left' c₁ _ _ _ hc₁ hlevel h hm habove hstop'
          (by simpa using hope)
        simpa using this
    · exact (done h).elim

/-- The right operand of an operator. -/
theorem rightOperand_fills (ih : ExprFills fuel) {op : Operator} {tier : Tier}
    {node : Token → Expr → Expr → Expr} {left : Expr}
    (hop : op.precedence.rank ≤ 8) (hnode : (Tier.ofOperator op).node? t.kind = some node)
    (hu : (Tier.ofOperator op).tighter? = some tier)
    (hl : Spells (.tier (.ofOperator op) left) ls) (hc : c.advance.Before r)
    (h : (expression fuel op.precedence c.advance).Stuck)
    (hope : Hopeful (Fine (expression · op.precedence)) r) :
    Completes (fun ts => ∃ e, Spells (.tier (.ofOperator op) e) ts) (ls ++ t :: r) := by
  have hlevel : op.precedence.rank ≤ Precedence.unary.rank := Nat.le_trans hop (by decide)
  refine (ih.expression _ _ r hc hlevel h hope).past ls t [] ?_
  rintro ts ⟨t', e, he, ht⟩
  have hrank : tier.rank ≤ t'.rank := by
    have hru := Tier.rank_of_tighter hu
    rw [Tier.rank_ofOperator] at hru
    rcases ht with ht | ht
    · omega
    · have : Precedence.unary.rank = 9 := rfl
      omega
  exact ⟨_, by simpa using Spells.operator hnode hu hl (he.of_rank_le hrank)⟩

theorem name_reads (level : Precedence) (hc : c.Before [Filler.name.token]) :
    expression fuel level c = .exhausted ∨
      ∃ c', expression fuel level c = .ok (.var ⟨Filler.name.token, none⟩) c' ∧ c' = c := by
  cases fuel with
  | zero => left; rw [expression]; rfl
  | succ fuel =>
    rw [expression_eq]
    cases fuel with
    | zero => left; rw [bind_apply, operand]; rfl
    | succ fuel =>
      have hname : operand (fuel + 1) c = .ok (.var ⟨Filler.name.token, none⟩) c := by
        rw [operand_eq, hc.current]
        rfl
      rw [bind_of_ok hname, operators_eq, hc.advance.spent.next]
      exact .inr ⟨c, rfl, rfl⟩

/-- Only a variable or a property can be assigned to. -/
theorem target_of_fine {left : Expr}
    (h : FineBehind (apply · .assign t left) [Filler.name.token]) :
    (∃ ref, left = .var ref) ∨ ∃ o name, left = .get o name := by
  obtain ⟨fuel, c, hc, h⟩ := h.succ fun _ => rfl
  simp only [apply_assign] at h
  obtain ⟨_, rfl, h⟩ := endsFirst_after (name_reads .lowest hc) h
  unfold assignment at h
  split at h
  · exact .inl ⟨_, rfl⟩
  · exact .inr ⟨_, _, rfl⟩
  · exact (Cursor.not_endsFirst_report hc.errors t _ h).elim

theorem assign_fills (ih : ExprFills fuel) {left : Expr} {tier : Tier} (hk : t.kind = .assign)
    (hl : Spells (.tier tier left) ls) (hc : c.advance.Before r)
    (h : (apply (fuel + 1) .assign t left c).Stuck)
    (hope : Hopeful (FineBehind (apply · .assign t left)) r)
    (hname : FineBehind (apply · .assign t left) [Filler.name.token]) :
    Completes (fun ts => ∃ e, Grammar.Expression e ts) (ls ++ t :: r) := by
  have hope' : Hopeful (Fine (expression · .lowest)) r := by
    refine hope.imp fun x _ hx => ?_
    obtain ⟨fuel, c, hc, h⟩ := hx.succ fun _ => rfl
    simp only [apply_assign] at h
    exact ⟨fuel, c.advance, hc, endsFirst_bind (assignment_clean t left) h⟩
  have value : ∀ {left : Expr}, (∀ v c, ∃ e, assignment t left v c = .ok e c) →
      (apply (fuel + 1) .assign t left c).Stuck → (expression fuel .lowest c.advance).Stuck := by
    intro left hok h
    rw [apply_assign, bind_apply] at h
    cases hr : expression fuel .lowest c.advance with
    | ok v c' =>
      obtain ⟨e, he⟩ := hok v c'
      rw [hr] at h
      simp only [he] at h
      exact h
    | failed c' => rw [hr] at h; exact h
    | exhausted => rw [hr] at h; exact h
  rcases target_of_fine hname with ⟨ref, rfl⟩ | ⟨o, name, rfl⟩
  · obtain ⟨name, hn, rfl, rfl⟩ := hl.var_inv
    have hv := value (fun v c => ⟨_, rfl⟩) h
    refine (ih.expression _ _ r hc (by decide) hv hope').within [name, t] [] ?_
    rintro ts ⟨t', v, hv, -⟩
    exact ⟨_, by simpa using Spells.assignName hn hk hv.expression⟩
  · obtain ⟨os, dot, ho, hd, hn, rfl⟩ := hl.get_inv
    have hv := value (fun v c => ⟨_, rfl⟩) h
    refine (ih.expression _ _ r hc (by decide) hv hope').past _ t [] ?_
    rintro ts ⟨t', v, hv, -⟩
    exact ⟨_, by simpa using Spells.assignProperty ho hd hn hk hv.expression⟩

theorem call_fills (ih : ExprFills fuel) {left : Expr} (hk : t.kind = .leftParen)
    (hl : Spells (.tier .call left) ls) (hc : c.advance.Before r)
    (h : (apply (fuel + 1) .call t left c).Stuck)
    (hope : Hopeful (FineBehind (apply · .call t left)) r) :
    Completes (fun ts => ∃ e, Spells (.tier .call e) ts) (ls ++ t :: r) := by
  rw [apply_call] at h
  split at h
  · rename_i hclose
    obtain ⟨closing, hnext, hck⟩ := next_of_nextIs hclose
    rw [bind_of_ok (expect_of_next hnext hck)] at h
    exact (not_stuck_pure (c := c.advance) hc.errors _ h).elim
  rename_i hopen
  have hclosing : Filler.rightParen.token.kind = .rightParen := rfl
  have hope' : Hopeful (FineBehind (arguments · 0)) r := by
    refine hope.imp fun x hx h => ?_
    obtain ⟨fuel, c', hc', h⟩ := h.succ fun _ => rfl
    simp only [apply_call, nextIs_of_head hc' hc hx, hopen] at h
    exact ⟨fuel, c', hc', endsFirst_bind (fun _ => expect_then_clean _ _ _) h⟩
  rcases stuck_bind ((exprClean fuel).arguments 0 c) (fun _ => expect_then_clean _ _ _)
    hc.panicking h with h | ⟨args, c₁, h₁, hc₁, h⟩
  · refine (ih.arguments 0 c r hc (by decide) h hope').past ls t [.rightParen] ?_
    rintro ts ⟨es, hes, hlen⟩
    exact ⟨_, by simpa using Spells.call hl hk hes (by omega) hclosing⟩
  · obtain ⟨ts, hs, hr, hlen⟩ := (exprSound fuel).arguments 0 c args c₁ h₁ hc₁.errors
    have hrest : r = ts ++ c₁.rest.tail := hc.rest ▸ hr
    rcases expect_stuck hc₁ h with hnil | ⟨closing, rest, -, -, h⟩
    · rw [hnil, List.append_nil] at hrest
      subst hrest
      exact completes_of [.rightParen] ⟨_, by simpa using Spells.call hl hk hs (by omega) hclosing⟩
    · exact (not_stuck_pure (c := c₁.advance) hc₁.errors _ h).elim

theorem apply_fills (ih : ExprFills fuel) (op : Operator) (token : Token) (left : Expr)
    (c : Cursor) (t : Tier) (ls r : List Token) (hk : Operator.ofKind? token.kind = some op)
    (hc : c.advance.Before r) (h : (apply (fuel + 1) op token left c).Stuck)
    (hl : Spells (.tier t left) ls) (hop : op.precedence.rank ≤ t.follow)
    (hope : Hopeful (FineBehind (apply · op token left)) r)
    (hname : op = .assign → FineBehind (apply · op token left) [Filler.name.token]) :
    Completes (fun ts => ∃ e, Spells (.tier (.ofOperator op) e) ts) (ls ++ token :: r) := by
  have hl' : Spells (.tier (.ofOperator op) left) ls :=
    hl.of_rank_le (by rw [Tier.rank_ofOperator]; exact Nat.le_trans hop (Tier.follow_le_rank t))
  cases op with
  | binary b =>
    obtain ⟨u, hu⟩ := Tier.tighter_ofBinary b
    rw [apply_binary] at h
    refine rightOperand_fills ih (by cases b <;> decide) (Tier.node_of_binary hk) hu hl' hc
      (stuck_pure h) (hope.imp fun x _ hx => ?_)
    obtain ⟨fuel, c, hc, h⟩ := hx.succ fun _ => rfl
    simp only [apply_binary] at h
    exact ⟨fuel, c.advance, hc, endsFirst_bind (fun _ _ => clean_same _ _) h⟩
  | logical l =>
    obtain ⟨u, hu⟩ := Tier.tighter_ofLogical l
    rw [apply_logical] at h
    refine rightOperand_fills ih (by cases l <;> decide) (Tier.node_of_logical hk) hu hl' hc
      (stuck_pure h) (hope.imp fun x _ hx => ?_)
    obtain ⟨fuel, c, hc, h⟩ := hx.succ fun _ => rfl
    simp only [apply_logical] at h
    exact ⟨fuel, c.advance, hc, endsFirst_bind (fun _ _ => clean_same _ _) h⟩
  | assign =>
    have htoken : token.kind = .assign := by
      cases ht : token.kind <;> simp [Operator.ofKind?, ht] at hk ⊢
    exact assign_fills ih htoken hl hc h hope (hname rfl)
  | call =>
    have htoken : token.kind = .leftParen := by
      cases ht : token.kind <;> simp [Operator.ofKind?, ht] at hk ⊢
    exact call_fills ih htoken hl' hc h hope
  | get =>
    have htoken : token.kind = .dot := by
      cases ht : token.kind <;> simp [Operator.ofKind?, ht] at hk ⊢
    have hname : Filler.name.token.kind = .ident := rfl
    rw [apply_get] at h
    rcases expect_stuck hc h with rfl | ⟨name, rest, -, -, h⟩
    · exact completes_of [.name] ⟨_, by
        simpa [Tier.ofOperator] using Spells.property hl' htoken hname⟩
    · exact (not_stuck_pure (c := c.advance) hc.errors _ h).elim

/-- One more argument is read behind a comma. -/
theorem fine_arguments {count : Nat} {e : Expr} {comma : Token} (he : Grammar.Expression e ts)
    (hcomma : comma.kind = .comma) (hcount : count < maxArguments)
    (h : FineBehind (arguments · count) (ts ++ comma :: x)) :
    FineBehind (arguments · (count + 1)) x := by
  obtain ⟨fuel, c, hc, h⟩ := h.succ fun _ => rfl
  simp only [arguments_eq] at h
  obtain ⟨c₁, hc₁, h⟩ :=
    endsFirst_after (expression_delivers (exprParses he) hc (by rw [hcomma]; rfl)) h
  simp only [afterArgument, limit_of_lt hcount] at h
  rw [hc₁.nextIs, hcomma] at h
  exact ⟨fuel, c₁.advance, hc₁.advance, endsFirst_bind (fun _ _ => clean_same _ _) h⟩

theorem count_of_fine {count : Nat}
    (h : FineBehind (arguments · count) [Filler.name.token]) : count < maxArguments := by
  refine Nat.lt_of_not_le fun hle => ?_
  obtain ⟨fuel, c, hc, h⟩ := h.succ fun _ => rfl
  simp only [arguments_eq] at h
  obtain ⟨_, rfl, h⟩ := endsFirst_after (name_reads .lowest hc) h
  have hlimit : limit count (c.advance.siteOf c.advance.current?) .tooManyArguments c.advance =
      c.advance.report (.token Filler.name.token) .tooManyArguments := by
    rw [limit, if_pos hle, hc.current]
    rfl
  rw [afterArgument, hlimit] at h
  have hno : (c.advance.report (.token Filler.name.token) .tooManyArguments).nextIs .comma =
      false := hc.advance.spent.nextIs _
  simp only [hno] at h
  exact Cursor.not_endsFirst_report hc.errors _ _ h

theorem arguments_fills (ih : ExprFills fuel) (count : Nat) (c : Cursor) (r : List Token)
    (hc : c.advance.Before r) (hcount : count < maxArguments)
    (h : (arguments (fuel + 1) count c).Stuck) (hope : Hopeful (FineBehind (arguments · count)) r) :
    Completes (fun ts => ∃ es, Spells (.arguments es) ts ∧ count + es.length ≤ maxArguments) r := by
  have hope' : Hopeful (Fine (expression · .lowest)) r := by
    refine hope.imp fun x _ hx => ?_
    obtain ⟨fuel, c, hc, h⟩ := hx.succ fun _ => rfl
    simp only [arguments_eq] at h
    exact ⟨fuel, c.advance, hc, endsFirst_bind (afterArgument_clean (exprClean fuel) count) h⟩
  rw [arguments_eq] at h
  rcases stuck_bind (c := c.advance) ((exprClean fuel).expression _ _)
    (afterArgument_clean (exprClean fuel) count) hc.panicking h with h | ⟨e, c₁, h₁, hc₁, h⟩
  · refine (ih.expression _ _ r hc (by decide) h hope').imp ?_
    rintro ts ⟨t, e, he, -⟩
    exact ⟨[e], .lastArgument he.expression, hcount⟩
  · obtain ⟨t, ts, hs, hr, -, -⟩ := (exprSound fuel).expression _ _ e c₁ h₁ hc₁.errors
    have hrest : r = ts ++ c₁.rest.tail := hc.rest ▸ hr
    simp only [afterArgument, limit_of_lt hcount] at h
    split at h
    · rename_i hnext
      obtain ⟨comma, hcomma, hck⟩ := next_of_nextIs hnext
      have htail := tail_of_next hcomma
      rw [htail] at hrest hc₁
      subst hrest
      have hfine := fun x => fine_arguments (x := x) hs.expression hck hcount
      have hlt := count_of_fine (hfine _ (hope.at_separator _ (by rw [hck]; rfl)))
      refine (ih.arguments (count + 1) c₁.advance _ hc₁.advance hlt (stuck_pure h)
        (hope.past ts comma fun x _ => hfine x)).past ts comma [] ?_
      rintro ts' ⟨es, hes, hlen⟩
      refine ⟨e :: es, by simpa using Spells.argument hs.expression hck hes, ?_⟩
      simp only [List.length_cons]
      omega
    · exact (not_stuck_ok (c := c₁) hc₁.errors _ h).elim

theorem exprFills : ∀ fuel, ExprFills fuel
  | 0 =>
    { expression := fun _ _ _ _ _ h => h.elim
      operand := fun _ _ _ h => h.elim
      operators := fun _ _ _ _ _ _ _ _ h => h.elim
      unary := fun _ _ _ _ _ _ h => h.elim
      apply := fun _ _ _ _ _ _ _ _ _ h => h.elim
      arguments := fun _ _ _ _ _ h => h.elim }
  | fuel + 1 =>
    have ih := exprFills fuel
    ⟨expression_fills ih, operand_fills ih, operators_fills ih, unary_fills ih, apply_fills ih,
      arguments_fills ih⟩

end Parser

end Lox
