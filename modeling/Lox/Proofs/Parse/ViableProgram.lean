import Lox.Proofs.Parse.Viable
/-!
# Programs that can go on

Statements, declarations and whole programs are completed like expressions. Main theorem:
`Program.viable_iff`. Tokens are the beginning of a program exactly when the parser finds nothing
wrong with them, nor with any of their stubs, before they end.
-/

namespace Lox.Parser

open Grammar (Forms)

variable {α β : Type} {fuel : Nat} {c : Cursor} {t : Token} {ts u x ls r : List Token}

/-! ## Pieces of statements -/

theorem fine_expression {kind : Kind} {fault : SyntaxFault} {f : Expr → α} (hc : c.Before x)
    (h : ((expression fuel .lowest >>= fun e => expect kind fault >>= fun _ =>
      pure (f e)) c).EndsFirst) : Fine (expression · .lowest) x :=
  ⟨fuel, c, hc, endsFirst_bind (fun _ => expect_then_clean _ _ _) h⟩

theorem semicolon_kind : Filler.semicolon.token.kind = .semicolon := rfl

theorem closing_kind : Filler.rightParen.token.kind = .rightParen := rfl

theorem exprStmt_fills (hc : c.Before u) (h : (exprStmt fuel c).Stuck)
    (hope : Hopeful (Fine exprStmt) u) : Completes (fun ts => ∃ s, Grammar.ExprStmt s ts) u := by
  rw [exprStmt_eq] at h
  refine (expression_then_fills (exprFills fuel) .semicolon hc h ?_).imp ?_
  · refine hope.imp fun x _ hfine => ?_
    obtain ⟨fuel, c, hc, h⟩ := hfine
    rw [exprStmt_eq] at h
    exact fine_expression hc h
  · rintro _ ⟨e, ts, semicolon, he, hk, rfl⟩
    exact Grammar.ExprStmt.of_expression he hk

/-- An expression behind a keyword, and the semicolon that has to end it. -/
theorem keyword_fills {fault : SyntaxFault} {f : Expr → α} {Q : List Token → Prop}
    (ls : List Token) (hc : c.Before r)
    (h : ((expression fuel .lowest >>= fun e => expect .semicolon fault >>= fun _ =>
      pure (f e)) c).Stuck) (hope : Hopeful (Fine (expression · .lowest)) r)
    (hQ : ∀ e ts semicolon, Grammar.Expression e ts → semicolon.kind = .semicolon →
      Q (ls ++ (ts ++ [semicolon]))) : Completes Q (ls ++ r) := by
  refine (expression_then_fills (exprFills fuel) .semicolon hc h hope).within ls [] ?_
  rintro _ ⟨e, ts, semicolon, he, hk, rfl⟩
  simpa using hQ e ts semicolon he hk

theorem varDecl_fills (hk : t.kind = .kwVar) (hc : c.advance.Before r)
    (h : (varDecl fuel t c).Stuck) (hope : Hopeful (FineBehind (varDecl · t)) r) :
    Completes (fun ts => ∃ s, Grammar.VarDecl s ts) (t :: r) := by
  rw [varDecl_eq] at h
  rcases expect_stuck hc h with rfl | ⟨name, r, rfl, hn, h⟩
  · exact completes_of [.name, .semicolon] ⟨_, .plain hk rfl rfl⟩
  unfold afterVarName at h
  split at h
  · rename_i hassign
    obtain ⟨eq, heq, hek⟩ := next_of_nextIs hassign
    cases r with
    | nil => cases hc.advance.spent.next.symm.trans heq
    | cons eq' r =>
      cases hc.advance.next.symm.trans heq
      refine keyword_fills [t, name, eq] (c := c.advance.advance.advance)
        hc.advance.advance h ?_ fun e ts semicolon he hs => ⟨_, .init hk hn hek he hs⟩
      refine hope.behind [name, eq] fun x _ hfine => ?_
      obtain ⟨fuel, c, hc, h⟩ := hfine
      simp only [varDecl_eq] at h
      rw [bind_of_ok (expect_of_next hc.next hn), afterVarName, hc.advance.nextIs, hek] at h
      exact fine_expression (c := c.advance.advance.advance) hc.advance.advance h
  · rcases expect_stuck hc.advance h with rfl | ⟨semicolon, r, rfl, -, h⟩
    · exact completes_of [.semicolon] ⟨_, .plain hk hn rfl⟩
    · exact (not_stuck_pure (c := c.advance.advance) hc.errors _ h).elim

theorem condition_fills {opening closing : SyntaxFault} (hc : c.advance.Before r)
    (h : (condition fuel opening closing c).Stuck)
    (hope : Hopeful (FineBehind (condition · opening closing)) r) :
    Completes (fun ts => ∃ l e cs r, l.kind = .leftParen ∧ Grammar.Expression e cs ∧
      r.kind = .rightParen ∧ ts = l :: (cs ++ [r])) r := by
  rw [condition] at h
  rcases expect_stuck hc h with rfl | ⟨l, r, rfl, hl, h⟩
  · exact completes_of [.leftParen, .name, .rightParen]
      ⟨_, _, _, _, rfl, Grammar.name_spells, rfl, rfl⟩
  rw [advance_bind] at h
  refine (expression_then_fills (exprFills fuel) .rightParen hc.advance h ?_).within [l] [] ?_
  · refine hope.behind [l] fun x _ hfine => ?_
    obtain ⟨fuel, c, hc, h⟩ := hfine
    simp only [condition] at h
    rw [bind_of_ok (expect_of_next hc.next hl), advance_bind] at h
    exact fine_expression hc.advance h
  · rintro _ ⟨e, cs, r, he, hr, rfl⟩
    exact ⟨l, e, cs, r, hl, he, hr, by simp⟩

theorem forInitializer_fills (hc : c.Before u) (h : (forInitializer fuel c).Stuck)
    (hope : Hopeful (Fine forInitializer) u) :
    Completes (fun ts => ∃ init, Grammar.ForInit init ts) u := by
  cases u with
  | nil => exact completes_of [.semicolon] ⟨_, .absent rfl⟩
  | cons t r =>
    rw [forInitializer_eq, hc.current] at h
    simp only at h
    split at h
    · exact (not_stuck_ok hc.errors _ h).elim
    · rename_i hk
      refine (varDecl_fills hk hc.advance (stuck_pure h) ?_).imp
        fun _ h => h.elim fun _ hs => ⟨_, .var hs⟩
      refine hope.behind [t] fun x _ hfine => ?_
      obtain ⟨fuel, c, hc, h⟩ := hfine
      rw [forInitializer_eq, hc.current] at h
      simp only [hk] at h
      exact ⟨fuel, c, hc.advance, endsFirst_bind (fun _ _ => clean_same _ _) h⟩
    · refine (exprStmt_fills hc (stuck_pure h) ?_).imp fun _ h => h.elim fun _ hs => ⟨_, .expr hs⟩
      refine hope.imp fun x hx hfine => ?_
      obtain ⟨fuel, c, hc, h⟩ := hfine
      have hcur : c.current? = some t := by rw [Cursor.current?, hc.rest, hx]; rfl
      rw [forInitializer_eq, hcur] at h
      simp only at h
      exact ⟨fuel, c, hc, endsFirst_bind (fun _ _ => clean_same _ _) h⟩

theorem currentIs_of_head {c' : Cursor} (hc : c.Before x) (hc' : c'.Before u)
    (h : x.head? = u.head?) (kind : Kind) : c.currentIs kind = c'.currentIs kind := by
  have hcur : c.current? = c'.current? := by
    rw [Cursor.current?, Cursor.current?, hc.rest, hc'.rest, h]
  rw [Cursor.currentIs, Cursor.currentIs, hcur]

theorem forClause_fills {fault : SyntaxFault} (k : Filler) (hc : c.Before u)
    (h : (forClause fuel k.kind fault c).Stuck)
    (hope : Hopeful (Fine (forClause · k.kind fault)) u) :
    Completes (fun ts => ∃ e ts' t, Grammar.Optional e ts' ∧ t.kind = k.kind ∧
      ts = ts' ++ [t]) u := by
  rw [forClause_eq] at h
  split at h
  · exact (not_stuck_ok hc.errors _ h).elim
  · rename_i hend
    refine (expression_then_fills (exprFills fuel) k hc h ?_).imp ?_
    · refine hope.imp fun x hx hfine => ?_
      obtain ⟨fuel, c', hc', h⟩ := hfine
      simp only [forClause_eq, currentIs_of_head hc' hc hx, hend] at h
      exact fine_expression hc' h
    · rintro _ ⟨e, ts, t, he, hk, rfl⟩
      exact ⟨_, ts, t, .present he, hk, rfl⟩

/-- One more parameter is read behind a comma. -/
theorem fine_parameters {count : Nat} {param comma : Token} (hp : param.kind = .ident)
    (hcomma : comma.kind = .comma) (hcount : count < maxArguments)
    (h : FineBehind (parameters · count) (param :: comma :: x)) :
    FineBehind (parameters · (count + 1)) x := by
  obtain ⟨fuel, c, hc, h⟩ := h.succ fun _ => rfl
  simp only [parameters_eq] at h
  rw [bind_of_ok (expect_of_next hc.next hp)] at h
  simp only [afterParameter, limit_of_lt hcount] at h
  rw [hc.advance.nextIs, hcomma] at h
  exact ⟨fuel, c.advance.advance, hc.advance.advance,
    endsFirst_bind (fun _ _ => clean_same _ _) h⟩

theorem parameterCount_of_fine {count : Nat}
    (h : FineBehind (parameters · count) [Filler.name.token]) : count < maxArguments := by
  refine Nat.lt_of_not_le fun hle => ?_
  obtain ⟨fuel, c, hc, h⟩ := h.succ fun _ => rfl
  simp only [parameters_eq] at h
  have hname : Filler.name.token.kind = .ident := rfl
  rw [bind_of_ok (expect_of_next hc.next hname)] at h
  have hlimit : limit count (.token Filler.name.token) .tooManyParameters c.advance =
      c.advance.report (.token Filler.name.token) .tooManyParameters := by
    rw [limit, if_pos hle]
  rw [afterParameter, hlimit] at h
  have hno : (c.advance.report (.token Filler.name.token) .tooManyParameters).nextIs .comma =
      false := hc.advance.spent.nextIs _
  simp only [hno] at h
  exact Cursor.not_endsFirst_report (c := c.advance) hc.errors _ _ h

theorem parameters_fills : ∀ (fuel count : Nat) (c : Cursor) (r : List Token),
    c.advance.Before r → count < maxArguments → (parameters fuel count c).Stuck →
    Hopeful (FineBehind (parameters · count)) r →
    Completes (fun ts => ∃ ps, Grammar.Names ps ts ∧ count + ps.length ≤ maxArguments) r
  | 0, _, _, _, _, _, h, _ => h.elim
  | fuel + 1, count, c, r, hc, hcount, h, hope => by
    rw [parameters_eq] at h
    rcases expect_stuck hc h with rfl | ⟨param, r, rfl, hp, h⟩
    · exact completes_of [.name] ⟨_, .last rfl, hcount⟩
    simp only [afterParameter, limit_of_lt hcount] at h
    split at h
    · rename_i hnext
      obtain ⟨comma, hcomma, hck⟩ := next_of_nextIs hnext
      cases r with
      | nil => cases hc.advance.spent.next.symm.trans hcomma
      | cons comma' r =>
        cases hc.advance.next.symm.trans hcomma
        have hfine := fun x => fine_parameters (x := x) hp hck hcount
        have hlt := parameterCount_of_fine
          (hfine _ (hope.at_separator [param] (by rw [hck]; rfl)))
        refine (parameters_fills fuel (count + 1) c.advance.advance r hc.advance.advance hlt
          (stuck_pure h) (hope.behind [param, comma] fun x _ => hfine x)).within
          [param, comma] [] ?_
        rintro ts ⟨ps, hps, hlen⟩
        refine ⟨param :: ps, by simpa using Grammar.Names.more hp hck hps, ?_⟩
        simp only [List.length_cons]
        omega
    · exact (not_stuck_ok (c := c.advance) hc.errors _ h).elim

/-! ## Statements and declarations -/

/-- What completes the phrase in which a parser of statements ran into the end. -/
structure StmtFills (fuel : Nat) : Prop where
  declaration : ∀ c u, c.Before u → (declaration fuel c).Stuck → Hopeful (Fine declaration) u →
    Completes (fun ts => ∃ s, Forms (.decl s) ts) u
  statement : ∀ c u, c.Before u → (statement fuel c).Stuck → Hopeful (Fine statement) u →
    Completes (fun ts => ∃ short s, Forms (.stmt short s) ts) u
  block : ∀ c r, c.advance.Before r → (block fuel c).Stuck → Hopeful (FineBehind block) r →
    Completes (fun ts => ∃ ss ts' t, Forms (.decls ss) ts' ∧ t.kind = .rightBrace ∧
      ts = ts' ++ [t]) r
  declarations : ∀ c u, c.Before u → (declarations fuel c).Stuck →
    Hopeful (Fine declarations) u → Completes (fun ts => ∃ ss, Forms (.decls ss) ts) u
  function : ∀ kind name c r, name.kind = .ident → c.advance.Before r →
    (function fuel kind name c).Stuck → Hopeful (FineBehind (function · kind name)) r →
    Completes (fun ts => ∃ f, Forms (.function f) ts) (name :: r)
  classDecl : ∀ keyword c r, keyword.kind = .kwClass → c.advance.Before r →
    (classDecl fuel keyword c).Stuck → Hopeful (FineBehind (classDecl · keyword)) r →
    Completes (fun ts => ∃ s, Forms (.decl s) ts) (keyword :: r)
  methods : ∀ c u, c.Before u → (methods fuel c).Stuck → Hopeful (Fine methods) u →
    Completes (fun ts => ∃ fs, Forms (.methods fs) ts) u

theorem recover_endsFirst {p : Parser Stmt} (h : (recover p c).EndsFirst) : (p c).EndsFirst := by
  unfold recover at h
  cases hp : p c with
  | ok s c' =>
    rw [hp] at h
    simp only at h
    split at h <;> exact h
  | failed c' => rw [hp] at h; exact h
  | exhausted => rw [hp] at h; exact h

theorem recover_stuck {p : Parser Stmt} (h : (recover p c).Stuck) : (p c).Stuck := by
  unfold recover at h
  cases hp : p c with
  | ok s c' =>
    rw [hp] at h
    simp only at h
    split at h <;> exact h
  | failed c' => rw [hp] at h; exact h
  | exhausted => rw [hp] at h; exact h

theorem fine_declared (h : Fine declaration x) : Fine declared x := by
  obtain ⟨fuel, c, hc, h⟩ := h.succ fun _ => rfl
  rw [declaration_eq] at h
  exact ⟨fuel, c, hc, recover_endsFirst h⟩

/-- Nothing starts with `else`. -/
theorem fine_noElse (h : Fine declaration u) : NoElse u := by
  intro t ht hk
  cases u with
  | nil => cases ht
  | cons t' r =>
    cases ht
    obtain ⟨fuel, c, hc, h⟩ := fine_declared h
    rw [declared, hc.current] at h
    simp only [hk] at h
    cases fuel with
    | zero => exact h.elim
    | succ fuel =>
      rw [statement_eq, hc.current] at h
      simp only [hk] at h
      rw [exprStmt_eq] at h
      obtain ⟨fuel, c, hc, h⟩ := (fine_operand (fine_expression hc h)).succ fun _ => rfl
      rw [operand_eq, hc.current] at h
      simp only [hk] at h
      rw [failHere, hc.current] at h
      exact Cursor.not_endsFirst_report hc.errors _ _ h

theorem rightBrace_kind : Filler.rightBrace.token.kind = .rightBrace := rfl

theorem block_fills (ih : StmtFills fuel) (c : Cursor) (r : List Token)
    (hc : c.advance.Before r) (h : (block (fuel + 1) c).Stuck)
    (hope : Hopeful (FineBehind block) r) :
    Completes (fun ts => ∃ ss ts' t, Forms (.decls ss) ts' ∧ t.kind = .rightBrace ∧
      ts = ts' ++ [t]) r := by
  have hope' : Hopeful (Fine declarations) r := by
    refine hope.imp fun x _ hx => ?_
    obtain ⟨fuel, c, hc, h⟩ := hx.succ fun _ => rfl
    rw [block_eq] at h
    exact ⟨fuel, c.advance, hc, endsFirst_bind closeBlock_clean h⟩
  rw [block_eq] at h
  rcases stuck_bind (c := c.advance) ((stmtClean fuel).declarations _) closeBlock_clean
    hc.panicking h with h | ⟨ss, c₁, h₁, hc₁, h⟩
  · refine (ih.declarations _ r hc h hope').within [] [.rightBrace] ?_
    rintro ts ⟨ss, hss⟩
    exact ⟨ss, ts, _, hss, rightBrace_kind, rfl⟩
  · obtain ⟨ts, hf, hr⟩ := (stmtSound fuel).declarations _ ss c₁ h₁ hc₁.errors hc.panicking
    rw [hc.rest] at hr
    unfold closeBlock at h
    split at h
    · exact (not_stuck_ok (c := c₁) hc₁.errors _ h).elim
    · cases hrest : c₁.rest with
      | nil =>
        rw [hrest, List.append_nil] at hr
        subst hr
        exact completes_of [.rightBrace] ⟨ss, _, _, hf, rightBrace_kind, rfl⟩
      | cons t rest =>
        have hcur : c₁.current? = some t := by rw [Cursor.current?, hrest]; rfl
        rw [hcur] at h
        exact (Cursor.not_endsFirst_report (c := c₁) hc₁.errors t _ h.endsFirst).elim

theorem fine_declaration (hk : t.kind ≠ .rightBrace) (hx : x.head? = some t)
    (h : Fine declarations x) : Fine declaration x := by
  obtain ⟨fuel, c, hc, h⟩ := h.succ fun _ => rfl
  have hcur : c.current? = some t := by rw [Cursor.current?, hc.rest, hx]
  rw [declarations_eq, hcur] at h
  simp only [beq_false_of_ne hk, Bool.false_eq_true, if_false] at h
  exact ⟨fuel, c, hc, endsFirst_bind (fun _ => more_clean (stmtClean fuel).declarations) h⟩

theorem declarations_noElse (h : Fine declarations u) : NoElse u := by
  intro t ht hk
  exact fine_noElse (fine_declaration (by simp [hk]) ht h) t ht hk

/-- What follows a declaration is read when all are. -/
theorem fine_declarations {s : Stmt} (hs : Forms (.decl s) ts) (hx : NoElse x)
    (h : Fine declarations (ts ++ x)) : Fine declarations x := by
  obtain ⟨first, more, rfl, -, hk⟩ := decl_starts hs
  obtain ⟨fuel, c, hc, h⟩ := h.succ fun _ => rfl
  rw [declarations_eq, Cursor.Before.current hc] at h
  simp only [beq_false_of_ne hk, Bool.false_eq_true, if_false] at h
  obtain ⟨c₁, hc₁, h⟩ := endsFirst_after (parses hs fuel c x hc hx) h
  rw [advance_bind] at h
  exact ⟨fuel, _, hc₁, endsFirst_bind (fun _ _ => clean_same _ _) h⟩

theorem declarations_fills (ih : StmtFills fuel) (c : Cursor) (u : List Token) (hc : c.Before u)
    (h : (declarations (fuel + 1) c).Stuck) (hope : Hopeful (Fine declarations) u) :
    Completes (fun ts => ∃ ss, Forms (.decls ss) ts) u := by
  cases u with
  | nil =>
    rw [declarations_eq, hc.dry.current] at h
    exact (not_stuck_ok hc.errors _ h).elim
  | cons t r =>
    rw [declarations_eq, hc.current] at h
    simp only at h
    split at h
    · exact (not_stuck_ok hc.errors _ h).elim
    rename_i hk
    have hk : t.kind ≠ .rightBrace := by simpa using hk
    rcases stuck_bind ((stmtClean fuel).declaration c)
      (fun _ => more_clean (stmtClean fuel).declarations) hc.panicking h with
      h | ⟨o, c₁, h₁, hc₁, h⟩
    · refine (ih.declaration c _ hc h (hope.imp fun x hx => fine_declaration hk hx)).imp ?_
      rintro ts ⟨s, hs⟩
      exact ⟨[s], by simpa using Forms.decls hs .noDecls⟩
    · obtain ⟨s, ts, rfl, hf, hr⟩ :=
        (stmtSound fuel).declaration c o c₁ h₁ hc₁.errors hc.panicking
      rw [hc.rest] at hr
      rw [hr] at hope ⊢
      have h : (declarations fuel c₁.advance).Stuck := stuck_pure (c := c₁.advance) h
      have hElse := declarations_noElse ⟨fuel, c₁.advance, hc₁, h.endsFirst⟩
      refine (ih.declarations c₁.advance _ hc₁ h ?_).within ts [] ?_
      · refine hope.behind _ fun x hx => fine_declarations hf fun t ht => ?_
        exact hElse t (hx ▸ ht)
      · rintro rest ⟨ss, hss⟩
        exact ⟨s :: ss, by simpa using Forms.decls hf hss⟩

theorem fine_function (hk : t.kind = .ident) (h : Fine methods (t :: x)) :
    FineBehind (function · .method t) x := by
  obtain ⟨fuel, c, hc, h⟩ := h.succ fun _ => rfl
  rw [methods_eq, hc.current] at h
  simp only [hk] at h
  exact ⟨fuel, c, hc.advance,
    endsFirst_bind (fun _ => more_clean (stmtClean fuel).methods) h⟩

theorem fine_methods {f : FunDecl} (hf : Forms (.function f) ts) (h : Fine methods (ts ++ x)) :
    Fine methods x := by
  obtain ⟨more, rfl, hn⟩ := function_starts hf
  obtain ⟨fuel, c, hc, h⟩ := h.succ fun _ => rfl
  rw [methods_eq, Cursor.Before.current hc] at h
  simp only [hn] at h
  obtain ⟨c₁, hc₁, h⟩ :=
    endsFirst_after (parses hf fuel .method c x (Cursor.Before.advance hc)) h
  rw [advance_bind] at h
  exact ⟨fuel, _, hc₁, endsFirst_bind (fun _ _ => clean_same _ _) h⟩

theorem methods_fills (ih : StmtFills fuel) (c : Cursor) (u : List Token) (hc : c.Before u)
    (h : (methods (fuel + 1) c).Stuck) (hope : Hopeful (Fine methods) u) :
    Completes (fun ts => ∃ fs, Forms (.methods fs) ts) u := by
  cases u with
  | nil =>
    rw [methods_eq, hc.dry.current] at h
    exact (not_stuck_ok hc.errors _ h).elim
  | cons t r =>
    rw [methods_eq, hc.current] at h
    simp only at h
    split at h
    · exact (not_stuck_ok hc.errors _ h).elim
    · rename_i hk
      rcases stuck_bind ((stmtClean fuel).function .method t c)
        (fun _ => more_clean (stmtClean fuel).methods) hc.panicking h with
        h | ⟨f, c₁, h₁, hc₁, h⟩
      · refine (ih.function .method t c r hk hc.advance h
          (hope.behind [t] fun _ _ => fine_function hk)).imp ?_
        rintro ts ⟨f, hf⟩
        exact ⟨[f], by simpa using Forms.methods hf .noMethods⟩
      · obtain ⟨ts, hf, hr⟩ :=
          (stmtSound fuel).function .method t c f c₁ hk h₁ hc₁.errors hc.panicking
        have hrest : t :: r = (t :: ts) ++ c₁.rest.tail := by
          rw [List.cons_append, ← hr]
          exact congrArg _ hc.advance.rest.symm
        rw [hrest] at hope ⊢
        have h : (methods fuel c₁.advance).Stuck := stuck_pure (c := c₁.advance) h
        refine (ih.methods c₁.advance _ hc₁ h (hope.behind _ fun x _ => fine_methods hf)).within
          (t :: ts) [] ?_
        rintro rest ⟨fs, hfs⟩
        exact ⟨f :: fs, by simpa using Forms.methods hf hfs⟩
    · exact (not_stuck_failHere hc _ h).elim

/-- A function from the parenthesis behind its parameters on. -/
def BodyForms (ts : List Token) : Prop :=
  ∃ closing opening ss ts' t, closing.kind = .rightParen ∧ opening.kind = .leftBrace ∧
    Forms (.decls ss) ts' ∧ t.kind = .rightBrace ∧ ts = closing :: opening :: (ts' ++ [t])

theorem bodyForms_fillers :
    BodyForms ([Filler.rightParen, .leftBrace, .rightBrace].map Filler.token) :=
  ⟨_, _, [], [], _, rfl, rfl, .noDecls, rfl, rfl⟩

theorem BodyForms.function {name opening : Token} {params ps : List Token}
    (hn : name.kind = .ident) (ho : opening.kind = .leftParen)
    (hps : Grammar.Parameters params ps) (h : BodyForms ts) :
    ∃ f, Forms (.function f) (name :: opening :: (ps ++ ts)) := by
  obtain ⟨closing, bodyOpening, ss, ts', t, hk, hbo, hss, hbk, rfl⟩ := h
  exact ⟨_, .function hn ho hps hk hbo hss hbk⟩

theorem functionBody_fills (ih : StmtFills fuel) {kind : Callee} {name : Token}
    {params : List Token} (hc : c.advance.Before r)
    (h : (functionBody fuel kind name params c).Stuck)
    (hope : Hopeful (FineBehind (functionBody · kind name params)) r) :
    Completes BodyForms r := by
  unfold functionBody at h
  rcases expect_stuck hc h with rfl | ⟨closing, r, rfl, hk, h⟩
  · exact completes_of [.rightParen, .leftBrace, .rightBrace] bodyForms_fillers
  rcases expect_stuck hc.advance h with rfl | ⟨opening, r, rfl, ho, h⟩
  · exact completes_of [.leftBrace, .rightBrace] ⟨_, _, [], [], _, hk, rfl, .noDecls, rfl, rfl⟩
  refine (ih.block _ r hc.advance.advance (stuck_pure h) ?_).within [closing, opening] [] ?_
  · refine hope.behind [closing, opening] fun x _ hfine => ?_
    obtain ⟨fuel, c, hc, h⟩ := hfine
    simp only [functionBody] at h
    rw [bind_of_ok (expect_of_next hc.next hk),
      bind_of_ok (expect_of_next hc.advance.next ho)] at h
    exact ⟨fuel, _, hc.advance.advance, endsFirst_bind (fun _ _ => clean_same _ _) h⟩
  · rintro _ ⟨ss, ts, t, hss, ht, rfl⟩
    exact ⟨closing, opening, ss, ts, t, hk, ho, hss, ht, by simp⟩

theorem fine_functionRest {kind : Callee} {name opening : Token} (ho : opening.kind = .leftParen)
    (h : FineBehind (function · kind name) (opening :: x)) :
    FineBehind (functionRest · kind name) x := by
  obtain ⟨fuel, c, hc, h⟩ := h.succ fun _ => rfl
  simp only [function_eq] at h
  rw [bind_of_ok (expect_of_next hc.next ho)] at h
  exact ⟨fuel, _, hc.advance, h⟩

/-- A function without parameters. -/
theorem fine_plainBody {kind : Callee} {name : Token} (hk : t.kind = .rightParen)
    (hx : x.head? = some t) (h : FineBehind (functionRest · kind name) x) :
    FineBehind (functionBody · kind name []) x := by
  obtain ⟨fuel, c, hc, h⟩ := h
  have hnext : c.nextIs .rightParen = true := by
    have : c.next? = some t := by rw [← hx, ← hc.rest]; rfl
    simp [Cursor.nextIs, this, hk]
  simp only [functionRest, hnext, if_true] at h
  exact ⟨fuel, c, hc, h⟩

/-- What is not a closing parenthesis is a parameter. -/
theorem fine_firstParameter {kind : Callee} {name : Token} {c' : Cursor}
    (hc' : c'.advance.Before r) (hx : x.head? = r.head?) (hno : c'.nextIs .rightParen = false)
    (h : FineBehind (functionRest · kind name) x) : FineBehind (parameters · 0) x := by
  obtain ⟨fuel, c, hc, h⟩ := h
  simp only [functionRest, nextIs_of_head hc hc' hx, hno] at h
  exact ⟨fuel, c, hc, endsFirst_bind (functionBody_clean (stmtClean fuel) kind name) h⟩

theorem fine_functionBody {kind : Callee} {name : Token} {params : List Token}
    (hps : Grammar.Names params ts) (hlen : params.length ≤ maxArguments)
    (hk : t.kind = .rightParen) (h : FineBehind (functionRest · kind name) (ts ++ t :: x)) :
    FineBehind (functionBody · kind name params) (t :: x) := by
  obtain ⟨fuel, c, hc, h⟩ := h
  have hno : c.nextIs .rightParen = false := by
    cases hps with
    | last hn => rw [hc.nextIs, hn]; rfl
    | more hn _ _ => rw [hc.nextIs, hn]; rfl
  simp only [functionRest, hno] at h
  obtain ⟨c₁, hc₁, h⟩ :=
    endsFirst_after (parameters_delivers hps fuel 0 c hc (by simp [hk]) (by omega)) h
  exact ⟨fuel, c₁, hc₁, h⟩

theorem functionRest_fills (ih : StmtFills fuel) {kind : Callee} {name opening : Token}
    (hn : name.kind = .ident) (ho : opening.kind = .leftParen) (hc : c.advance.Before r)
    (h : (functionRest fuel kind name c).Stuck)
    (hope : Hopeful (FineBehind (functionRest · kind name)) r) :
    Completes (fun ts => ∃ f, Forms (.function f) ts) ([name, opening] ++ r) := by
  unfold functionRest at h
  split at h
  · rename_i hnext
    obtain ⟨closing, hclosing, hk⟩ := next_of_nextIs hnext
    have hhead : r.head? = some closing := by rw [← hc.rest]; exact hclosing
    refine (functionBody_fills ih hc h (hope.imp fun x hx => ?_)).within [name, opening] [] ?_
    · exact fine_plainBody hk (hx.trans hhead)
    · intro ts hts
      simpa using hts.function hn ho .absent
  · rename_i hno
    have hno : c.nextIs .rightParen = false := by simpa using hno
    rcases stuck_bind (parameters_clean fuel 0 c)
      (functionBody_clean (stmtClean fuel) kind name) hc.panicking h with
      h | ⟨params, c₁, h₁, hc₁, h⟩
    · refine (parameters_fills fuel 0 c r hc (by decide) h
        (hope.imp fun x hx => fine_firstParameter hc hx hno)).within [name, opening]
        [.rightParen, .leftBrace, .rightBrace] ?_
      rintro ts ⟨ps, hps, hlen⟩
      have hparams : Grammar.Parameters ps ts := .present hps (by omega)
      have := bodyForms_fillers.function hn ho hparams
      exact this
    · obtain ⟨ts, hps, hr, hlen⟩ := parameters_sound fuel 0 c params c₁ h₁ hc₁.errors
      have hrest : r = ts ++ c₁.rest.tail := hc.rest ▸ hr
      rw [hrest] at hope ⊢
      have hope' : Hopeful (FineBehind (functionBody · kind name params)) c₁.rest.tail := by
        have hbody := h
        unfold functionBody at hbody
        rcases expect_stuck hc₁ hbody with hnil | ⟨closing, rest, htail, hk, -⟩
        · rw [hnil]
          exact hopeful_nil
        · rw [htail] at hope ⊢
          refine hope.behind _ fun x hx hfine => ?_
          cases x with
          | nil => cases hx
          | cons t x =>
            cases hx
            exact fine_functionBody hps (by omega) hk hfine
      refine (functionBody_fills ih hc₁ h hope').within (name :: opening :: ts) [] ?_
      intro body hbody
      have hparams : Grammar.Parameters params ts := .present hps (by omega)
      simpa using hbody.function hn ho hparams

theorem function_fills (ih : StmtFills fuel) (kind : Callee) (name : Token) (c : Cursor)
    (r : List Token) (hn : name.kind = .ident) (hc : c.advance.Before r)
    (h : (function (fuel + 1) kind name c).Stuck)
    (hope : Hopeful (FineBehind (function · kind name)) r) :
    Completes (fun ts => ∃ f, Forms (.function f) ts) (name :: r) := by
  rw [function_eq] at h
  rcases expect_stuck hc h with rfl | ⟨opening, r, rfl, ho, h⟩
  · have hopening : Filler.leftParen.token.kind = .leftParen := rfl
    exact completes_of [.leftParen, .rightParen, .leftBrace, .rightBrace]
      (bodyForms_fillers.function hn hopening .absent)
  · exact functionRest_fills ih hn ho hc.advance h
      (hope.behind [opening] fun _ _ => fine_functionRest ho)

/-- A class from its opening brace on. -/
def ClassForms (ts : List Token) : Prop :=
  ∃ opening ms ts' t, opening.kind = .leftBrace ∧ Forms (.methods ms) ts' ∧
    t.kind = .rightBrace ∧ ts = opening :: (ts' ++ [t])

theorem classForms_fillers : ClassForms ([Filler.leftBrace, .rightBrace].map Filler.token) :=
  ⟨_, [], [], _, rfl, .noMethods, rfl, rfl⟩

theorem classBody_fills (ih : StmtFills fuel) {keyword name : Token} {superclass : Option Ref}
    (hc : c.advance.Before r) (h : (classBody fuel keyword name superclass c).Stuck)
    (hope : Hopeful (FineBehind (classBody · keyword name superclass)) r) :
    Completes ClassForms r := by
  unfold classBody at h
  rcases expect_stuck hc h with rfl | ⟨opening, r, rfl, ho, h⟩
  · exact completes_of [.leftBrace, .rightBrace] classForms_fillers
  have hope' : Hopeful (Fine methods) r := by
    refine hope.behind [opening] fun x _ hfine => ?_
    obtain ⟨fuel, c, hc, h⟩ := hfine
    simp only [classBody] at h
    rw [bind_of_ok (expect_of_next hc.next ho), advance_bind] at h
    exact ⟨fuel, _, hc.advance, endsFirst_bind (closeClass_clean keyword name superclass) h⟩
  rw [advance_bind] at h
  rcases stuck_bind ((stmtClean fuel).methods _) (closeClass_clean keyword name superclass)
    hc.advance.panicking h with h | ⟨ms, c₁, h₁, hc₁, h⟩
  · refine (ih.methods _ r hc.advance h hope').within [opening] [.rightBrace] ?_
    rintro ts ⟨ms, hms⟩
    exact ⟨opening, ms, ts, _, ho, hms, rightBrace_kind, rfl⟩
  · obtain ⟨ts, hf, hr⟩ :=
      (stmtSound fuel).methods _ ms c₁ h₁ hc₁.errors hc.advance.panicking
    rw [hc.advance.rest] at hr
    unfold closeClass at h
    split at h
    · exact (not_stuck_ok (c := c₁) hc₁.errors _ h).elim
    · cases hrest : c₁.rest with
      | nil =>
        rw [hrest, List.append_nil] at hr
        subst hr
        exact completes_of [.rightBrace] ⟨opening, ms, _, _, ho, hf, rightBrace_kind, rfl⟩
      | cons t rest =>
        exact (not_stuck_failHere (c := c₁) ⟨hrest, hc₁.errors, hc₁.panicking⟩ _ h).elim

theorem fine_afterClassName {keyword name : Token} (hn : name.kind = .ident)
    (h : FineBehind (classDecl · keyword) (name :: x)) :
    FineBehind (afterClassName · keyword name) x := by
  obtain ⟨fuel, c, hc, h⟩ := h.succ fun _ => rfl
  simp only [classDecl_eq] at h
  rw [bind_of_ok (expect_of_next hc.next hn)] at h
  exact ⟨fuel, _, hc.advance, h⟩

theorem classDecl_fills (ih : StmtFills fuel) (keyword : Token) (c : Cursor) (r : List Token)
    (hk : keyword.kind = .kwClass) (hc : c.advance.Before r)
    (h : (classDecl (fuel + 1) keyword c).Stuck)
    (hope : Hopeful (FineBehind (classDecl · keyword)) r) :
    Completes (fun ts => ∃ s, Forms (.decl s) ts) (keyword :: r) := by
  rw [classDecl_eq] at h
  rcases expect_stuck hc h with rfl | ⟨name, r, rfl, hn, h⟩
  · exact completes_of [.name, .leftBrace, .rightBrace]
      ⟨_, .classDecl hk rfl rfl .noMethods rightBrace_kind⟩
  have hope' := hope.behind [name] fun x _ => fine_afterClassName (x := x) hn
  unfold afterClassName at h
  split at h
  · rename_i hnext
    obtain ⟨less, hless, hlk⟩ := next_of_nextIs hnext
    cases r with
    | nil => cases hc.advance.spent.next.symm.trans hless
    | cons less' r =>
      cases hc.advance.next.symm.trans hless
      rcases expect_stuck (c := c.advance.advance) hc.advance.advance h with
        rfl | ⟨base, r, rfl, hb, h⟩
      · exact completes_of [.name, .leftBrace, .rightBrace]
          ⟨_, .subclassDecl hk hn hlk rfl rfl .noMethods rightBrace_kind⟩
      refine (classBody_fills ih hc.advance.advance.advance h ?_).within
        [keyword, name, less, base] [] ?_
      · refine hope'.behind [less, base] fun x _ hfine => ?_
        obtain ⟨fuel, c, hc, h⟩ := hfine
        simp only [afterClassName] at h
        rw [hc.nextIs, hlk] at h
        simp only [BEq.rfl, if_true] at h
        rw [bind_of_ok (expect_of_next hc.advance.next hb)] at h
        exact ⟨fuel, _, hc.advance.advance, h⟩
      · rintro _ ⟨opening, ms, ts, t, ho, hms, ht, rfl⟩
        exact ⟨_, by simpa using Forms.subclassDecl hk hn hlk hb ho hms ht⟩
  · rename_i hno
    refine (classBody_fills ih hc.advance h (hope'.imp fun x hx hfine => ?_)).within
      [keyword, name] [] ?_
    · obtain ⟨fuel, c', hc', h⟩ := hfine
      simp only [afterClassName, nextIs_of_head hc' hc.advance hx, hno] at h
      exact ⟨fuel, c', hc', h⟩
    · rintro _ ⟨opening, ms, ts, t, ho, hms, ht, rfl⟩
      exact ⟨_, by simpa using Forms.classDecl hk hn ho hms ht⟩

/-- The tokens form a statement. -/
def StmtForms (ts : List Token) : Prop := ∃ short s, Forms (.stmt short s) ts

theorem stmtForms_fillers : StmtForms ([Filler.name, .semicolon].map Filler.token) := by
  obtain ⟨s, hs⟩ := Grammar.ExprStmt.of_expression Grammar.name_spells semicolon_kind
  exact ⟨false, s, .expr hs⟩

/-! ### Branches and loops -/

theorem fine_branches {l closing : Token} {cond : Expr} {cs : List Token} (hk : t.kind = .kwIf)
    (hl : l.kind = .leftParen) (he : Grammar.Expression cond cs) (hr : closing.kind = .rightParen)
    (h : Fine statement (t :: l :: (cs ++ closing :: x))) :
    Fine (fun fuel => statement fuel >>= afterYes fuel t cond) x := by
  obtain ⟨fuel, c, hc, h⟩ := h.succ fun _ => rfl
  rw [statement_if hc.current hk] at h
  obtain ⟨c₁, hc₁, h⟩ := endsFirst_after (condition_delivers hl he hr hc.advance) h
  exact ⟨fuel, c₁.advance, hc₁, h⟩

theorem fine_yes {cond : Expr}
    (h : Fine (fun fuel => statement fuel >>= afterYes fuel t cond) x) : Fine statement x := by
  obtain ⟨fuel, c, hc, h⟩ := h
  exact ⟨fuel, c, hc, endsFirst_bind (afterYes_clean (stmtClean fuel) t cond) h⟩

theorem fine_no {cond : Expr} {yes : Stmt} {ys : List Token} {other : Token}
    (hyes : Forms (.stmt false yes) ys) (ho : other.kind = .kwElse)
    (h : Fine (fun fuel => statement fuel >>= afterYes fuel t cond) (ys ++ other :: x)) :
    Fine statement x := by
  obtain ⟨fuel, c, hc, h⟩ := h
  obtain ⟨c₁, hc₁, h⟩ := endsFirst_after (parses hyes fuel c _ hc fun h => by cases h) h
  rw [afterYes, hc₁.nextIs, ho] at h
  exact ⟨fuel, c₁.advance.advance, hc₁.advance, endsFirst_bind (fun _ _ => clean_same _ _) h⟩

/-- The branches behind the condition of an `if`. -/
theorem branches_fills (ih : StmtFills fuel) {cond : Expr} (hc : c.Before r)
    (h : ((statement fuel >>= afterYes fuel t cond) c).Stuck)
    (hope : Hopeful (Fine fun fuel => statement fuel >>= afterYes fuel t cond) r) :
    Completes (fun ts => StmtForms ts ∨ ∃ yes no short ys other ns, Forms (.stmt false yes) ys ∧
      other.kind = .kwElse ∧ Forms (.stmt short no) ns ∧ ts = ys ++ other :: ns) r := by
  rcases stuck_bind ((stmtClean fuel).statement c) (afterYes_clean (stmtClean fuel) t cond)
    hc.panicking h with h | ⟨yes, c₁, h₁, hc₁, h⟩
  · exact (ih.statement c r hc h (hope.imp fun _ _ => fine_yes)).imp fun _ => .inl
  · obtain ⟨short, ys, hf, hr, hshort⟩ :=
      (stmtSound fuel).statement c yes c₁ h₁ hc₁.errors hc.panicking
    rw [hc.rest] at hr
    unfold afterYes at h
    split at h
    · rename_i hnext
      obtain ⟨other, hother, ho⟩ := next_of_nextIs hnext
      have htail := tail_of_next hother
      obtain rfl : short = false := by
        cases short with
        | false => rfl
        | true => rw [hshort rfl] at hnext; cases hnext
      rw [htail] at hr hc₁
      rw [hr] at hope ⊢
      have h : (statement fuel c₁.advance.advance).Stuck := stuck_pure h
      refine (ih.statement _ _ hc₁.advance h ?_).past ys other [] ?_
      · exact hope.past ys other fun x _ => fine_no hf ho
      · rintro ns ⟨short, no, hno⟩
        exact .inr ⟨yes, no, short, ys, other, ns, hf, ho, hno, by simp⟩
    · exact (not_stuck_ok (c := c₁) hc₁.errors _ h).elim

theorem if_fills (ih : StmtFills fuel) (hk : t.kind = .kwIf) (hc : c.Before (t :: r))
    (h : (statement (fuel + 1) c).Stuck) (hope : Hopeful (Fine statement) (t :: r)) :
    Completes StmtForms (t :: r) := by
  rw [statement_if hc.current hk] at h
  rcases stuck_bind (condition_clean fuel _ _ c)
    (fun cond c₁ => branches_clean (stmtClean fuel) t cond c₁.advance) hc.panicking h with
    h | ⟨cond, c₁, h₁, hc₁, h⟩
  · refine (condition_fills hc.advance h ?_).within [t] [.name, .semicolon] ?_
    · refine hope.behind [t] fun x _ hx => ?_
      obtain ⟨fuel, c, hc, h⟩ := hx.succ fun _ => rfl
      rw [List.singleton_append] at hc
      rw [statement_if hc.current hk] at h
      exact ⟨fuel, c, hc.advance, endsFirst_bind
        (fun cond c₁ => branches_clean (stmtClean fuel) t cond c₁.advance) h⟩
    · rintro _ ⟨l, e, cs, closing, hl, he, hr, rfl⟩
      obtain ⟨short, yes, hyes⟩ := stmtForms_fillers
      exact ⟨true, _, by simpa using Forms.ifShort hk hl he hr hyes⟩
  · obtain ⟨l, cs, closing, hl, he, hr, hrest⟩ := condition_sound h₁ hc₁.errors
    have hrest : r = l :: (cs ++ closing :: c₁.rest.tail) := hc.advance.rest ▸ hrest
    subst hrest
    refine (branches_fills (c := c₁.advance) ih hc₁ h ?_).past (t :: l :: cs) closing [] ?_
    · exact hope.past (t :: l :: cs) closing fun x _ => fine_branches hk hl he hr
    · rintro _ (⟨short, yes, hyes⟩ | ⟨yes, no, short, ys, other, ns, hyes, ho, hno, rfl⟩)
      · exact ⟨true, _, by simpa using Forms.ifShort hk hl he hr hyes⟩
      · exact ⟨short, _, by simpa using Forms.ifElse hk hl he hr hyes ho hno⟩

theorem while_clean (fuel : Nat) (t : Token) (cond : Expr) (c : Cursor) :
    ((advance >>= fun _ => statement fuel >>= fun body =>
      pure (Stmt.loop t cond body)) c).Clean c :=
  clean_bind (c := c.advance) ((stmtClean fuel).statement _) fun _ _ => clean_same _ _

theorem while_fills (ih : StmtFills fuel) (hk : t.kind = .kwWhile) (hc : c.Before (t :: r))
    (h : (statement (fuel + 1) c).Stuck) (hope : Hopeful (Fine statement) (t :: r)) :
    Completes StmtForms (t :: r) := by
  rw [statement_while hc.current hk] at h
  rcases stuck_bind (condition_clean fuel _ _ c) (while_clean fuel t) hc.panicking h with
    h | ⟨cond, c₁, h₁, hc₁, h⟩
  · refine (condition_fills hc.advance h ?_).within [t] [.name, .semicolon] ?_
    · refine hope.behind [t] fun x _ hx => ?_
      obtain ⟨fuel, c, hc, h⟩ := hx.succ fun _ => rfl
      rw [List.singleton_append] at hc
      rw [statement_while hc.current hk] at h
      exact ⟨fuel, c, hc.advance, endsFirst_bind (while_clean fuel t) h⟩
    · rintro _ ⟨l, e, cs, closing, hl, he, hr, rfl⟩
      obtain ⟨short, body, hbody⟩ := stmtForms_fillers
      exact ⟨short, _, by simpa using Forms.loop hk hl he hr hbody⟩
  · obtain ⟨l, cs, closing, hl, he, hr, hrest⟩ := condition_sound h₁ hc₁.errors
    have hrest : r = l :: (cs ++ closing :: c₁.rest.tail) := hc.advance.rest ▸ hrest
    subst hrest
    have h : (statement fuel c₁.advance).Stuck := stuck_pure (c := c₁.advance) h
    refine (ih.statement _ _ hc₁ h ?_).past (t :: l :: cs) closing [] ?_
    · refine hope.past (t :: l :: cs) closing fun x _ hx => ?_
      obtain ⟨fuel, c, hc, h⟩ := hx.succ fun _ => rfl
      have hc : c.Before (t :: l :: (cs ++ closing :: x)) := hc
      rw [statement_while hc.current hk] at h
      obtain ⟨c₁, hc₁, h⟩ := endsFirst_after (condition_delivers hl he hr hc.advance) h
      exact ⟨fuel, c₁.advance, hc₁, endsFirst_bind (c := c₁.advance)
        (fun _ _ => clean_same _ _) h⟩
    · rintro bs ⟨short, body, hbody⟩
      exact ⟨short, _, by simpa using Forms.loop hk hl he hr hbody⟩

/-- A `for` loop from its third clause on. -/
def StepForms (ts : List Token) : Prop :=
  ∃ step us closing short body bs, Grammar.Optional step us ∧ closing.kind = .rightParen ∧
    Forms (.stmt short body) bs ∧ ts = us ++ closing :: bs

/-- A `for` loop from its second clause on. -/
def CondForms (ts : List Token) : Prop :=
  ∃ cond cs semicolon rest, Grammar.Optional cond cs ∧ semicolon.kind = .semicolon ∧
    StepForms rest ∧ ts = cs ++ semicolon :: rest

/-- A `for` loop from its first clause on. -/
def InitForms (ts : List Token) : Prop :=
  ∃ init is rest, Grammar.ForInit init is ∧ CondForms rest ∧ ts = is ++ rest

theorem stepForms_fillers :
    StepForms ([Filler.rightParen, .name, .semicolon].map Filler.token) := by
  obtain ⟨short, body, hbody⟩ := stmtForms_fillers
  exact ⟨none, [], _, short, body, _, .absent, closing_kind, hbody, rfl⟩

theorem condForms_fillers :
    CondForms ([Filler.semicolon, .rightParen, .name, .semicolon].map Filler.token) :=
  ⟨none, [], _, _, .absent, semicolon_kind, stepForms_fillers, rfl⟩

theorem InitForms.stmt {l : Token} (hk : t.kind = .kwFor) (hl : l.kind = .leftParen)
    (h : InitForms ts) : StmtForms (t :: l :: ts) := by
  obtain ⟨init, is, _, hi, ⟨cond, cs, semicolon, _, hcond, hs, hstep, rfl⟩, rfl⟩ := h
  obtain ⟨step, us, closing, short, body, bs, hstep, hr, hbody, rfl⟩ := hstep
  exact ⟨short, _, Grammar.forms_for hk hl hi hcond hs hstep hr hbody⟩

theorem forStep_fills (ih : StmtFills fuel) {init : Option Stmt} {cond : Option Expr}
    (hc : c.advance.Before r) (h : (forStep fuel t init cond c).Stuck)
    (hope : Hopeful (FineBehind (forStep · t init cond)) r) : Completes StepForms r := by
  rcases stuck_bind (c := c.advance) (forClause_clean fuel _ _ _)
    (forBody_clean (stmtClean fuel) t init cond) hc.panicking h with h | ⟨step, c₁, h₁, hc₁, h⟩
  · refine (forClause_fills .rightParen hc h ?_).within [] [.name, .semicolon] ?_
    · refine hope.imp fun x _ hfine => ?_
      obtain ⟨fuel, c, hc, h⟩ := hfine
      exact ⟨fuel, c.advance, hc,
        endsFirst_bind (c := c.advance) (forBody_clean (stmtClean fuel) t init cond) h⟩
    · rintro _ ⟨step, us, closing, hstep, hr, rfl⟩
      obtain ⟨short, body, hbody⟩ := stmtForms_fillers
      exact ⟨step, us, closing, short, body, _, hstep, hr, hbody, by simp⟩
  · obtain ⟨us, closing, hstep, hr, hrest⟩ := forClause_sound h₁ hc₁.errors
    rw [hc.rest] at hrest
    subst hrest
    have h : (statement fuel c₁.advance).Stuck := stuck_pure (c := c₁.advance) h
    refine (ih.statement _ _ hc₁ h ?_).past us closing [] ?_
    · refine hope.past us closing fun x _ hx => ?_
      obtain ⟨fuel, c, hc, h⟩ := hx
      obtain ⟨c₁, hc₁, h⟩ := endsFirst_after (c := c.advance)
        (forClause_delivers hstep hr rfl rfl hc) h
      exact ⟨fuel, c₁.advance, hc₁, endsFirst_bind (c := c₁.advance)
        (fun _ _ => clean_same _ _) h⟩
    · rintro bs ⟨short, body, hbody⟩
      exact ⟨step, us, closing, short, body, bs, hstep, hr, hbody, by simp⟩

theorem forCond_fills (ih : StmtFills fuel) {init : Option Stmt} (hc : c.advance.Before r)
    (h : (forCond fuel t init c).Stuck) (hope : Hopeful (FineBehind (forCond · t init)) r) :
    Completes CondForms r := by
  rcases stuck_bind (c := c.advance) (forClause_clean fuel _ _ _)
    (forStep_clean (stmtClean fuel) t init) hc.panicking h with h | ⟨cond, c₁, h₁, hc₁, h⟩
  · refine (forClause_fills .semicolon hc h ?_).within [] [.rightParen, .name, .semicolon] ?_
    · refine hope.imp fun x _ hfine => ?_
      obtain ⟨fuel, c, hc, h⟩ := hfine
      exact ⟨fuel, c.advance, hc,
        endsFirst_bind (c := c.advance) (forStep_clean (stmtClean fuel) t init) h⟩
    · rintro _ ⟨cond, cs, semicolon, hcond, hs, rfl⟩
      exact ⟨cond, cs, semicolon, _, hcond, hs, stepForms_fillers, by simp⟩
  · obtain ⟨cs, semicolon, hcond, hs, hrest⟩ := forClause_sound h₁ hc₁.errors
    rw [hc.rest] at hrest
    subst hrest
    refine (forStep_fills ih hc₁ h ?_).past cs semicolon [] ?_
    · refine hope.past cs semicolon fun x _ hx => ?_
      obtain ⟨fuel, c, hc, h⟩ := hx
      obtain ⟨c₁, hc₁, h⟩ := endsFirst_after (c := c.advance)
        (forClause_delivers hcond hs rfl rfl hc) h
      exact ⟨fuel, c₁, hc₁, h⟩
    · rintro rest hrest
      exact ⟨cond, cs, semicolon, rest, hcond, hs, hrest, by simp⟩

theorem forInit_fills (ih : StmtFills fuel) (hc : c.advance.Before r)
    (h : (forInit fuel t c).Stuck) (hope : Hopeful (FineBehind (forInit · t)) r) :
    Completes InitForms r := by
  rcases stuck_bind (c := c.advance) (forInitializer_clean fuel _)
    (forCond_clean (stmtClean fuel) t) hc.panicking h with h | ⟨init, c₁, h₁, hc₁, h⟩
  · refine (forInitializer_fills hc h ?_).within []
      [.semicolon, .rightParen, .name, .semicolon] ?_
    · refine hope.imp fun x _ hfine => ?_
      obtain ⟨fuel, c, hc, h⟩ := hfine
      exact ⟨fuel, c.advance, hc,
        endsFirst_bind (c := c.advance) (forCond_clean (stmtClean fuel) t) h⟩
    · rintro is ⟨init, hi⟩
      exact ⟨init, is, _, hi, condForms_fillers, rfl⟩
  · obtain ⟨is, hi, hrest⟩ := forInitializer_sound h₁ hc₁.errors
    rw [hc.rest] at hrest
    subst hrest
    refine (forCond_fills ih hc₁ h (hope.behind _ fun x _ hx => ?_)).within is [] ?_
    · obtain ⟨fuel, c, hc, h⟩ := hx
      obtain ⟨c₁, hc₁, h⟩ := endsFirst_after (c := c.advance) (forInitializer_delivers hi hc) h
      exact ⟨fuel, c₁, hc₁, h⟩
    · intro rest hrest
      exact ⟨init, is, rest, hi, hrest, by simp⟩

theorem for_fills (ih : StmtFills fuel) (hk : t.kind = .kwFor) (hc : c.Before (t :: r))
    (h : (statement (fuel + 1) c).Stuck) (hope : Hopeful (Fine statement) (t :: r)) :
    Completes StmtForms (t :: r) := by
  rw [statement_for hc.current hk] at h
  rcases expect_stuck hc.advance h with rfl | ⟨l, r, rfl, hl, h⟩
  · refine completes_of [.leftParen, .semicolon, .semicolon, .rightParen, .name, .semicolon] ?_
    have hl : Filler.leftParen.token.kind = .leftParen := rfl
    exact InitForms.stmt hk hl ⟨none, [_], _, .absent semicolon_kind, condForms_fillers, rfl⟩
  · refine (forInit_fills ih hc.advance.advance h ?_).within [t, l] [] ?_
    · refine hope.behind [t, l] fun x _ hx => ?_
      obtain ⟨fuel, c, hc, h⟩ := hx.succ fun _ => rfl
      have hc : c.Before (t :: l :: x) := hc
      rw [statement_for hc.current hk, bind_of_ok (expect_of_next hc.advance.next hl)] at h
      exact ⟨fuel, c.advance, hc.advance.advance, h⟩
    · intro ts hts
      simpa using hts.stmt hk hl

/-! ### All statements -/

theorem print_fills (hk : t.kind = .kwPrint) (hc : c.Before (t :: r))
    (h : (printStmt fuel t c).Stuck) (hope : Hopeful (Fine statement) (t :: r)) :
    Completes StmtForms (t :: r) := by
  rw [printStmt_eq] at h
  refine keyword_fills [t] hc.advance h ?_ fun e ts semicolon he hs =>
    ⟨false, _, .print hk he hs⟩
  refine hope.behind [t] fun x _ hx => ?_
  obtain ⟨fuel, c, hc, h⟩ := hx.succ fun _ => rfl
  have hc : c.Before (t :: x) := hc
  rw [statement_eq, hc.current] at h
  simp only [hk] at h
  rw [printStmt_eq] at h
  exact fine_expression hc.advance h

theorem return_fills (hk : t.kind = .kwReturn) (hc : c.Before (t :: r))
    (h : (returnStmt fuel t c).Stuck) (hope : Hopeful (Fine statement) (t :: r)) :
    Completes StmtForms (t :: r) := by
  rw [returnStmt_eq] at h
  split at h
  · rename_i hnext
    obtain ⟨semicolon, hsemi, hs⟩ := next_of_nextIs hnext
    rw [bind_of_ok (expect_of_next hsemi hs)] at h
    exact (not_stuck_pure (c := c.advance) hc.errors _ h).elim
  · rename_i hno
    refine keyword_fills [t] hc.advance h ?_ fun e ts semicolon he hs =>
      ⟨false, _, .ret hk (.present he) hs⟩
    refine hope.behind [t] fun x hx hfine => ?_
    obtain ⟨fuel, c', hc', h⟩ := hfine.succ fun _ => rfl
    have hc' : c'.Before (t :: x) := hc'
    rw [statement_eq, hc'.current] at h
    simp only [hk] at h
    simp only [returnStmt_eq, nextIs_of_head hc'.advance hc.advance hx, hno] at h
    exact fine_expression hc'.advance h

theorem blockStmt_fills (ih : StmtFills fuel) (hk : t.kind = .leftBrace) (hc : c.Before (t :: r))
    (h : ((block fuel >>= blockStmt t) c).Stuck) (hope : Hopeful (Fine statement) (t :: r)) :
    Completes StmtForms (t :: r) := by
  have hclean : ∀ body c', (blockStmt t body c').Clean c' := fun _ _ => clean_same _ _
  rcases stuck_bind ((stmtClean fuel).block c) hclean hc.panicking h with h | ⟨ss, c₁, -, hc₁, h⟩
  · refine (ih.block c r hc.advance h ?_).within [t] [] ?_
    · refine hope.behind [t] fun x _ hx => ?_
      obtain ⟨fuel, c, hc, h⟩ := hx.succ fun _ => rfl
      have hc : c.Before (t :: x) := hc
      rw [statement_eq, hc.current] at h
      simp only [hk] at h
      exact ⟨fuel, c, hc.advance, endsFirst_bind hclean h⟩
    · rintro _ ⟨ss, ts, closing, hss, hclosing, rfl⟩
      exact ⟨false, _, by simpa using Forms.block hk hss hclosing⟩
  · exact (not_stuck_ok (c := c₁) hc₁.errors _ h).elim

theorem statement_fills (ih : StmtFills fuel) (c : Cursor) (u : List Token) (hc : c.Before u)
    (h : (statement (fuel + 1) c).Stuck) (hope : Hopeful (Fine statement) u) :
    Completes StmtForms u := by
  cases u with
  | nil => exact completes_of [.name, .semicolon] stmtForms_fillers
  | cons t r =>
    have hstuck := h
    rw [statement_eq, hc.current] at h
    simp only at h
    split at h
    · rename_i hk; exact for_fills ih hk hc hstuck hope
    · rename_i hk; exact if_fills ih hk hc hstuck hope
    · rename_i hk; exact print_fills hk hc h hope
    · rename_i hk; exact return_fills hk hc h hope
    · rename_i hk; exact while_fills ih hk hc hstuck hope
    · rename_i hk; exact blockStmt_fills ih hk hc h hope
    · refine (exprStmt_fills hc h (hope.imp fun x hx hfine => ?_)).imp
        fun _ h => h.elim fun s hs => ⟨false, s, .expr hs⟩
      obtain ⟨fuel, c, hc, h⟩ := hfine.succ fun _ => rfl
      have hcur : c.current? = some t := by rw [Cursor.current?, hc.rest, hx]; rfl
      rw [statement_eq, hcur] at h
      simp only at h
      exact ⟨fuel, c, hc, h⟩

theorem declaration_fills (ih : StmtFills fuel) (c : Cursor) (u : List Token) (hc : c.Before u)
    (h : (declaration (fuel + 1) c).Stuck) (hope : Hopeful (Fine declaration) u) :
    Completes (fun ts => ∃ s, Forms (.decl s) ts) u := by
  have hope : Hopeful (Fine declared) u := hope.imp fun _ _ => fine_declared
  rw [declaration_eq] at h
  have h := recover_stuck h
  cases u with
  | nil =>
    obtain ⟨short, s, hs⟩ := stmtForms_fillers
    exact completes_of [.name, .semicolon] ⟨s, .stmtDecl hs⟩
  | cons t r =>
    -- every stub begins with the same keyword
    have again : ∀ x, x.head? = some t → Fine declared x → ∃ fuel c, c.Before x ∧
        c.current? = some t ∧ (declared fuel c).EndsFirst := by
      rintro x hx ⟨fuel, c, hc, h⟩
      exact ⟨fuel, c, hc, by rw [Cursor.current?, hc.rest, hx], h⟩
    unfold declared at h
    rw [hc.current] at h
    simp only at h
    split at h
    · rename_i hk
      refine ih.classDecl t c r hk hc.advance h ?_
      refine hope.behind [t] fun x _ hx => ?_
      obtain ⟨fuel, c, hc, hcur, h⟩ := again _ rfl hx
      rw [declared, hcur] at h
      simp only [hk] at h
      exact ⟨fuel, c, Cursor.Before.advance hc, h⟩
    · rename_i hk
      rcases expect_stuck hc.advance h with rfl | ⟨name, r, rfl, hn, h⟩
      · have hn : Filler.name.token.kind = .ident := rfl
        have ho : Filler.leftParen.token.kind = .leftParen := rfl
        obtain ⟨f, hf⟩ := bodyForms_fillers.function hn ho .absent
        exact completes_of [.name, .leftParen, .rightParen, .leftBrace, .rightBrace]
          ⟨_, .funDecl hk hf⟩
      · refine (ih.function .function name _ r hn hc.advance.advance (stuck_pure h) ?_).within
          [t] [] ?_
        · refine hope.behind [t, name] fun x _ hx => ?_
          obtain ⟨fuel, c, hc, hcur, h⟩ := again _ rfl hx
          rw [declared, hcur] at h
          simp only [hk] at h
          have hc : c.Before (t :: name :: x) := hc
          rw [bind_of_ok (expect_of_next hc.advance.next hn)] at h
          exact ⟨fuel, c.advance, hc.advance.advance,
            endsFirst_bind (fun _ _ => clean_same _ _) h⟩
        · rintro ts ⟨f, hf⟩
          exact ⟨_, by simpa using Forms.funDecl hk hf⟩
    · rename_i hk
      refine (varDecl_fills hk hc.advance h ?_).imp fun _ h => h.elim fun s hs => ⟨s, .varDecl hs⟩
      refine hope.behind [t] fun x _ hx => ?_
      obtain ⟨fuel, c, hc, hcur, h⟩ := again _ rfl hx
      rw [declared, hcur] at h
      simp only [hk] at h
      exact ⟨fuel, c, Cursor.Before.advance hc, h⟩
    · refine (ih.statement c _ hc h (hope.imp fun x hx hfine => ?_)).imp
        fun _ h => h.elim fun _ h => h.elim fun s hs => ⟨s, .stmtDecl hs⟩
      obtain ⟨fuel, c, hc, hcur, h⟩ := again x hx hfine
      rw [declared, hcur] at h
      simp only at h
      exact ⟨fuel, c, hc, h⟩

theorem stmtFills : ∀ fuel, StmtFills fuel
  | 0 =>
    { declaration := fun _ _ _ h => h.elim
      statement := fun _ _ _ h => h.elim
      block := fun _ _ _ h => h.elim
      declarations := fun _ _ _ h => h.elim
      function := fun _ _ _ _ _ _ h => h.elim
      classDecl := fun _ _ _ _ _ h => h.elim
      methods := fun _ _ _ h => h.elim }
  | fuel + 1 =>
    have ih := stmtFills fuel
    ⟨declaration_fills ih, statement_fills ih, block_fills ih, declarations_fills ih,
      function_fills ih, classDecl_fills ih, methods_fills ih⟩

/-! ## Programs -/

theorem fine_programDeclaration (hx : x.head? = some t) (h : Fine program x) :
    Fine declaration x := by
  obtain ⟨fuel, c, hc, h⟩ := h.succ fun _ => rfl
  have hcur : c.current? = some t := by rw [Cursor.current?, hc.rest, hx]
  rw [program_eq, hcur] at h
  exact ⟨fuel, c, hc, endsFirst_bind (fun _ => more_clean (program_clean fuel)) h⟩

theorem program_noElse (h : Fine program u) : NoElse u := by
  intro t ht
  exact fine_noElse (fine_programDeclaration ht h) t ht

theorem fine_program {s : Stmt} (hs : Forms (.decl s) ts) (hx : NoElse x)
    (h : Fine program (ts ++ x)) : Fine program x := by
  obtain ⟨first, more, rfl, -, -⟩ := decl_starts hs
  obtain ⟨fuel, c, hc, h⟩ := h.succ fun _ => rfl
  rw [program_eq, Cursor.Before.current hc] at h
  obtain ⟨c₁, hc₁, h⟩ := endsFirst_after (parses hs fuel c x hc hx) h
  exact ⟨fuel, _, hc₁, endsFirst_bind (c := c₁.advance) (fun _ _ => clean_same _ _) h⟩

/-- A program in which the parser runs into the end is completed. -/
theorem program_fills : ∀ (fuel : Nat) (c : Cursor) (u : List Token), c.Before u →
    (program fuel c).Stuck → Hopeful (Fine program) u →
    Completes (fun ts => ∃ ss, Grammar.Program ss ts) u
  | 0, _, _, _, h, _ => h.elim
  | fuel + 1, c, [], hc, h, _ => by
    rw [program_eq, hc.dry.current] at h
    exact (not_stuck_ok hc.errors _ h).elim
  | fuel + 1, c, t :: r, hc, h, hope => by
    rw [program_eq, hc.current] at h
    rcases stuck_bind ((stmtClean fuel).declaration c) (fun _ => more_clean (program_clean fuel))
      hc.panicking h with h | ⟨o, c₁, h₁, hc₁, h⟩
    · refine ((stmtFills fuel).declaration c _ hc h
        (hope.imp fun x hx => fine_programDeclaration hx)).imp ?_
      rintro ts ⟨s, hs⟩
      exact ⟨[s], by simpa using Forms.decls hs .noDecls⟩
    · obtain ⟨s, ts, rfl, hf, hr⟩ :=
        (stmtSound fuel).declaration c o c₁ h₁ hc₁.errors hc.panicking
      rw [hc.rest] at hr
      rw [hr] at hope ⊢
      have h : (program fuel c₁.advance).Stuck := stuck_pure (c := c₁.advance) h
      have hElse := program_noElse ⟨fuel, c₁.advance, hc₁, h.endsFirst⟩
      refine (program_fills fuel c₁.advance _ hc₁ h ?_).within ts [] ?_
      · refine hope.behind _ fun x hx => fine_program hf fun t ht => ?_
        exact hElse t (hx ▸ ht)
      · rintro rest ⟨ss, hss⟩
        exact ⟨s :: ss, by simpa using Forms.decls hf hss⟩

end Lox.Parser

namespace Lox.Program

open Grammar (stubs)

variable {tokens : List Token} {endLine : Nat}

theorem endsFirst_of_onlyEnded {x : List Token}
    (h : Completeness.onlyEnded (ofTokens x endLine).errors = true) :
    (Parser.program (fuelFor x.length) (start x endLine)).EndsFirst := by
  have hends := ofTokens_ends x endLine
  unfold ofTokens at h
  cases hr : Parser.program (fuelFor x.length) (start x endLine) with
  | ok ss c => rw [hr] at h; exact Cursor.endsFirst_iff.2 h
  | failed c => rw [hr] at h; exact Cursor.endsFirst_iff.2 h
  | exhausted => exact absurd hr hends

/-- Tokens with which nothing is wrong before they end can be completed to a program. -/
theorem completes (h : Completeness.onlyEnded (ofTokens tokens endLine).errors = true)
    (hstubs : ∀ x ∈ stubs tokens, Completeness.onlyEnded (ofTokens x endLine).errors = true) :
    Parser.Completes (fun ts => ∃ ss, Grammar.Program ss ts) tokens := by
  have hrun := endsFirst_of_onlyEnded h
  have hclean := Parser.program_clean (fuelFor tokens.length) (start tokens endLine)
  by_cases he : (ofTokens tokens endLine).errors = []
  · exact Parser.completes_of [] ⟨_, by simpa using grammatical_of_accepted he⟩
  refine Parser.program_fills (fuelFor tokens.length) (start tokens endLine) tokens
    ⟨rfl, rfl, rfl⟩ ?_ fun x hx => ⟨_, start x endLine, ⟨rfl, rfl, rfl⟩,
      endsFirst_of_onlyEnded (hstubs x hx)⟩
  unfold ofTokens at he
  cases hr : Parser.program (fuelFor tokens.length) (start tokens endLine) with
  | ok ss c =>
    rw [hr] at he hrun
    have he : c.errors ≠ [] := by simpa using he
    have hlast := List.getLast?_eq_some_getLast he
    exact ⟨_, hlast, hrun _ hlast⟩
  | failed c =>
    rw [hr] at hclean hrun
    have hlast := List.getLast?_eq_some_getLast hclean.2
    exact ⟨_, hlast, hrun _ hlast⟩
  | exhausted => rw [hr] at hrun; exact hrun

/-- Nothing is wrong with the beginning of a program before it ends, nor with its stubs. -/
theorem onlyEnded_of_begins {ss : List Stmt} {v x : List Token}
    (h : Grammar.Program ss (tokens ++ v)) (hx : x = tokens ∨ x ∈ stubs tokens) (endLine : Nat) :
    Completeness.onlyEnded (ofTokens x endLine).errors = true := by
  rcases hx with rfl | hx
  · exact ofTokens_begins h (List.prefix_append _ _) endLine
  · obtain ⟨w, ss', hss⟩ := h.stub x (Grammar.mem_stubs_append.2 (.inl hx))
    exact ofTokens_begins hss (List.prefix_append _ _) endLine

/-- **Which tokens a program can begin with.** -/
theorem viable_iff (tokens : List Token) (endLine : Nat) :
    (∃ ss v, Grammar.Program ss (tokens ++ v)) ↔
      ∀ x, x = tokens ∨ x ∈ stubs tokens →
        Completeness.onlyEnded (ofTokens x endLine).errors = true := by
  constructor
  · rintro ⟨ss, v, h⟩ x hx
    exact onlyEnded_of_begins h hx endLine
  · intro h
    obtain ⟨v, ss, hss⟩ := completes (h _ (.inl rfl)) fun x hx => h x (.inr hx)
    exact ⟨ss, _, hss⟩

end Lox.Program
