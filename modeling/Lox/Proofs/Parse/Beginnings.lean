import Lox.Proofs.Parse.Acceptance
import Lox.Repl.Completeness
/-!
# The beginning of a program

When the tokens of a program stop too early, the parser follows the derivation as far as they go
and then finds nothing more. Whatever it complains about after that, its first complaint is that
the input has ended. The proof goes over the derivation and asks for each rule where the cut is:
what stands before it is read as in `Parser.parses`, and the phrase that is cut runs out.
-/

namespace Lox

/-- Whether nothing was wrong before the end of the input was met. -/
def Completeness.onlyEnded (errors : List SyntaxError) : Bool := errors.head?.all isUnfinished

/-- If the cursor has met errors, the first of them is that the input has ended. -/
def Cursor.EndsFirst (c : Cursor) : Prop :=
  ∀ e, c.errors.getLast? = some e → Completeness.isUnfinished e = true

theorem Cursor.endsFirst_iff {c : Cursor} :
    c.EndsFirst ↔ Completeness.onlyEnded c.errors.reverse = true := by
  rw [Completeness.onlyEnded, List.head?_reverse, Option.all_eq_true]
  rfl

/-- The cursor has come to the end of the input, and nothing was wrong before. -/
structure Cursor.Spent (c : Cursor) : Prop where
  tail : c.rest.tail = []
  first : c.EndsFirst

/-- Not even a last token is left. -/
structure Cursor.Dry (c : Cursor) : Prop extends c.Spent where
  rest : c.rest = []

/-- A parser that gives a result ends in `P`, and one that fails does so for lack of tokens. -/
def Parsed.Leads {α : Type} (P : Cursor → Prop) : Parsed α → Prop
  | .ok _ c => P c
  | .failed c => c.Spent
  | .exhausted => True

/-- The parser runs out of tokens. -/
abbrev Parsed.RunsOut {α : Type} (r : Parsed α) : Prop := r.Leads Cursor.Spent

namespace Cursor

variable {c : Cursor}

theorem Spent.advance (h : c.Spent) : c.advance.Dry :=
  ⟨⟨by simp [Cursor.advance, h.tail], h.first⟩, h.tail⟩

theorem Spent.next (h : c.Spent) : c.next? = none := by simp [Cursor.next?, h.tail]

theorem Spent.nextIs (h : c.Spent) (kind : Kind) : c.nextIs kind = false := by
  simp [Cursor.nextIs, h.next]

theorem Dry.current (h : c.Dry) : c.current? = none := by simp [Cursor.current?, h.rest]

theorem Dry.currentIs (h : c.Dry) (kind : Kind) : c.currentIs kind = false := by
  simp [Cursor.currentIs, h.current]

/-- A complaint about the end is the first one or comes after such a one. -/
theorem Spent.panic (h : c.Spent) (line : Nat) (fault : SyntaxFault) :
    (c.panic (.endOfInput line) fault).Spent := by
  refine ⟨h.tail, fun e he => ?_⟩
  simp only [Cursor.panic, Cursor.report, List.getLast?_cons] at he
  cases hl : c.errors.getLast? with
  | none =>
    rw [hl] at he
    cases he
    rfl
  | some first =>
    rw [hl] at he
    cases he
    exact h.first _ hl

theorem Before.dry (h : c.Before []) : c.Dry :=
  ⟨⟨by simp [h.rest], by simp [Cursor.EndsFirst, h.errors]⟩, h.rest⟩

theorem Before.spent (h : c.advance.Before []) : c.Spent :=
  ⟨h.rest, by simp [Cursor.EndsFirst, show c.errors = [] from h.errors]⟩

end Cursor

/-- A beginning of two phrases. -/
theorem cut_append {ls xs u : List Token} (h : u <+: ls ++ xs) :
    u <+: ls ∨ ∃ r, u = ls ++ r ∧ r <+: xs := by
  induction ls generalizing u with
  | nil => exact .inr ⟨u, rfl, h⟩
  | cons l ls ih =>
    rcases List.prefix_cons_iff.1 h with rfl | ⟨r, rfl, hr⟩
    · exact .inl List.nil_prefix
    · rcases ih hr with hl | ⟨xs', rfl, hxs⟩
      · exact .inl (List.prefix_cons_iff.2 (.inr ⟨_, rfl, hl⟩))
      · exact .inr ⟨xs', rfl, hxs⟩

/-- A beginning of two phrases with a token between them. -/
theorem cut_cases {ls xs u : List Token} {x : Token} (h : u <+: ls ++ x :: xs) :
    u <+: ls ∨ ∃ r, u = ls ++ x :: r ∧ r <+: xs := by
  rcases cut_append h with h | ⟨r, rfl, hr⟩
  · exact .inl h
  · rcases List.prefix_cons_iff.1 hr with rfl | ⟨xs', rfl, hxs⟩
    · exact .inl (by simp)
    · exact .inr ⟨xs', rfl, hxs⟩

/-- A beginning of a phrase and one more token. -/
theorem cut_last {ls u : List Token} {x : Token} (h : u <+: ls ++ [x]) :
    u <+: ls ∨ u = ls ++ [x] := by
  rcases cut_cases h with h | ⟨r, rfl, hr⟩
  · exact .inl h
  · exact .inr (by rw [List.prefix_nil.1 hr])

theorem cut_one {u : List Token} {x : Token} (h : u <+: [x]) : u = [] ∨ u = [x] := by
  rcases List.prefix_cons_iff.1 h with rfl | ⟨r, rfl, hr⟩
  · exact .inl rfl
  · exact .inr (by rw [List.prefix_nil.1 hr])

namespace Parser

open Grammar (Spells Tier Above StopsAt stopsAt_cons Forms)

variable {α β : Type} {fuel : Nat} {c : Cursor} {t : Token} {ts u : List Token}

theorem leads_bind {p : Parser α} {f : α → Parser β} {P Q : Cursor → Prop}
    (hp : (p c).Leads P) (hf : ∀ a c', P c' → (f a c').Leads Q) : ((p >>= f) c).Leads Q := by
  rw [bind_apply]
  cases h : p c with
  | ok a c' => rw [h] at hp; exact hf a c' hp
  | failed c' => rw [h] at hp; exact hp
  | exhausted => trivial

/-- A phrase that is read as a whole, and then one that is not. -/
theorem leads_after {p : Parser α} {f : α → Parser β} {a : α} {P : Cursor → Prop}
    {Q : Cursor → Prop} (h : p c = .exhausted ∨ ∃ c', p c = .ok a c' ∧ P c')
    (hf : ∀ c', P c' → (f a c').Leads Q) : ((p >>= f) c).Leads Q := by
  rcases h with h | ⟨c', h, hc'⟩
  · rw [bind_apply, h]
    trivial
  · rw [bind_of_ok h]
    exact hf c' hc'

theorem runsOut_of_delivers {r : Parsed α} {a : α} (h : r.Delivers a []) : r.RunsOut := by
  rcases h with rfl | ⟨c, rfl, hc⟩
  · trivial
  · exact hc.spent

/-! ## Parsers at the end -/

theorem expect_spent (h : c.Spent) (kind : Kind) (fault : SyntaxFault) :
    (expect kind fault c).RunsOut := by
  rw [expect, h.next]
  exact h.panic _ _

theorem expect_then_spent (h : c.Spent) (kind : Kind) (fault : SyntaxFault) (f : Token → α) :
    ((expect kind fault >>= fun t => pure (f t)) c).RunsOut :=
  leads_bind (expect_spent h kind fault) fun _ _ h => h

theorem failHere_dry (h : c.Dry) (fault : SyntaxFault) :
    (failHere fault c : Parsed α).RunsOut := by
  unfold failHere
  rw [h.current]
  exact h.toSpent.panic _ _

theorem operators_spent (h : c.Spent) (fuel : Nat) (level : Precedence) (left : Expr) :
    (operators fuel level left c).RunsOut := by
  cases fuel with
  | zero => rw [operators]; trivial
  | succ fuel =>
    rw [operators_eq, h.next]
    exact h

theorem expression_of_operand {level : Precedence} (h : ∀ fuel, (operand (fuel + 1) c).RunsOut)
    (fuel : Nat) : (expression fuel level c).RunsOut := by
  cases fuel with
  | zero => rw [expression]; trivial
  | succ fuel =>
    rw [expression_eq]
    cases fuel with
    | zero => rw [bind_apply, operand]; trivial
    | succ fuel => exact leads_bind (h fuel) fun left c' h => operators_spent h _ level left

theorem expression_dry (h : c.Dry) (fuel : Nat) (level : Precedence) :
    (expression fuel level c).RunsOut := by
  refine expression_of_operand (fun fuel => ?_) fuel
  rw [operand_eq, h.current]
  exact failHere_dry h _

theorem expression_then_spent {level : Precedence} {kind : Kind} {fault : SyntaxFault}
    {f : Expr → α} (h : (expression fuel level c).RunsOut) :
    ((expression fuel level >>= fun e => expect kind fault >>= fun _ => pure (f e)) c).RunsOut :=
  leads_bind h fun _ _ h => expect_then_spent h _ _ _

theorem afterArgument_spent (h : c.Spent) (fuel : Nat) {count : Nat} (hlt : count < maxArguments)
    (arg : Expr) : (afterArgument fuel count arg c).RunsOut := by
  simp only [afterArgument, limit_of_lt hlt, h.nextIs, Bool.false_eq_true, if_false]
  exact h

theorem arguments_of_expression {count : Nat} (hlt : count < maxArguments)
    (h : ∀ fuel, (expression fuel .lowest c.advance).RunsOut) (fuel : Nat) :
    (arguments fuel count c).RunsOut := by
  cases fuel with
  | zero => rw [arguments]; trivial
  | succ fuel =>
    rw [arguments_eq]
    exact leads_bind (c := c.advance) (h fuel) fun arg _ h => afterArgument_spent h fuel hlt arg

/-! ## Expressions -/

/-- What the parser does on a beginning of the tokens of a phrase. -/
def ExprBegins : Grammar.ExprPhrase → List Token → Prop
  | .tier t _, ts => ∀ u, u <+: ts → ∀ fuel level c, c.Before u → Above level t →
      level.rank ≤ Precedence.unary.rank → (expression fuel level c).RunsOut
  | .arguments es, ts => ∀ u, u <+: ts → ∀ fuel count c, c.advance.Before u →
      count + es.length ≤ maxArguments → (arguments fuel count c).RunsOut

/-- All tokens of an expression are there, and none behind it. -/
theorem expression_whole {level : Precedence} {tier : Tier} {e : Expr}
    (h : Spells (.tier tier e) ts) (hc : c.Before ts) (hl : Above level tier)
    (hlevel : level.rank ≤ Precedence.unary.rank) : (expression fuel level c).RunsOut := by
  have hstop : ∀ n, StopsAt n [] := fun n t op ht => by cases ht
  refine runsOut_of_delivers ((exprParses h fuel level c [] ?_ hl hlevel (hstop _)).delivers
    (hstop _))
  rwa [List.append_nil]

theorem lowest_runsOut {e : Expr} (h : ExprBegins (.tier .assignment e) ts) (hu : u <+: ts)
    (hc : c.Before u) (fuel : Nat) : (expression fuel .lowest c).RunsOut :=
  h u hu fuel .lowest c hc (.inl (by decide)) (by decide)

/-- An operator whose own phrase is cut. -/
theorem Resumes.runsOut {level : Precedence} {r : Parsed Expr} {left : Expr}
    (h : Resumes level r left (t :: ts)) (op : Operator) (hop : Operator.ofKind? t.kind = some op)
    (hrank : level.rank < op.precedence.rank)
    (happly : ∀ fuel c, c.advance.Before ts → (apply (fuel + 1) op t left c).RunsOut) :
    r.RunsOut := by
  rcases h with rfl | ⟨fuel, c, rfl, hc⟩
  · trivial
  · cases fuel with
    | zero => rw [operators]; trivial
    | succ fuel =>
      have heq : operators (fuel + 1) level left c =
          (apply fuel op t left >>= operators fuel level) c.advance := by
        rw [operators_eq, hc.next]
        simp only [hop, hrank, if_true]
      rw [heq]
      cases fuel with
      | zero => rw [bind_apply, apply]; trivial
      | succ fuel =>
        exact leads_bind (happly fuel c.advance hc.advance) fun left' _ h =>
          operators_spent h _ level left'

/-- The same behind a phrase of the tightest tier. -/
theorem suffix_runsOut {level : Precedence} {o : Expr} {os : List Token}
    (h : Spells (.tier .call o) os) (hc : c.Before (os ++ t :: ts))
    (hlevel : level.rank ≤ Precedence.unary.rank) (op : Operator)
    (hop : Operator.ofKind? t.kind = some op) (hrank : Precedence.unary.rank < op.precedence.rank)
    (happly : ∀ fuel c, c.advance.Before ts → (apply (fuel + 1) op t o c).RunsOut) :
    (expression fuel level c).RunsOut :=
  (exprParses h fuel level c _ hc (.inr (by decide)) hlevel (Grammar.stopsAt_call _)).runsOut op
    hop (Nat.lt_of_le_of_lt hlevel hrank) happly

theorem apply_assign_runsOut {left v : Expr} (hv : ExprBegins (.tier .assignment v) ts)
    (hu : u <+: ts) (hc : c.advance.Before u) {e : Expr → Expr}
    (he : ∀ v c, assignment t left v c = .ok (e v) c) :
    (apply (fuel + 1) .assign t left c).RunsOut := by
  rw [apply_assign]
  refine leads_bind (c := c.advance) (lowest_runsOut hv hu hc fuel) fun v c' h => ?_
  rw [he]
  exact h

theorem exprBegins_assignName {name eq : Token} {v : Expr} (hk : name.kind = .ident)
    (heq : eq.kind = .assign) (hv : ExprBegins (.tier .assignment v) ts) :
    ExprBegins (.tier .assignment (.assign ⟨name, none⟩ v)) (name :: eq :: ts) := by
  intro u hu fuel level c hc hl hlevel
  have hname : Spells (.tier .primary (.var ⟨name, none⟩)) [name] := .name hk
  have hlow : level.rank < Tier.assignment.rank := Or.resolve_right hl (by decide)
  rcases List.prefix_cons_iff.1 hu with rfl | ⟨r, rfl, hr⟩
  · exact expression_dry hc.dry fuel level
  · rcases List.prefix_cons_iff.1 hr with rfl | ⟨vs, rfl, hvs⟩
    · exact expression_whole hname hc (.inr (by decide)) hlevel
    · refine (exprParses hname fuel level c (eq :: vs) hc (.inr (by decide)) hlevel ?_).runsOut
        .assign (by rw [heq]; rfl) hlow fun fuel c' hc' =>
          apply_assign_runsOut hv hvs hc' fun _ _ => rfl
      have hop : Operator.ofKind? eq.kind = some .assign := by rw [heq]; rfl
      exact stopsAt_cons hop (by decide)

theorem exprBegins_assignProperty {dot name eq : Token} {o v : Expr} {os : List Token}
    (hs : Spells (.tier .call o) os) (ho : ExprBegins (.tier .call o) os) (hdot : dot.kind = .dot)
    (hk : name.kind = .ident) (heq : eq.kind = .assign)
    (hv : ExprBegins (.tier .assignment v) ts) :
    ExprBegins (.tier .assignment (.set o name v)) (os ++ dot :: name :: eq :: ts) := by
  intro u hu fuel level c hc hl hlevel
  have hget : Spells (.tier .call (.get o name)) (os ++ [dot, name]) := .property hs hdot hk
  have hlow : level.rank < Tier.assignment.rank := Or.resolve_right hl (by decide)
  rcases cut_cases hu with hu | ⟨r, rfl, hr⟩
  · exact ho u hu fuel level c hc (.inr (by decide)) hlevel
  rcases List.prefix_cons_iff.1 hr with rfl | ⟨rs, rfl, hrs⟩
  · refine suffix_runsOut hs hc hlevel .get (by rw [hdot]; rfl) (by decide) fun fuel c' hc' => ?_
    rw [apply_get]
    exact expect_then_spent hc'.spent _ _ _
  rcases List.prefix_cons_iff.1 hrs with rfl | ⟨vs, rfl, hvs⟩
  · exact expression_whole hget hc (.inr (by decide)) hlevel
  · have hc' : c.Before ((os ++ [dot, name]) ++ eq :: vs) := by simpa using hc
    exact (exprParses hget fuel level c _ hc' (.inr (by decide)) hlevel
      (Grammar.stopsAt_call _)).runsOut .assign (by rw [heq]; rfl) hlow fun fuel c' hc' =>
        apply_assign_runsOut hv hvs hc' fun _ _ => rfl

theorem exprBegins_operator {tier v : Tier} {op : Token} {node : Token → Expr → Expr → Expr}
    {l r : Expr} {ls rs : List Token} (hn : tier.node? op.kind = some node)
    (hv : tier.tighter? = some v) (hs : Spells (.tier tier l) ls)
    (hl : ExprBegins (.tier tier l) ls) (hr : ExprBegins (.tier v r) rs) :
    ExprBegins (.tier tier (node op l r)) (ls ++ op :: rs) := by
  intro u hu fuel level c hc habove hlevel
  rcases cut_cases hu with hu | ⟨rs', rfl, hrs⟩
  · exact hl u hu fuel level c hc habove hlevel
  obtain ⟨o, ho, rfl, hnode⟩ := Tier.node_cases hn
  have hrank := Tier.rank_ofOperator o
  have hfollow : (Tier.ofOperator o).follow = o.precedence.rank ∧ o.precedence.rank ≤ 8 := by
    rcases hnode with ⟨b, rfl, -⟩ | ⟨l, rfl, -⟩
    · cases b <;> decide
    · cases l <;> decide
  have hlow : ¬ Precedence.unary.rank ≤ (Tier.ofOperator o).rank := by
    rw [hrank]
    exact Nat.not_le.2 (Nat.lt_of_le_of_lt hfollow.2 (by decide))
  refine (exprParses hs fuel level c _ hc habove hlevel (stopsAt_cons ho
    (Nat.le_of_eq hfollow.1.symm))).runsOut o ho
      (hrank ▸ Or.resolve_right habove hlow) fun fuel c' hc' => ?_
  have hright : (expression fuel o.precedence c'.advance).RunsOut := by
    refine hr rs' hrs fuel o.precedence _ hc' (.inl ?_) (Nat.le_trans hfollow.2 (by decide))
    have := Tier.rank_of_tighter hv
    omega
  rcases hnode with ⟨b, rfl, -⟩ | ⟨l, rfl, -⟩
  · rw [apply_binary]
    exact leads_bind (c := c'.advance) hright fun _ _ h => h
  · rw [apply_logical]
    exact leads_bind (c := c'.advance) hright fun _ _ h => h

theorem exprBegins_unary {op : Token} {o : UnaryOp} {e : Expr}
    (ho : Grammar.unaryOp? op.kind = some o) (he : ExprBegins (.tier .unary e) ts) :
    ExprBegins (.tier .unary (.unary o op e)) (op :: ts) := by
  intro u hu fuel level c hc _ _
  rcases List.prefix_cons_iff.1 hu with rfl | ⟨r, rfl, hr⟩
  · exact expression_dry hc.dry fuel level
  refine expression_of_operand (fun fuel => ?_) fuel
  have hoperand : operand (fuel + 1) c = unary fuel o op c := by
    rw [operand_eq, hc.current]
    unfold Grammar.unaryOp? at ho
    split at ho <;> cases ho <;> rename_i hk <;> simp only [hk]
  rw [hoperand]
  cases fuel with
  | zero => rw [Parser.unary]; trivial
  | succ fuel =>
    rw [unary_eq]
    exact leads_bind (c := c.advance)
      (he r hr fuel .unary _ hc.advance (.inr (by decide)) (by decide)) fun _ _ h => h

theorem exprBegins_call {opening closing : Token} {f : Expr} {args : List Expr}
    {fs : List Token} (hs : Spells (.tier .call f) fs) (hf : ExprBegins (.tier .call f) fs)
    (ho : opening.kind = .leftParen) (hsargs : Spells (.arguments args) ts)
    (hargs : ExprBegins (.arguments args) ts) (hlen : args.length ≤ maxArguments)
    (hk : closing.kind = .rightParen) :
    ExprBegins (.tier .call (.call closing f args)) (fs ++ opening :: (ts ++ [closing])) := by
  intro u hu fuel level c hc hl hlevel
  rcases cut_cases hu with hu | ⟨r, rfl, hr⟩
  · exact hf u hu fuel level c hc (.inr (by decide)) hlevel
  rcases cut_last hr with hr | rfl
  · refine suffix_runsOut hs hc hlevel .call (by rw [ho]; rfl) (by decide) fun fuel c' hc' => ?_
    -- the first argument is no closing parenthesis, nor is the end
    have hno : c'.nextIs .rightParen = false := by
      obtain ⟨first, more, rfl, hfirst⟩ := spells_starts hsargs
      rcases List.prefix_cons_iff.1 hr with rfl | ⟨r, rfl, -⟩
      · exact hc'.spent.nextIs _
      · rw [hc'.nextIs]
        cases hkind : first.kind <;> simp_all [startsOperand]
    rw [apply_call, hno]
    exact leads_bind (hargs r hr fuel 0 c' hc' (by omega)) fun _ _ h => expect_then_spent h _ _ _
  · exact expression_whole (.call hs ho hsargs hlen hk) hc hl hlevel

theorem exprBegins_argument {comma : Token} {e : Expr} {es : List Expr} {rest : List Token}
    (hs : Spells (.tier .assignment e) ts) (he : ExprBegins (.tier .assignment e) ts)
    (hk : comma.kind = .comma) (hes : ExprBegins (.arguments es) rest) :
    ExprBegins (.arguments (e :: es)) (ts ++ comma :: rest) := by
  intro u hu fuel count c hc hlen
  rw [List.length_cons] at hlen
  have hlt : count < maxArguments := by omega
  rcases cut_cases hu with hu | ⟨r, rfl, hr⟩
  · exact arguments_of_expression hlt (lowest_runsOut he hu hc) fuel
  cases fuel with
  | zero => rw [arguments]; trivial
  | succ fuel =>
    rw [arguments_eq]
    refine leads_after (expression_delivers (exprParses hs) hc (by rw [hk]; rfl)) fun c' hc' => ?_
    simp only [afterArgument, limit_of_lt hlt]
    rw [hc'.nextIs, hk]
    exact leads_bind (c := c'.advance) (hes r hr fuel _ _ hc'.advance (by omega)) fun _ _ h => h

/-- **On the beginning of an expression the parser runs out of tokens.** -/
theorem exprBegins {p : Grammar.ExprPhrase} (h : Spells p ts) : ExprBegins p ts := by
  -- a phrase of one token is cut before it or not at all
  have one : ∀ {tier : Tier} {e : Expr} {t : Token}, Spells (.tier tier e) [t] →
      ExprBegins (.tier tier e) [t] := by
    intro tier e t hs u hu fuel level c hc hl hlevel
    rcases cut_one hu with rfl | rfl
    · exact expression_dry hc.dry fuel level
    · exact expression_whole hs hc hl hlevel
  induction h with
  | tighter hu _ ih =>
    intro u hp fuel level c hc hl hlevel
    exact ih u hp fuel level c hc (hl.tighter hu) hlevel
  | assignName hk heq _ ih => exact exprBegins_assignName hk heq ih
  | assignProperty hs hdot hk heq _ iho ihv =>
    exact exprBegins_assignProperty hs iho hdot hk heq ihv
  | operator hn hu hs _ ihl ihr => exact exprBegins_operator hn hu hs ihl ihr
  | unary hu _ ih => exact exprBegins_unary hu ih
  | callEmpty hs ho hk ih =>
    intro u hu fuel level c hc hl hlevel
    rcases cut_cases hu with hu | ⟨r, rfl, hr⟩
    · exact ih u hu fuel level c hc (.inr (by decide)) hlevel
    rcases cut_one hr with rfl | rfl
    · refine suffix_runsOut hs hc hlevel .call (by rw [ho]; rfl) (by decide) fun fuel c' hc' => ?_
      rw [apply_call, hc'.spent.nextIs]
      exact leads_bind (arguments_of_expression (by decide)
        (fun fuel => expression_dry hc'.spent.advance fuel _) fuel) fun _ _ h =>
          expect_then_spent h _ _ _
    · exact expression_whole (.callEmpty hs ho hk) hc hl hlevel
  | call hs ho hsargs hlen hk ihf ihargs => exact exprBegins_call hs ihf ho hsargs ihargs hlen hk
  | property hs hdot hk ih =>
    intro u hu fuel level c hc hl hlevel
    rcases cut_cases hu with hu | ⟨r, rfl, hr⟩
    · exact ih u hu fuel level c hc (.inr (by decide)) hlevel
    rcases cut_one hr with rfl | rfl
    · refine suffix_runsOut hs hc hlevel .get (by rw [hdot]; rfl) (by decide) fun fuel c' hc' => ?_
      rw [apply_get]
      exact expect_then_spent hc'.spent _ _ _
    · exact expression_whole (.property hs hdot hk) hc hl hlevel
  | constant hv => exact one (.constant hv)
  | name hk => exact one (.name hk)
  | this hk => exact one (.this hk)
  | super hk hdot hn =>
    intro u hu fuel level c hc hl hlevel
    rcases List.prefix_cons_iff.1 hu with rfl | ⟨r, rfl, hr⟩
    · exact expression_dry hc.dry fuel level
    rcases List.prefix_cons_iff.1 hr with rfl | ⟨ns, rfl, hns⟩
    · refine expression_of_operand (fun fuel => ?_) fuel
      rw [operand_eq, hc.current]
      simp only [hk]
      exact leads_bind (expect_spent hc.advance.spent _ _) fun _ _ h => expect_then_spent h _ _ _
    rcases cut_one hns with rfl | rfl
    · refine expression_of_operand (fun fuel => ?_) fuel
      rw [operand_eq, hc.current]
      simp only [hk]
      exact leads_after (expect_delivers hc.advance hdot) fun _ hc' =>
        expect_then_spent hc'.spent _ _ _
    · exact expression_whole (.super hk hdot hn) hc hl hlevel
  | group ho hs hk ih =>
    intro u hu fuel level c hc hl hlevel
    rcases List.prefix_cons_iff.1 hu with rfl | ⟨r, rfl, hr⟩
    · exact expression_dry hc.dry fuel level
    rcases cut_last hr with hr | rfl
    · refine expression_of_operand (fun fuel => ?_) fuel
      rw [operand_eq, hc.current]
      simp only [ho]
      exact expression_then_spent (c := c.advance) (lowest_runsOut ih hr hc.advance fuel)
    · exact expression_whole (.group ho hs hk) hc hl hlevel
  | lastArgument _ ih =>
    intro u hu fuel count c hc hlen
    exact arguments_of_expression hlen (lowest_runsOut ih hu hc) fuel
  | argument hs hk _ ih ihs => exact exprBegins_argument hs ih hk ihs

/-! ## Pieces of statements -/

theorem exprStmt_dry (h : c.Dry) (fuel : Nat) : (exprStmt fuel c).RunsOut := by
  rw [exprStmt_eq]
  exact expression_then_spent (expression_dry h fuel _)

theorem exprStmt_begins {s : Stmt} (h : Grammar.ExprStmt s ts) (hu : u <+: ts) (hc : c.Before u)
    (fuel : Nat) : (exprStmt fuel c).RunsOut := by
  have hwhole : c.Before (ts ++ []) → (exprStmt fuel c).RunsOut := fun hc =>
    runsOut_of_delivers (exprStmt_delivers fuel h hc)
  cases h with
  | mk he hs =>
    rw [← List.cons_append] at hu
    rcases cut_last hu with hu | rfl
    · rw [exprStmt_eq]
      exact expression_then_spent (lowest_runsOut (exprBegins he) hu hc fuel)
    · exact hwhole (by simpa using hc)

theorem afterVarName_spent (h : c.Spent) (fuel : Nat) (keyword name : Token) :
    (afterVarName fuel keyword name c).RunsOut := by
  rw [afterVarName, h.nextIs]
  exact expect_then_spent h _ _ _

theorem varDecl_begins {s : Stmt} {keyword : Token} (h : Grammar.VarDecl s (keyword :: ts))
    (hu : u <+: ts) (hc : c.Before (keyword :: u)) (fuel : Nat) :
    (varDecl fuel keyword c).RunsOut := by
  have hwhole : c.Before (keyword :: ts ++ []) → (varDecl fuel keyword c).RunsOut := fun hc =>
    runsOut_of_delivers (varDecl_delivers h hc)
  -- without its name nothing of the declaration is there
  have nameless : u = [] → (varDecl fuel keyword c).RunsOut := by
    rintro rfl
    rw [varDecl_eq]
    exact leads_bind (expect_spent hc.advance.spent _ _) fun name _ h =>
      afterVarName_spent h fuel keyword name
  have named : ∀ {name : Token} {r : List Token}, name.kind = .ident → u = name :: r →
      (∀ c', c'.advance.Before r → (afterVarName fuel keyword name c').RunsOut) →
      (varDecl fuel keyword c).RunsOut := by
    rintro name r hn rfl hrest
    rw [varDecl_eq]
    exact leads_after (expect_delivers hc.advance hn) hrest
  cases h with
  | plain _ hn hs =>
    rcases List.prefix_cons_iff.1 hu with rfl | ⟨r, rfl, hr⟩
    · exact nameless rfl
    rcases cut_one hr with rfl | rfl
    · exact named hn rfl fun c' hc' => afterVarName_spent hc'.spent fuel keyword _
    · exact hwhole (by simpa using hc)
  | init _ hn heq he hs =>
    rcases List.prefix_cons_iff.1 hu with rfl | ⟨r, rfl, hr⟩
    · exact nameless rfl
    rcases List.prefix_cons_iff.1 hr with rfl | ⟨vs, rfl, hvs⟩
    · exact named hn rfl fun c' hc' => afterVarName_spent hc'.spent fuel keyword _
    rcases cut_last hvs with hvs | rfl
    · refine named hn rfl fun c' hc' => ?_
      rw [afterVarName, hc'.nextIs, heq]
      exact expression_then_spent (c := c'.advance.advance)
        (lowest_runsOut (exprBegins he) hvs hc'.advance fuel)
    · exact hwhole (by simpa using hc)

theorem condition_begins {opening closing : SyntaxFault} {l : Token} {e : Expr}
    (hl : l.kind = .leftParen) (he : Grammar.Expression e ts) (hu : u <+: l :: ts)
    (hc : c.advance.Before u) (fuel : Nat) : (condition fuel opening closing c).RunsOut := by
  rw [condition]
  rcases List.prefix_cons_iff.1 hu with rfl | ⟨r, rfl, hr⟩
  · refine leads_bind (expect_spent hc.spent _ _) fun _ c' h => ?_
    rw [advance_bind]
    exact expression_then_spent (expression_dry h.advance fuel _)
  · refine leads_after (expect_delivers hc hl) fun c' hc' => ?_
    rw [advance_bind]
    exact expression_then_spent (lowest_runsOut (exprBegins he) hr hc' fuel)

theorem forInitializer_begins {init : Option Stmt} (h : Grammar.ForInit init ts) (hu : u <+: ts)
    (hc : c.Before u) (fuel : Nat) : (forInitializer fuel c).RunsOut := by
  have hwhole : u = ts → (forInitializer fuel c).RunsOut := by
    rintro rfl
    exact runsOut_of_delivers (forInitializer_delivers h (by simpa using hc))
  -- what is not there is taken for an expression
  have absent : u = [] → (forInitializer fuel c).RunsOut := by
    rintro rfl
    rw [forInitializer_eq, hc.dry.current]
    exact leads_bind (exprStmt_dry hc.dry fuel) fun _ _ h => h
  cases h with
  | absent hk =>
    rcases cut_one hu with rfl | rfl
    · exact absent rfl
    · exact hwhole rfl
  | var hv =>
    obtain ⟨keyword, more, rfl, hk⟩ := varDecl_starts hv
    rcases List.prefix_cons_iff.1 hu with rfl | ⟨r, rfl, hr⟩
    · exact absent rfl
    · rw [forInitializer_eq, hc.current]
      simp only [hk]
      exact leads_bind (varDecl_begins hv hr hc fuel) fun _ _ h => h
  | expr he =>
    have hexpr : ((exprStmt fuel >>= fun s => pure (some s)) c).RunsOut :=
      leads_bind (exprStmt_begins he hu hc fuel) fun _ _ h => h
    obtain ⟨first, more, rfl, hk⟩ := exprStmt_starts he
    rcases List.prefix_cons_iff.1 hu with rfl | ⟨r, rfl, -⟩
    · exact absent rfl
    · rw [forInitializer_eq, hc.current]
      cases hkind : first.kind <;> simp only [hkind, startsOperand, reduceCtorEq] at hk ⊢ <;>
        exact hexpr

theorem forClause_dry (h : c.Dry) (fuel : Nat) (ending : Kind) (fault : SyntaxFault) :
    (forClause fuel ending fault c).RunsOut := by
  rw [forClause_eq, h.currentIs]
  exact expression_then_spent (expression_dry h fuel _)

theorem forClause_begins {ending : Kind} {fault : SyntaxFault} {e : Option Expr}
    (h : Grammar.Optional e ts) (hstart : startsOperand ending = false) (hu : u <+: ts)
    (hc : c.Before u) (fuel : Nat) : (forClause fuel ending fault c).RunsOut := by
  cases h with
  | absent =>
    obtain rfl : u = [] := List.prefix_nil.1 hu
    exact forClause_dry hc.dry fuel ending fault
  | present he =>
    obtain ⟨first, more, rfl, hfirst⟩ := spells_starts he
    rcases List.prefix_cons_iff.1 hu with rfl | ⟨r, rfl, -⟩
    · exact forClause_dry hc.dry fuel ending fault
    · have hne : (first.kind == ending) = false := by
        refine beq_false_of_ne fun heq => ?_
        rw [heq, hstart] at hfirst
        cases hfirst
      rw [forClause_eq, hc.currentIs, hne]
      exact expression_then_spent (lowest_runsOut (exprBegins he) hu hc fuel)

theorem parameters_spent (h : c.Spent) (fuel : Nat) {count : Nat} (hlt : count < maxArguments) :
    (parameters fuel count c).RunsOut := by
  cases fuel with
  | zero => rw [parameters]; trivial
  | succ fuel =>
    rw [parameters_eq]
    refine leads_bind (expect_spent h _ _) fun param c' h' => ?_
    simp only [afterParameter, limit_of_lt hlt, h'.nextIs, Bool.false_eq_true, if_false]
    exact h'

theorem parameters_begins {names : List Token} (h : Grammar.Names names ts) :
    ∀ (u : List Token) (fuel count : Nat) (c : Cursor), u <+: ts → c.advance.Before u →
    count + names.length ≤ maxArguments → (parameters fuel count c).RunsOut := by
  induction h with
  | last hk =>
    intro u fuel count c hu hc hlen
    rcases cut_one hu with rfl | rfl
    · exact parameters_spent hc.spent fuel hlen
    cases fuel with
    | zero => rw [parameters]; trivial
    | succ fuel =>
      rw [parameters_eq]
      refine leads_after (expect_delivers hc hk) fun c' hc' => ?_
      simp only [afterParameter, limit_of_lt hlen, hc'.spent.nextIs, Bool.false_eq_true, if_false]
      exact hc'.spent
  | more hk hcomma _ ih =>
    intro u fuel count c hu hc hlen
    rw [List.length_cons] at hlen
    have hlt : count < maxArguments := by omega
    rcases List.prefix_cons_iff.1 hu with rfl | ⟨r, rfl, hr⟩
    · exact parameters_spent hc.spent fuel hlt
    cases fuel with
    | zero => rw [parameters]; trivial
    | succ fuel =>
      rw [parameters_eq]
      refine leads_after (expect_delivers hc hk) fun c' hc' => ?_
      simp only [afterParameter, limit_of_lt (c := c') hlt]
      rcases List.prefix_cons_iff.1 hr with rfl | ⟨rest, rfl, hrest⟩
      · rw [hc'.spent.nextIs]
        exact hc'.spent
      · rw [hc'.nextIs, hcomma]
        exact leads_bind (c := c'.advance) (ih rest fuel _ _ hrest hc'.advance (by omega))
          fun _ _ h => h

/-! ## Statements and declarations -/

theorem statement_dry (h : c.Dry) (fuel : Nat) : (statement fuel c).RunsOut := by
  cases fuel with
  | zero => rw [statement]; trivial
  | succ fuel =>
    rw [statement_eq, h.current]
    exact exprStmt_dry h fuel

theorem statement_runsOut (h : ∀ fuel, (statement (fuel + 1) c).RunsOut) (fuel : Nat) :
    (statement fuel c).RunsOut := by
  cases fuel with
  | zero => rw [statement]; trivial
  | succ fuel => exact h fuel

theorem declarations_dry (h : c.Dry) (fuel : Nat) : (declarations fuel c).Leads Cursor.Dry := by
  cases fuel with
  | zero => rw [declarations]; trivial
  | succ fuel =>
    rw [declarations_eq, h.current]
    exact h

theorem methods_dry (h : c.Dry) (fuel : Nat) : (methods fuel c).Leads Cursor.Dry := by
  cases fuel with
  | zero => rw [Parser.methods]; trivial
  | succ fuel =>
    rw [methods_eq, h.current]
    exact h

/-- A block that is not closed. -/
theorem block_runsOut (h : ∀ fuel, (declarations fuel c.advance).Leads Cursor.Dry) (fuel : Nat) :
    (block fuel c).RunsOut := by
  cases fuel with
  | zero => rw [block]; trivial
  | succ fuel =>
    rw [block_eq]
    refine leads_bind (c := c.advance) (h fuel) fun body c' h => ?_
    rw [closeBlock, h.currentIs, h.current]
    exact h.toSpent.panic _ _

theorem block_spent (h : c.Spent) (fuel : Nat) : (block fuel c).RunsOut :=
  block_runsOut (fun fuel => declarations_dry h.advance fuel) fuel

theorem functionBody_spent (h : c.Spent) (fuel : Nat) (kind : Callee) (name : Token)
    (params : List Token) : (functionBody fuel kind name params c).RunsOut :=
  leads_bind (expect_spent h _ _) fun _ _ h => leads_bind (expect_spent h _ _) fun _ _ h =>
    leads_bind (block_spent h fuel) fun _ _ h => h

theorem functionRest_spent (h : c.Spent) (fuel : Nat) (kind : Callee) (name : Token) :
    (functionRest fuel kind name c).RunsOut := by
  rw [functionRest, h.nextIs]
  exact leads_bind (parameters_spent h fuel (by decide)) fun _ _ h =>
    functionBody_spent h fuel kind name _

theorem function_spent (h : c.Spent) (fuel : Nat) (kind : Callee) (name : Token) :
    (function fuel kind name c).RunsOut := by
  cases fuel with
  | zero => rw [Parser.function]; trivial
  | succ fuel =>
    rw [function_eq]
    exact leads_bind (expect_spent h _ _) fun _ _ h => functionRest_spent h fuel kind name

theorem classBody_spent (h : c.Spent) (fuel : Nat) (keyword name : Token)
    (superclass : Option Ref) : (classBody fuel keyword name superclass c).RunsOut := by
  refine leads_bind (expect_spent h _ _) fun _ c' h => ?_
  rw [advance_bind]
  refine leads_bind (methods_dry h.advance fuel) fun ms c'' h => ?_
  rw [closeClass, h.currentIs]
  exact failHere_dry h _

theorem forBody_spent (h : c.Spent) (fuel : Nat) (t : Token) (init : Option Stmt)
    (cond step : Option Expr) : (forBody fuel t init cond step c).RunsOut :=
  leads_bind (c := c.advance) (statement_dry h.advance fuel) fun _ _ h => h

theorem forStep_spent (h : c.Spent) (fuel : Nat) (t : Token) (init : Option Stmt)
    (cond : Option Expr) : (forStep fuel t init cond c).RunsOut :=
  leads_bind (c := c.advance) (forClause_dry h.advance fuel _ _) fun step _ h =>
    forBody_spent h fuel t init cond step

theorem forCond_spent (h : c.Spent) (fuel : Nat) (t : Token) (init : Option Stmt) :
    (forCond fuel t init c).RunsOut :=
  leads_bind (c := c.advance) (forClause_dry h.advance fuel _ _) fun cond _ h =>
    forStep_spent h fuel t init cond

theorem forInit_spent (h : c.Spent) (fuel : Nat) (t : Token) : (forInit fuel t c).RunsOut := by
  refine leads_bind (c := c.advance) ?_ fun init _ h => forCond_spent h fuel t init
  rw [forInitializer_eq, h.advance.current]
  exact leads_bind (exprStmt_dry h.advance fuel) fun _ _ h => h

theorem afterYes_spent (h : c.Spent) (fuel : Nat) (t : Token) (cond : Expr) (yes : Stmt) :
    (afterYes fuel t cond yes c).RunsOut := by
  rw [afterYes, h.nextIs]
  exact h

/-- What the parser does on a beginning of the tokens of a phrase. -/
def Begins : Grammar.Phrase → List Token → Prop
  | .stmt _ _, ts => ∀ u, u <+: ts → ∀ fuel c, c.Before u → (statement fuel c).RunsOut
  | .decl _, ts => ∀ u, u <+: ts → ∀ fuel c, c.Before u → (declaration fuel c).RunsOut
  | .decls _, ts => ∀ u, u <+: ts → ∀ fuel c, c.Before u →
      (declarations fuel c).Leads Cursor.Dry
  | .function f, ts => ∀ u, u <+: ts.tail → ∀ fuel kind c, c.advance.Before u →
      (function fuel kind f.name c).RunsOut
  | .methods _, ts => ∀ u, u <+: ts → ∀ fuel c, c.Before u → (methods fuel c).Leads Cursor.Dry

/-- A statement whose first token is there; without it there is nothing to tell it by. -/
theorem begins_stmt {short : Bool} {s : Stmt}
    (h : ∀ r, r <+: ts → ∀ fuel c, c.Before (t :: r) → (statement (fuel + 1) c).RunsOut) :
    Begins (.stmt short s) (t :: ts) := by
  intro u hu fuel c hc
  rcases List.prefix_cons_iff.1 hu with rfl | ⟨r, rfl, hr⟩
  · exact statement_dry hc.dry fuel
  · exact statement_runsOut (fun fuel => h r hr fuel c hc) fuel

/-- The last token is there too. -/
theorem statement_whole {short : Bool} {s : Stmt} (h : Forms (.stmt short s) ts)
    (hc : c.Before ts) : (statement fuel c).RunsOut :=
  runsOut_of_delivers (parses h fuel c [] (by simpa using hc) fun _ _ ht => by cases ht)

theorem begins_exprStmt {s : Stmt} (h : Grammar.ExprStmt s ts) : Begins (.stmt false s) ts := by
  obtain ⟨first, more, rfl, hk⟩ := exprStmt_starts h
  refine begins_stmt fun r hr fuel c hc => ?_
  have hexpr := exprStmt_begins h (List.prefix_cons_iff.2 (.inr ⟨r, rfl, hr⟩)) hc fuel
  rw [statement_eq, hc.current]
  cases hkind : first.kind <;> simp only [hkind, startsOperand, reduceCtorEq] at hk ⊢ <;>
    exact hexpr

theorem begins_print {kw semicolon : Token} {e : Expr} (hk : kw.kind = .kwPrint)
    (he : Grammar.Expression e ts) (hs : semicolon.kind = .semicolon) :
    Begins (.stmt false (.print kw e)) (kw :: (ts ++ [semicolon])) := by
  refine begins_stmt fun r hr fuel c hc => ?_
  rcases cut_last hr with hr | rfl
  · rw [statement_eq, hc.current]
    simp only [hk]
    rw [printStmt_eq]
    exact expression_then_spent (lowest_runsOut (exprBegins he) hr hc.advance fuel)
  · exact statement_whole (.print hk he hs) hc

theorem begins_ret {kw semicolon : Token} {e : Option Expr} (hk : kw.kind = .kwReturn)
    (he : Grammar.Optional e ts) (hs : semicolon.kind = .semicolon) :
    Begins (.stmt false (.ret kw e)) (kw :: (ts ++ [semicolon])) := by
  refine begins_stmt fun r hr fuel c hc => ?_
  rcases cut_last hr with hr | rfl
  · rw [statement_eq, hc.current]
    simp only [hk]
    rw [returnStmt_eq]
    cases he with
    | absent =>
      obtain rfl : r = [] := List.prefix_nil.1 hr
      rw [hc.advance.spent.nextIs]
      exact expression_then_spent (expression_dry hc.advance.dry fuel _)
    | present he =>
      have hno : c.nextIs .semicolon = false := by
        obtain ⟨first, more, rfl, hfirst⟩ := spells_starts he
        rcases List.prefix_cons_iff.1 hr with rfl | ⟨r, rfl, -⟩
        · exact hc.advance.spent.nextIs _
        · rw [hc.advance.nextIs]
          cases hkind : first.kind <;> simp_all [startsOperand]
      rw [hno]
      exact expression_then_spent (lowest_runsOut (exprBegins he) hr hc.advance fuel)
  · exact statement_whole (.ret hk he hs) hc

theorem begins_block {opening closing : Token} {ss : List Stmt} (ho : opening.kind = .leftBrace)
    (hf : Forms (.decls ss) ts) (hss : Begins (.decls ss) ts) (hk : closing.kind = .rightBrace) :
    Begins (.stmt false (.block closing ss)) (opening :: (ts ++ [closing])) := by
  refine begins_stmt fun r hr fuel c hc => ?_
  rcases cut_last hr with hr | rfl
  · rw [statement_eq, hc.current]
    simp only [ho]
    exact leads_bind (block_runsOut (fun fuel => hss r hr fuel c.advance hc.advance) fuel)
      fun _ _ h => h
  · exact statement_whole (.block ho hf hk) hc

/-- A statement that begins with a condition, and what follows that. -/
theorem begins_condition (opening closing : SyntaxFault) (f : Nat → Expr → Parser Stmt)
    {l r : Token} {e : Expr} {s : Stmt} {short : Bool} {cs : List Token}
    (heq : ∀ fuel c, c.current? = some t → statement (fuel + 1) c =
      (condition fuel opening closing >>= fun e => advance >>= fun _ => f fuel e) c)
    (hl : l.kind = .leftParen) (he : Grammar.Expression e cs) (hr : r.kind = .rightParen)
    (hf : ∀ us, us <+: ts → ∀ fuel c, c.Before us → (f fuel e c).RunsOut)
    (hdry : ∀ fuel e c, c.Dry → (f fuel e c).RunsOut) :
    Begins (.stmt short s) (t :: l :: (cs ++ r :: ts)) := by
  refine begins_stmt fun us hus fuel c hc => ?_
  rw [heq fuel c hc.current]
  rw [← List.cons_append] at hus
  rcases cut_cases hus with hus | ⟨ts', rfl, hts⟩
  · refine leads_bind (condition_begins hl he hus hc.advance fuel) fun e c' h => ?_
    rw [advance_bind]
    exact hdry fuel e _ h.advance
  · refine leads_after (condition_delivers hl he hr hc.advance) fun c' hc' => ?_
    rw [advance_bind]
    exact hf ts' hts fuel _ hc'

theorem branches_dry (h : c.Dry) (fuel : Nat) (t : Token) (cond : Expr) :
    ((statement fuel >>= afterYes fuel t cond) c).RunsOut :=
  leads_bind (statement_dry h fuel) fun yes _ h => afterYes_spent h fuel t cond yes

theorem begins_ifShort {kw l r : Token} {cond : Expr} {yes : Stmt} {short : Bool}
    {cs ys : List Token} (hk : kw.kind = .kwIf) (hl : l.kind = .leftParen)
    (hcond : Grammar.Expression cond cs) (hr : r.kind = .rightParen)
    (hyes : Begins (.stmt short yes) ys) :
    Begins (.stmt true (.ifElse kw cond yes none)) (kw :: l :: (cs ++ r :: ys)) := by
  refine begins_condition _ _ _ (fun fuel c hc => statement_if hc hk fuel) hl hcond hr
    (fun us hus fuel c hc => ?_) fun fuel e c h => branches_dry h fuel kw e
  exact leads_bind (hyes us hus fuel c hc) fun yes _ h => afterYes_spent h fuel kw _ yes

theorem begins_ifElse {kw l r other : Token} {cond : Expr} {yes no : Stmt} {short : Bool}
    {cs ys ns : List Token} (hk : kw.kind = .kwIf) (hl : l.kind = .leftParen)
    (hcond : Grammar.Expression cond cs) (hr : r.kind = .rightParen)
    (hfyes : Forms (.stmt false yes) ys) (hyes : Begins (.stmt false yes) ys)
    (ho : other.kind = .kwElse) (hno : Begins (.stmt short no) ns) :
    Begins (.stmt short (.ifElse kw cond yes (some no)))
      (kw :: l :: (cs ++ r :: (ys ++ other :: ns))) := by
  refine begins_condition _ _ _ (fun fuel c hc => statement_if hc hk fuel) hl hcond hr
    (fun us hus fuel c hc => ?_) fun fuel e c h => branches_dry h fuel kw e
  rcases cut_cases hus with hus | ⟨ns', rfl, hns⟩
  · exact leads_bind (hyes us hus fuel c hc) fun yes _ h => afterYes_spent h fuel kw _ yes
  · refine leads_after (parses hfyes fuel c _ hc fun h => by cases h) fun c' hc' => ?_
    rw [afterYes, hc'.nextIs, ho]
    exact leads_bind (c := c'.advance.advance) (hno ns' hns fuel _ hc'.advance) fun _ _ h => h

theorem begins_loop {kw l r : Token} {cond : Expr} {body : Stmt} {short : Bool}
    {cs bs : List Token} (hk : kw.kind = .kwWhile) (hl : l.kind = .leftParen)
    (hcond : Grammar.Expression cond cs) (hr : r.kind = .rightParen)
    (hbody : Begins (.stmt short body) bs) :
    Begins (.stmt short (.loop kw cond body)) (kw :: l :: (cs ++ r :: bs)) := by
  refine begins_condition _ _ _ (fun fuel c hc => statement_while hc hk fuel) hl hcond hr
    (fun us hus fuel c hc => ?_) fun fuel e c h => ?_
  · exact leads_bind (hbody us hus fuel c hc) fun _ _ h => h
  · exact leads_bind (statement_dry h fuel) fun _ _ h => h

theorem begins_forLoop {kw l semicolon r : Token} {init : Option Stmt} {cond step : Option Expr}
    {body s : Stmt} {short : Bool} {is cs us bs : List Token} (hk : kw.kind = .kwFor)
    (hl : l.kind = .leftParen) (hi : Grammar.ForInit init is) (hcond : Grammar.Optional cond cs)
    (hs : semicolon.kind = .semicolon) (hstep : Grammar.Optional step us)
    (hr : r.kind = .rightParen) (hbody : Begins (.stmt short body) bs) :
    Begins (.stmt short s) (kw :: l :: (is ++ (cs ++ semicolon :: (us ++ r :: bs)))) := by
  refine begins_stmt fun u hu fuel c hc => ?_
  rw [statement_for hc.current hk]
  rcases List.prefix_cons_iff.1 hu with rfl | ⟨u₁, rfl, hu₁⟩
  · exact leads_bind (expect_spent hc.advance.spent _ _) fun _ _ h => forInit_spent h fuel kw
  refine leads_after (expect_delivers hc.advance hl) fun c₁ hc₁ => ?_
  rcases cut_append hu₁ with hin | ⟨u₂, rfl, hu₂⟩
  · exact leads_bind (c := c₁.advance) (forInitializer_begins hi hin hc₁ fuel) fun init _ h =>
      forCond_spent h fuel kw init
  refine leads_after (c := c₁.advance) (forInitializer_delivers hi hc₁) fun c₂ hc₂ => ?_
  rcases cut_cases hu₂ with hin | ⟨u₃, rfl, hu₃⟩
  · exact leads_bind (c := c₂.advance) (forClause_begins hcond rfl hin hc₂ fuel) fun cond _ h =>
      forStep_spent h fuel kw init cond
  refine leads_after (c := c₂.advance) (forClause_delivers hcond hs rfl rfl hc₂) fun c₃ hc₃ => ?_
  rcases cut_cases hu₃ with hin | ⟨u₄, rfl, hu₄⟩
  · exact leads_bind (c := c₃.advance) (forClause_begins hstep rfl hin hc₃ fuel) fun step _ h =>
      forBody_spent h fuel kw init cond step
  refine leads_after (c := c₃.advance) (forClause_delivers hstep hr rfl rfl hc₃) fun c₄ hc₄ => ?_
  exact leads_bind (c := c₄.advance) (hbody u₄ hu₄ fuel _ hc₄) fun _ _ h => h

theorem declaration_runsOut (h : ∀ fuel, (declared fuel c).RunsOut) (fuel : Nat) :
    (declaration fuel c).RunsOut := by
  -- the end is the place to go on after any error
  have skip : ∀ c' : Cursor, c'.Spent →
      ({ c' with rest := skipStatement c'.rest, panicking := false } : Cursor).Spent := by
    intro c' h
    have hskip : skipStatement c'.rest = c'.rest := by
      have := h.tail
      match hr : c'.rest with
      | [] => rfl
      | [t] => rfl
      | t :: v :: rest => rw [hr] at this; cases this
    rw [hskip]
    exact ⟨h.tail, h.first⟩
  cases fuel with
  | zero => rw [declaration]; trivial
  | succ fuel =>
    rw [declaration_eq, recover]
    have hd := h fuel
    cases hr : declared fuel c with
    | ok s c' =>
      rw [hr] at hd
      simp only
      split
      · exact skip c' hd
      · exact hd
    | failed c' =>
      rw [hr] at hd
      exact skip c' hd
    | exhausted => trivial

theorem declared_dry (h : c.Dry) (fuel : Nat) : (declared fuel c).RunsOut := by
  rw [declared, h.current]
  exact statement_dry h fuel

/-- A declaration whose first token is there. -/
theorem begins_decl {s : Stmt}
    (h : ∀ r, r <+: ts → ∀ fuel c, c.Before (t :: r) → (declared fuel c).RunsOut) :
    Begins (.decl s) (t :: ts) := by
  intro u hu fuel c hc
  refine declaration_runsOut (fun fuel => ?_) fuel
  rcases List.prefix_cons_iff.1 hu with rfl | ⟨r, rfl, hr⟩
  · exact declared_dry hc.dry fuel
  · exact h r hr fuel c hc

theorem begins_stmtDecl {s : Stmt} {short : Bool} (hf : Forms (.stmt short s) ts)
    (hs : Begins (.stmt short s) ts) : Begins (.decl s) ts := by
  obtain ⟨first, more, rfl, hk⟩ := stmt_starts hf
  refine begins_decl fun r hr fuel c hc => ?_
  have hstmt := hs _ (List.prefix_cons_iff.2 (.inr ⟨r, rfl, hr⟩)) fuel c hc
  suffices declared fuel c = statement fuel c by rw [this]; exact hstmt
  rw [declared, hc.current]
  cases hkind : first.kind <;> simp only [hkind] <;> rw [hkind] at hk <;> cases hk

theorem begins_varDecl {s : Stmt} (h : Grammar.VarDecl s ts) : Begins (.decl s) ts := by
  obtain ⟨keyword, more, rfl, hk⟩ := varDecl_starts h
  refine begins_decl fun r hr fuel c hc => ?_
  rw [declared, hc.current]
  simp only [hk]
  exact varDecl_begins h hr hc fuel

theorem begins_funDecl {kw : Token} {f : FunDecl} (hk : kw.kind = .kwFun)
    (hf : Forms (.function f) ts) (h : Begins (.function f) ts) :
    Begins (.decl (.funDecl f)) (kw :: ts) := by
  obtain ⟨more, rfl, hn⟩ := function_starts hf
  refine begins_decl fun r hr fuel c hc => ?_
  rw [declared, hc.current]
  simp only [hk]
  rcases List.prefix_cons_iff.1 hr with rfl | ⟨u, rfl, hu⟩
  · refine leads_bind (expect_spent hc.advance.spent _ _) fun name c' h' => ?_
    exact leads_bind (function_spent h' fuel .function name) fun _ _ h => h
  · refine leads_after (expect_delivers hc.advance hn) fun c' hc' => ?_
    exact leads_bind (h u hu fuel .function c' hc') fun _ _ h => h

/-- A function whose parameters are not all there. -/
theorem functionRest_begins {params ps u : List Token} (h : Grammar.Parameters params ps)
    (hu : u <+: ps) (hc : c.advance.Before u) (kind : Callee) (name : Token) :
    (functionRest fuel kind name c).RunsOut := by
  cases u with
  | nil => exact functionRest_spent hc.spent fuel kind name
  | cons first rest =>
    cases h with
    | absent => cases List.prefix_nil.1 hu
    | present hnames hlen =>
      have hno : c.nextIs .rightParen = false := by
        rw [hc.nextIs]
        cases hnames with
        | last hn => rw [(List.cons_prefix_cons.1 hu).1, hn]; rfl
        | more hn _ _ => rw [(List.cons_prefix_cons.1 hu).1, hn]; rfl
      rw [functionRest, hno]
      exact leads_bind (parameters_begins hnames _ fuel 0 c hu hc (by omega)) fun _ _ h =>
        functionBody_spent h fuel kind name _

/-- A function whose parameters are all there. -/
theorem functionRest_runsOut {params ps : List Token} (h : Grammar.Parameters params ps)
    (hk : t.kind = .rightParen) {kind : Callee} {name : Token}
    (hbody : ∀ c', c'.advance.Before (t :: ts) → (functionBody fuel kind name params c').RunsOut)
    (hc : c.advance.Before (ps ++ t :: ts)) : (functionRest fuel kind name c).RunsOut := by
  unfold functionRest
  cases h with
  | absent =>
    rw [hc.nextIs, hk]
    exact hbody c hc
  | present hnames hlen =>
    have hno : c.nextIs .rightParen = false := by
      cases hnames with
      | last hn => rw [hc.nextIs, hn]; rfl
      | more hn _ _ => rw [hc.nextIs, hn]; rfl
    rw [hno]
    exact leads_after (parameters_delivers hnames fuel 0 c hc (by simp [hk]) (by omega)) hbody

theorem functionBody_begins {closing opening bodyClosing : Token} {u : List Token}
    {body : List Stmt} (hk : closing.kind = .rightParen) (ho : opening.kind = .leftBrace)
    (hf : Forms (.decls body) ts) (hbody : Begins (.decls body) ts)
    (hbk : bodyClosing.kind = .rightBrace) (hu : u <+: opening :: (ts ++ [bodyClosing]))
    (hc : c.advance.Before (closing :: u)) (kind : Callee) (name : Token) (params : List Token) :
    (functionBody fuel kind name params c).RunsOut := by
  refine leads_after (expect_delivers hc hk) fun c₁ hc₁ => ?_
  rcases List.prefix_cons_iff.1 hu with rfl | ⟨r, rfl, hr⟩
  · exact leads_bind (expect_spent hc₁.spent _ _) fun _ _ h =>
      leads_bind (block_spent h fuel) fun _ _ h => h
  refine leads_after (expect_delivers hc₁ ho) fun c₂ hc₂ => ?_
  rcases cut_last hr with hr' | rfl
  · exact leads_bind (block_runsOut (fun fuel => hbody r hr' fuel _ hc₂) fuel) fun _ _ h => h
  · exact leads_after (block_delivers fuel (parses hf) hbk hc₂) fun _ h => h.advance.spent

theorem begins_function {name opening closing bodyOpening bodyClosing : Token}
    {params ps : List Token} {body : List Stmt} (ho : opening.kind = .leftParen)
    (hps : Grammar.Parameters params ps) (hk : closing.kind = .rightParen)
    (hbo : bodyOpening.kind = .leftBrace) (hf : Forms (.decls body) ts)
    (hbody : Begins (.decls body) ts) (hbk : bodyClosing.kind = .rightBrace) :
    Begins (.function (.mk name params body))
      (name :: opening :: (ps ++ closing :: bodyOpening :: (ts ++ [bodyClosing]))) := by
  intro u hu fuel kind c hc
  rcases List.prefix_cons_iff.1 hu with rfl | ⟨r, rfl, hr⟩
  · exact function_spent hc.spent fuel kind name
  cases fuel with
  | zero => rw [Parser.function]; trivial
  | succ fuel =>
    rw [function_eq]
    refine leads_after (expect_delivers hc ho) fun c₁ hc₁ => ?_
    rcases cut_cases hr with hin | ⟨r', rfl, hr'⟩
    · exact functionRest_begins hps hin hc₁ kind name
    · exact functionRest_runsOut hps hk (fun c₂ hc₂ =>
        functionBody_begins hk hbo hf hbody hbk hr' hc₂ kind name params) hc₁

theorem classBody_begins {opening closing : Token} {ms : List FunDecl} {u : List Token}
    (ho : opening.kind = .leftBrace) (hf : Forms (.methods ms) ts)
    (hms : Begins (.methods ms) ts) (hk : closing.kind = .rightBrace)
    (hu : u <+: opening :: (ts ++ [closing])) (hc : c.advance.Before u) (keyword name : Token)
    (superclass : Option Ref) : (classBody fuel keyword name superclass c).RunsOut := by
  rcases List.prefix_cons_iff.1 hu with rfl | ⟨r, rfl, hr⟩
  · exact classBody_spent hc.spent fuel keyword name superclass
  rcases cut_last hr with hin | rfl
  · refine leads_after (expect_delivers hc ho) fun c₁ hc₁ => ?_
    rw [advance_bind]
    refine leads_bind (hms r hin fuel _ hc₁) fun ms c₂ h => ?_
    rw [closeClass, h.currentIs]
    exact failHere_dry h _
  · exact runsOut_of_delivers (classBody_delivers ho (parses hf) hk hc)

/-- A class whose keyword is there, and what follows its name. -/
theorem begins_class {keyword name : Token} {s : Stmt} (hk : keyword.kind = .kwClass)
    (hn : name.kind = .ident)
    (h : ∀ r, r <+: ts → ∀ fuel c, c.advance.Before r →
      (afterClassName fuel keyword name c).RunsOut) :
    Begins (.decl s) (keyword :: name :: ts) := by
  refine begins_decl fun r hr fuel c hc => ?_
  rw [declared, hc.current]
  simp only [hk]
  cases fuel with
  | zero => rw [classDecl]; trivial
  | succ fuel =>
    rw [classDecl_eq]
    rcases List.prefix_cons_iff.1 hr with rfl | ⟨u, rfl, hu⟩
    · refine leads_bind (expect_spent hc.advance.spent _ _) fun name c₁ h => ?_
      rw [afterClassName, h.nextIs]
      exact classBody_spent h fuel keyword name none
    · exact leads_after (expect_delivers hc.advance hn) fun c₁ hc₁ => h u hu fuel c₁ hc₁

theorem begins_classDecl {kw name opening closing : Token} {ms : List FunDecl}
    (hk : kw.kind = .kwClass) (hn : name.kind = .ident) (ho : opening.kind = .leftBrace)
    (hf : Forms (.methods ms) ts) (hms : Begins (.methods ms) ts)
    (hclose : closing.kind = .rightBrace) :
    Begins (.decl (.classDecl kw name none ms)) (kw :: name :: opening :: (ts ++ [closing])) := by
  refine begins_class hk hn fun r hr fuel c hc => ?_
  have hno : c.nextIs .less = false := by
    rcases List.prefix_cons_iff.1 hr with rfl | ⟨u, rfl, -⟩
    · exact hc.spent.nextIs _
    · rw [hc.nextIs, ho]
      rfl
  rw [afterClassName, hno]
  exact classBody_begins ho hf hms hclose hr hc kw name none

theorem begins_subclassDecl {kw name less base opening closing : Token} {ms : List FunDecl}
    (hk : kw.kind = .kwClass) (hn : name.kind = .ident) (hless : less.kind = .less)
    (hbase : base.kind = .ident) (ho : opening.kind = .leftBrace)
    (hf : Forms (.methods ms) ts) (hms : Begins (.methods ms) ts)
    (hclose : closing.kind = .rightBrace) :
    Begins (.decl (.classDecl kw name (some ⟨base, none⟩) ms))
      (kw :: name :: less :: base :: opening :: (ts ++ [closing])) := by
  refine begins_class hk hn fun r hr fuel c hc => ?_
  rcases List.prefix_cons_iff.1 hr with rfl | ⟨u, rfl, hu⟩
  · rw [afterClassName, hc.spent.nextIs]
    exact classBody_spent hc.spent fuel kw name none
  rw [afterClassName, hc.nextIs, hless]
  rcases List.prefix_cons_iff.1 hu with rfl | ⟨v, rfl, hv⟩
  · exact leads_bind (c := c.advance) (expect_spent hc.advance.spent _ _) fun t _ h =>
      classBody_spent h fuel kw name (some ⟨t, none⟩)
  · exact leads_after (c := c.advance) (expect_delivers hc.advance hbase) fun c₁ hc₁ =>
      classBody_begins ho hf hms hclose hv hc₁ kw name _

theorem begins_noDecls : Begins (.decls []) [] := by
  intro u hu fuel c hc
  cases List.prefix_nil.1 hu
  exact declarations_dry hc.dry fuel

theorem decls_noElse_part {ss : List Stmt} (h : Forms (.decls ss) ts) (hu : u <+: ts) :
    NoElse u := by
  intro t ht
  obtain ⟨v, rfl⟩ := hu
  have hnil : NoElse [] := fun _ ht => by cases ht
  refine decls_noElse h hnil t ?_
  cases u with
  | nil => cases ht
  | cons => exact ht

theorem begins_decls {s : Stmt} {ss : List Stmt} {rest : List Token} (hf : Forms (.decl s) ts)
    (hfs : Forms (.decls ss) rest) (hs : Begins (.decl s) ts) (hss : Begins (.decls ss) rest) :
    Begins (.decls (s :: ss)) (ts ++ rest) := by
  intro u hu fuel c hc
  obtain ⟨first, more, rfl, -, hk⟩ := decl_starts hf
  rcases List.prefix_cons_iff.1 hu with rfl | ⟨r, rfl, -⟩
  · exact declarations_dry hc.dry fuel
  cases fuel with
  | zero => rw [declarations]; trivial
  | succ fuel =>
    rw [declarations_eq, hc.current]
    simp only [beq_false_of_ne hk, Bool.false_eq_true, if_false]
    rcases cut_append hu with hin | ⟨u, heq, hrest⟩
    · refine leads_bind (hs _ hin fuel c hc) fun s c₁ h => ?_
      rw [advance_bind]
      exact leads_bind (declarations_dry h.advance fuel) fun _ _ h => h
    · rw [heq] at hc
      refine leads_after (parses hf fuel c u hc (decls_noElse_part hfs hrest)) fun c₁ hc₁ => ?_
      rw [advance_bind]
      exact leads_bind (hss u hrest fuel _ hc₁) fun _ _ h => h

theorem begins_noMethods : Begins (.methods []) [] := by
  intro u hu fuel c hc
  cases List.prefix_nil.1 hu
  exact methods_dry hc.dry fuel

theorem begins_methods {f : FunDecl} {fs : List FunDecl} {rest : List Token}
    (hf : Forms (.function f) ts) (h : Begins (.function f) ts)
    (hs : Begins (.methods fs) rest) : Begins (.methods (f :: fs)) (ts ++ rest) := by
  intro u hu fuel c hc
  obtain ⟨more, rfl, hn⟩ := function_starts hf
  rcases List.prefix_cons_iff.1 hu with rfl | ⟨r, rfl, hr⟩
  · exact methods_dry hc.dry fuel
  cases fuel with
  | zero => rw [Parser.methods]; trivial
  | succ fuel =>
    rw [methods_eq, hc.current]
    simp only [hn]
    rcases cut_append hr with hin | ⟨v, rfl, hv⟩
    · refine leads_bind (h r hin fuel .method c hc.advance) fun m c₁ h => ?_
      rw [advance_bind]
      exact leads_bind (methods_dry h.advance fuel) fun _ _ h => h
    · refine leads_after (parses hf fuel .method c v hc.advance) fun c₁ hc₁ => ?_
      rw [advance_bind]
      exact leads_bind (hs v hv fuel _ hc₁) fun _ _ h => h

/-- **On a beginning of a derived phrase the parser runs out of tokens.** -/
theorem begins {p : Grammar.Phrase} (h : Forms p ts) : Begins p ts := by
  induction h with
  | expr he => exact begins_exprStmt he
  | print hk he hs => exact begins_print hk he hs
  | ret hk he hs => exact begins_ret hk he hs
  | block ho hf hk ih => exact begins_block ho hf ih hk
  | ifShort hk hl hcond hr _ ih => exact begins_ifShort hk hl hcond hr ih
  | ifElse hk hl hcond hr hf ho _ ihy ihn => exact begins_ifElse hk hl hcond hr hf ihy ho ihn
  | loop hk hl hcond hr _ ih => exact begins_loop hk hl hcond hr ih
  | forLoop hk hl hi hcond hs hstep hr _ _ ih => exact begins_forLoop hk hl hi hcond hs hstep hr ih
  | stmtDecl hf ih => exact begins_stmtDecl hf ih
  | varDecl hv => exact begins_varDecl hv
  | funDecl hk hf ih => exact begins_funDecl hk hf ih
  | classDecl hk hn ho hf hclose ih => exact begins_classDecl hk hn ho hf ih hclose
  | subclassDecl hk hn hless hbase ho hf hclose ih =>
    exact begins_subclassDecl hk hn hless hbase ho hf ih hclose
  | noDecls => exact begins_noDecls
  | decls hs hss ih ihs => exact begins_decls hs hss ih ihs
  | function _ ho hps hk hbo hf hbk ih => exact begins_function ho hps hk hbo hf ih hbk
  | noMethods => exact begins_noMethods
  | methods hf _ ih ihs => exact begins_methods hf ih ihs

theorem program_dry (h : c.Dry) (fuel : Nat) : (program fuel c).Leads Cursor.Dry := by
  cases fuel with
  | zero => rw [program]; trivial
  | succ fuel =>
    rw [program_eq, h.current]
    exact h

/-- A beginning of a program runs out of tokens. -/
theorem program_begins : ∀ (ss : List Stmt) {ts u : List Token}, Grammar.Program ss ts →
    u <+: ts → ∀ (fuel : Nat) (c : Cursor), c.Before u → (program fuel c).Leads Cursor.Dry
  | _, _, [], _, _, fuel, _, hc => program_dry hc.dry fuel
  | _, _, _ :: _, _, _, 0, _, _ => by rw [program]; trivial
  | [], _, _ :: _, h, hu, _ + 1, _, _ => by
    cases h
    cases List.prefix_nil.1 hu
  | s :: ss, _, first :: r, h, hu, fuel + 1, c, hc => by
    cases h with
    | decls hs hss =>
      rw [program_eq, hc.current]
      simp only
      rcases cut_append hu with hin | ⟨v, heq, hv⟩
      · refine leads_bind (begins hs _ hin fuel c hc) fun s c₁ h => ?_
        rw [advance_bind]
        exact leads_bind (program_dry h.advance fuel) fun _ _ h => h
      · rw [heq] at hc
        refine leads_after (parses hs fuel c v hc (decls_noElse_part hss hv)) fun c₁ hc₁ => ?_
        rw [advance_bind]
        exact leads_bind (program_begins ss hss hv fuel _ hc₁) fun _ _ h => h

end Parser

/-- **The first complaint about the beginning of a program is that it ends.** -/
theorem Program.ofTokens_begins {ss : List Stmt} {ts u : List Token} (h : Grammar.Program ss ts)
    (hu : u <+: ts) (endLine : Nat) :
    Completeness.onlyEnded (ofTokens u endLine).errors = true := by
  have hends := ofTokens_ends u endLine
  have hruns := Parser.program_begins ss h hu (fuelFor u.length) (start u endLine) ⟨rfl, rfl, rfl⟩
  unfold ofTokens
  cases hr : Parser.program (fuelFor u.length) (start u endLine) with
  | ok ss c => rw [hr] at hruns; exact Cursor.endsFirst_iff.1 hruns.first
  | failed c => rw [hr] at hruns; exact Cursor.endsFirst_iff.1 hruns.first
  | exhausted => exact absurd hr hends

end Lox
