import Lox.Proofs.Parse.Carrying
import Lox.Proofs.Parse.Soundness
/-!
# The parser accepts what is grammatical

From a cursor without errors that stands before the tokens of a phrase, the parser of that phrase
delivers its tree and moves to the phrase's last token, unless its fuel runs out. What comes
behind must not extend the phrase: no operator that binds too tightly behind an expression, no
`else` behind a statement that could take it.
-/

namespace Lox

/-- The cursor stands before these tokens and has met no errors. -/
structure Cursor.Before (c : Cursor) (ts : List Token) : Prop where
  rest : c.rest = ts
  errors : c.errors = []
  panicking : c.panicking = false

/-- The parser gives `a` and leaves `tail` behind the token it ends on, unless its fuel runs
out. -/
def Parsed.Delivers {α : Type} (r : Parsed α) (a : α) (tail : List Token) : Prop :=
  r = .exhausted ∨ ∃ c, r = .ok a c ∧ c.advance.Before tail

namespace Cursor.Before

variable {c : Cursor} {t : Token} {ts : List Token}

theorem advance (h : c.Before (t :: ts)) : c.advance.Before ts :=
  ⟨by simp [Cursor.advance, h.rest], h.errors, h.panicking⟩

theorem current (h : c.Before (t :: ts)) : c.current? = some t := by
  simp [Cursor.current?, h.rest]

theorem next (h : c.advance.Before (t :: ts)) : c.next? = some t := by
  have := h.rest
  simp only [Cursor.advance] at this
  simp [Cursor.next?, this]

theorem nextIs (h : c.advance.Before (t :: ts)) (kind : Kind) :
    c.nextIs kind = (t.kind == kind) := by
  simp [Cursor.nextIs, h.next]

theorem currentIs (h : c.Before (t :: ts)) (kind : Kind) :
    c.currentIs kind = (t.kind == kind) := by
  simp [Cursor.currentIs, h.current]

end Cursor.Before

namespace Parser

open Grammar (Spells Tier Above StopsAt stopsAt_of_none stopsAt_cons Forms)

variable {α β : Type} {fuel : Nat} {c : Cursor} {t : Token} {ts tail : List Token}

theorem delivers_ok {a : α} (h : c.advance.Before tail) : (Parsed.ok a c).Delivers a tail :=
  .inr ⟨c, rfl, h⟩

/-- A parser that comes to `a`, or runs out of fuel, and then another one. -/
theorem yields_bind {p : Parser α} {f : α → Parser β} {a : α} {b : β} {P Q : Cursor → Prop}
    (h : p c = .exhausted ∨ ∃ c', p c = .ok a c' ∧ P c')
    (hf : ∀ c', P c' → f a c' = .exhausted ∨ ∃ c'', f a c' = .ok b c'' ∧ Q c'') :
    (p >>= f) c = .exhausted ∨ ∃ c'', (p >>= f) c = .ok b c'' ∧ Q c'' := by
  rcases h with h | ⟨c', h, hc'⟩
  · left
    rw [bind_apply, h]
  · rw [bind_of_ok h]
    exact hf c' hc'

theorem delivers_bind {p : Parser α} {f : α → Parser β} {a : α} {b : β} {tail' : List Token}
    (h : (p c).Delivers a tail) (hf : ∀ c', c'.advance.Before tail → (f a c').Delivers b tail') :
    ((p >>= f) c).Delivers b tail' :=
  yields_bind h hf

theorem expect_delivers {kind : Kind} {fault : SyntaxFault} (h : c.advance.Before (t :: tail))
    (hk : t.kind = kind) : (expect kind fault c).Delivers t tail := by
  rw [expect_of_next h.next hk]
  exact delivers_ok h.advance

theorem expect_then_delivers {kind : Kind} {fault : SyntaxFault} {f : Token → α}
    (h : c.advance.Before (t :: tail)) (hk : t.kind = kind) :
    ((expect kind fault >>= fun t => pure (f t)) c).Delivers (f t) tail :=
  delivers_bind (expect_delivers h hk) fun _ hc => delivers_ok hc

theorem limit_of_lt {count : Nat} {site : Site} {fault : SyntaxFault}
    (h : count < maxArguments) : limit count site fault c = c := by
  simp [limit, Nat.not_le.2 h]

/-! ## First tokens -/

/-- Whether an expression can start with a token of this kind. -/
def startsOperand : Kind → Bool
  | .ident | .number | .string | .kwTrue | .kwFalse | .kwNil | .bang | .minus | .leftParen
  | .kwThis | .kwSuper => true
  | _ => false

theorem startsOperand_of_constant {v : Literal} (h : Grammar.constant? t = some v) :
    startsOperand t.kind = true := by
  unfold Grammar.constant? at h
  split at h <;> cases h <;> rename_i hk <;> rw [hk] <;> rfl

theorem startsOperand_of_unaryOp {u : UnaryOp} (h : Grammar.unaryOp? t.kind = some u) :
    startsOperand t.kind = true := by
  unfold Grammar.unaryOp? at h
  split at h <;> cases h <;> rename_i hk <;> rw [hk] <;> rfl

theorem spells_starts {p : Grammar.ExprPhrase} (h : Spells p ts) :
    ∃ t more, ts = t :: more ∧ startsOperand t.kind = true := by
  -- phrases that begin with another one begin with its first token
  have grow : ∀ {ls ms : List Token}, (∃ t more, ls = t :: more ∧ startsOperand t.kind = true) →
      ∃ t more, ls ++ ms = t :: more ∧ startsOperand t.kind = true := by
    rintro ls ms ⟨t, more, rfl, ht⟩
    exact ⟨t, more ++ ms, rfl, ht⟩
  induction h with
  | tighter _ _ ih => exact ih
  | lastArgument _ ih => exact ih
  | assignName hk _ _ _ => exact ⟨_, _, rfl, by rw [hk]; rfl⟩
  | assignProperty _ _ _ _ _ ih _ => exact grow ih
  | operator _ _ _ _ ih _ => exact grow ih
  | unary hu _ _ => exact ⟨_, _, rfl, startsOperand_of_unaryOp hu⟩
  | callEmpty _ _ _ ih => exact grow ih
  | call _ _ _ _ _ ih _ => exact grow ih
  | property _ _ _ ih => exact grow ih
  | constant hc => exact ⟨_, _, rfl, startsOperand_of_constant hc⟩
  | name hk => exact ⟨_, _, rfl, by rw [hk]; rfl⟩
  | this hk => exact ⟨_, _, rfl, by rw [hk]; rfl⟩
  | super hk _ _ => exact ⟨_, _, rfl, by rw [hk]; rfl⟩
  | group hk _ _ _ => exact ⟨_, _, rfl, by rw [hk]; rfl⟩
  | argument _ _ _ ih _ => exact grow ih

/-! ## Expressions -/

/-- The parser has come to `left` and still has to look for the operators behind it. -/
def Resumes (level : Precedence) (r : Parsed Expr) (left : Expr) (tail : List Token) : Prop :=
  r = .exhausted ∨ ∃ fuel c, r = operators fuel level left c ∧ c.advance.Before tail

theorem resumes_of_operand {level : Precedence} {left : Expr}
    (h : ∀ fuel, (operand (fuel + 1) c).Delivers left tail) :
    Resumes level (expression fuel level c) left tail := by
  cases fuel with
  | zero => left; rw [expression]; rfl
  | succ fuel =>
    rw [expression_eq]
    cases fuel with
    | zero => left; rw [bind_apply, operand]; rfl
    | succ fuel =>
      rcases h fuel with h | ⟨c', h, hc'⟩
      · left; rw [bind_apply, h]
      · right; exact ⟨_, c', bind_of_ok h, hc'⟩

/-- One operator taken in by the operand before it. -/
theorem Resumes.operator {level : Precedence} {r : Parsed Expr} {left left' : Expr}
    (h : Resumes level r left (t :: ts)) (op : Operator) (hop : Operator.ofKind? t.kind = some op)
    (hrank : level.rank < op.precedence.rank)
    (happly : ∀ fuel c, c.advance.Before ts → (apply (fuel + 1) op t left c).Delivers left' tail) :
    Resumes level r left' tail := by
  rcases h with h | ⟨fuel, c, rfl, hc⟩
  · exact .inl h
  · cases fuel with
    | zero => left; rw [operators]; rfl
    | succ fuel =>
      have heq : operators (fuel + 1) level left c =
          (apply fuel op t left >>= operators fuel level) c.advance := by
        rw [operators_eq, hc.next]
        simp only [hop, hrank, if_true]
      rw [heq]
      cases fuel with
      | zero => left; rw [bind_apply, apply]; rfl
      | succ fuel =>
        rcases happly fuel c.advance hc.advance with ha | ⟨c', ha, hc'⟩
        · left; rw [bind_apply, ha]
        · right; exact ⟨_, c', bind_of_ok ha, hc'⟩

/-- An expression ends where no operator above its level follows. -/
theorem Resumes.delivers {level : Precedence} {r : Parsed Expr} {e : Expr}
    (h : Resumes level r e tail) (hs : StopsAt level.rank tail) : r.Delivers e tail := by
  rcases h with h | ⟨fuel, c, rfl, hc⟩
  · exact .inl h
  · cases fuel with
    | zero => left; rw [operators]; rfl
    | succ fuel =>
      refine .inr ⟨c, ?_, hc⟩
      rw [operators_eq]
      have hnext : c.next? = tail.head? := by rw [← hc.rest]; rfl
      cases hn : c.next? with
      | none => rfl
      | some t =>
        cases ho : Operator.ofKind? t.kind with
        | none => simp only [ho]
        | some op =>
          have := hs t op (hnext ▸ hn) ho
          simp only [ho, Nat.not_lt.2 this, if_false]

/-- What the parser does on the tokens of a phrase. -/
def ExprParses : Grammar.ExprPhrase → List Token → Prop
  | .tier t e, ts => ∀ fuel level c tail, c.Before (ts ++ tail) → Above level t →
      level.rank ≤ Precedence.unary.rank → StopsAt t.follow tail →
      Resumes level (expression fuel level c) e tail
  | .arguments es, ts => ∀ fuel count c closing tail, c.advance.Before (ts ++ closing :: tail) →
      closing.kind = .rightParen → count + es.length ≤ maxArguments →
      (arguments fuel count c).Delivers es (closing :: tail)

/-- An expression that stands before a token that is no operator. -/
theorem expression_delivers {e : Expr} (h : ExprParses (.tier .assignment e) ts)
    (hc : c.Before (ts ++ t :: tail)) (ht : Operator.ofKind? t.kind = none) :
    (expression fuel .lowest c).Delivers e (t :: tail) :=
  (h fuel .lowest c _ hc (.inl (by decide)) (by decide) (stopsAt_of_none ht)).delivers
    (stopsAt_of_none ht)

theorem expression_then_delivers {kind : Kind} {fault : SyntaxFault} {f : Expr → α} {e : Expr}
    (h : ExprParses (.tier .assignment e) ts) (hc : c.Before (ts ++ t :: tail)) (hk : t.kind = kind)
    (ht : Operator.ofKind? kind = none) :
    ((expression fuel .lowest >>= fun e => expect kind fault >>= fun _ => pure (f e)) c).Delivers
      (f e) tail :=
  delivers_bind (expression_delivers h hc (hk ▸ ht)) fun _ hc' =>
    expect_then_delivers (f := fun _ => f e) hc' hk

/-- The value of an assignment takes in everything behind the equals sign. -/
theorem apply_assign_delivers {left v e : Expr} (hv : ExprParses (.tier .assignment v) ts)
    (hs : StopsAt Tier.assignment.follow tail) (hc : c.advance.Before (ts ++ tail))
    (he : ∀ c, assignment t left v c = .ok e c) :
    (apply (fuel + 1) .assign t left c).Delivers e tail := by
  rw [apply_assign]
  refine delivers_bind ((hv fuel .lowest _ tail hc (.inl (by decide)) (by decide) hs).delivers hs)
    fun c' hc' => ?_
  rw [he]
  exact delivers_ok hc'

/-- The right operand of an operator ends before the next operator of the same tier. -/
theorem apply_node_delivers {tier u : Tier} {node : Token → Expr → Expr → Expr} {op : Operator}
    {l r : Expr} (hn : tier.node? t.kind = some node) (hop : Operator.ofKind? t.kind = some op)
    (hu : tier.tighter? = some u) (hr : ExprParses (.tier u r) ts)
    (hs : StopsAt tier.follow tail) (hc : c.advance.Before (ts ++ tail)) :
    (apply (fuel + 1) op t l c).Delivers (node t l r) tail := by
  obtain ⟨op', ho', rfl, hnode⟩ := Tier.node_cases hn
  cases hop.symm.trans ho'
  have hrank := Tier.rank_ofOperator op
  have hlevel : op.precedence.rank ≤ 8 := by
    rcases hnode with ⟨b, rfl, -⟩ | ⟨l, rfl, -⟩
    · cases b <;> decide
    · cases l <;> decide
  have hright : (expression fuel op.precedence c.advance).Delivers r tail := by
    have hstop : StopsAt op.precedence.rank tail :=
      hs.mono (by rw [← hrank]; exact Tier.follow_le_rank _)
    refine (hr fuel op.precedence _ tail hc (.inl ?_) (Nat.le_trans hlevel (by decide))
      (hs.mono (Tier.follow_mono hu))).delivers hstop
    have := Tier.rank_of_tighter hu
    omega
  rcases hnode with ⟨b, rfl, rfl⟩ | ⟨l, rfl, rfl⟩
  · rw [apply_binary]
    exact delivers_bind hright fun _ hc' => delivers_ok hc'
  · rw [apply_logical]
    exact delivers_bind hright fun _ hc' => delivers_ok hc'

theorem apply_call_delivers {closing : Token} {f : Expr} {args : List Expr}
    (hargs : ExprParses (.arguments args) ts) (hstart : ∃ u more, ts = u :: more ∧
      startsOperand u.kind = true) (hlen : args.length ≤ maxArguments)
    (hk : closing.kind = .rightParen) (hc : c.advance.Before (ts ++ closing :: tail)) :
    (apply (fuel + 1) .call t f c).Delivers (.call closing f args) tail := by
  obtain ⟨u, more, rfl, hu⟩ := hstart
  have hno : c.nextIs .rightParen = false := by
    rw [hc.nextIs]
    cases hkind : u.kind <;> simp_all [startsOperand]
  rw [apply_call, hno]
  exact delivers_bind (hargs fuel 0 c closing tail hc hk (by omega)) fun _ hc' =>
    expect_then_delivers hc' hk

theorem arguments_delivers {e : Expr} {es : List Expr} {closing : Token} {more : List Token}
    {count : Nat} (he : ExprParses (.tier .assignment e) ts)
    (hc : c.advance.Before (ts ++ more ++ closing :: tail)) (hk : closing.kind = .rightParen)
    (hlen : count + (e :: es).length ≤ maxArguments)
    (hmore : (es = [] ∧ more = []) ∨ ∃ comma rest, more = comma :: rest ∧ comma.kind = .comma ∧
      ExprParses (.arguments es) rest) :
    (arguments fuel count c).Delivers (e :: es) (closing :: tail) := by
  cases fuel with
  | zero => left; rw [arguments]; rfl
  | succ fuel =>
    rw [arguments_eq]
    have hlt : count < maxArguments := by simp at hlen; omega
    rcases hmore with ⟨rfl, rfl⟩ | ⟨comma, rest, rfl, hcomma, hrest⟩
    · rw [List.append_nil] at hc
      refine delivers_bind (expression_delivers he hc (by rw [hk]; rfl)) fun c' hc' => ?_
      simp only [afterArgument, limit_of_lt hlt]
      rw [hc'.nextIs, hk]
      exact delivers_ok hc'
    · rw [List.append_assoc, List.cons_append] at hc
      refine delivers_bind (expression_delivers he hc (by rw [hcomma]; rfl)) fun c' hc' => ?_
      simp only [afterArgument, limit_of_lt hlt]
      rw [hc'.nextIs, hcomma]
      refine delivers_bind (c := c'.advance)
        (hrest fuel _ _ closing tail hc'.advance hk (by simp at hlen; omega)) fun _ hc'' => ?_
      exact delivers_ok hc''

/-- Phrases of one token. -/
theorem exprParses_token {e : Expr}
    (h : ∀ fuel c, c.current? = some t → operand (fuel + 1) c = .ok e c) :
    ExprParses (.tier .primary e) [t] := by
  intro fuel level c tail hc _ _ _
  refine resumes_of_operand fun fuel => ?_
  rw [h fuel c hc.current]
  exact delivers_ok hc.advance

theorem exprParses_constant {v : Literal} (h : Grammar.constant? t = some v) :
    ExprParses (.tier .primary (.literal t v)) [t] := by
  refine exprParses_token fun fuel c hc => ?_
  rw [operand_eq, hc]
  unfold Grammar.constant? at h
  split at h <;> cases h <;> rename_i hk <;> simp only [hk]

theorem exprParses_assignName {name eq : Token} {v : Expr} (hk : name.kind = .ident)
    (heq : eq.kind = .assign) (hv : ExprParses (.tier .assignment v) ts) :
    ExprParses (.tier .assignment (.assign ⟨name, none⟩ v)) (name :: eq :: ts) := by
  intro fuel level c tail hc hl _ hs
  have hname : Resumes level (expression fuel level c) (.var ⟨name, none⟩)
      (eq :: (ts ++ tail)) := by
    refine resumes_of_operand fun fuel => ?_
    rw [operand_eq, hc.current]
    simp only [hk]
    exact delivers_ok hc.advance
  have hlow : level.rank < Tier.assignment.rank := Or.resolve_right hl (by decide)
  exact hname.operator .assign (by rw [heq]; rfl) hlow fun fuel c' hc' =>
    apply_assign_delivers hv hs hc' fun _ => rfl

/-- An operator of the tightest tier, behind what it is applied to. -/
theorem resumes_suffix {level : Precedence} {o e : Expr} {os : List Token}
    (h : ExprParses (.tier .call o) os) (hc : c.Before (os ++ t :: ts))
    (hlevel : level.rank ≤ Precedence.unary.rank) (op : Operator)
    (hop : Operator.ofKind? t.kind = some op) (hrank : Precedence.unary.rank < op.precedence.rank)
    (happly : ∀ fuel c, c.advance.Before ts → (apply (fuel + 1) op t o c).Delivers e tail) :
    Resumes level (expression fuel level c) e tail :=
  (h fuel level c _ hc (.inr (by decide)) hlevel (Grammar.stopsAt_call _)).operator op hop
    (Nat.lt_of_le_of_lt hlevel hrank) happly

theorem exprParses_assignProperty {dot name eq : Token} {o v : Expr} {os : List Token}
    (ho : ExprParses (.tier .call o) os) (hdot : dot.kind = .dot) (hk : name.kind = .ident)
    (heq : eq.kind = .assign) (hv : ExprParses (.tier .assignment v) ts) :
    ExprParses (.tier .assignment (.set o name v)) (os ++ dot :: name :: eq :: ts) := by
  intro fuel level c tail hc hl hlevel hs
  rw [List.append_assoc] at hc
  have hget : Resumes level (expression fuel level c) (.get o name) (eq :: (ts ++ tail)) := by
    refine resumes_suffix ho hc hlevel .get (by rw [hdot]; rfl) (by decide) fun fuel c' hc' => ?_
    rw [apply_get]
    exact expect_then_delivers hc' hk
  have hlow : level.rank < Tier.assignment.rank := Or.resolve_right hl (by decide)
  exact hget.operator .assign (by rw [heq]; rfl) hlow fun fuel c' hc' =>
    apply_assign_delivers hv hs hc' fun _ => rfl

theorem exprParses_operator {tier u : Tier} {op : Token} {node : Token → Expr → Expr → Expr}
    {l r : Expr} {ls rs : List Token} (hn : tier.node? op.kind = some node)
    (hu : tier.tighter? = some u) (hl : ExprParses (.tier tier l) ls)
    (hr : ExprParses (.tier u r) rs) : ExprParses (.tier tier (node op l r)) (ls ++ op :: rs) := by
  intro fuel level c tail hc habove hlevel hs
  obtain ⟨o, ho, rfl, hnode⟩ := Tier.node_cases hn
  have hrank := Tier.rank_ofOperator o
  have hfollow : (Tier.ofOperator o).follow = o.precedence.rank ∧ o.precedence.rank ≤ 8 := by
    rcases hnode with ⟨b, rfl, -⟩ | ⟨l, rfl, -⟩
    · cases b <;> decide
    · cases l <;> decide
  rw [List.append_assoc] at hc
  have hleft := hl fuel level c _ hc habove hlevel (stopsAt_cons ho (Nat.le_of_eq hfollow.1.symm))
  refine hleft.operator _ ho ?_ fun fuel c' hc' => apply_node_delivers hn ho hu hr hs hc'
  have hlow : ¬ Precedence.unary.rank ≤ (Tier.ofOperator o).rank := by
    rw [hrank]
    exact Nat.not_le.2 (Nat.lt_of_le_of_lt hfollow.2 (by decide))
  rw [← hrank]
  exact Or.resolve_right habove hlow

theorem exprParses_unary {op : Token} {u : UnaryOp} {e : Expr}
    (hu : Grammar.unaryOp? op.kind = some u) (he : ExprParses (.tier .unary e) ts) :
    ExprParses (.tier .unary (.unary u op e)) (op :: ts) := by
  intro fuel level c tail hc _ _ hs
  refine resumes_of_operand fun fuel => ?_
  have hoperand : operand (fuel + 1) c = unary fuel u op c := by
    rw [operand_eq, hc.current]
    unfold Grammar.unaryOp? at hu
    split at hu <;> cases hu <;> rename_i hk <;> simp only [hk]
  rw [hoperand]
  cases fuel with
  | zero => left; rw [Parser.unary]; rfl
  | succ fuel =>
    rw [unary_eq]
    exact delivers_bind ((he fuel .unary _ tail hc.advance (.inr (by decide)) (by decide)
      hs).delivers hs) fun _ hc' => delivers_ok hc'

/-- **The parser follows every derivation of an expression.** -/
theorem exprParses {p : Grammar.ExprPhrase} (h : Spells p ts) : ExprParses p ts := by
  induction h with
  | tighter hu _ ih =>
    intro fuel level c tail hc hl hlevel hs
    exact ih fuel level c tail hc (hl.tighter hu) hlevel (hs.mono (Tier.follow_mono hu))
  | assignName hk heq _ ih => exact exprParses_assignName hk heq ih
  | assignProperty _ hdot hk heq _ iho ihv => exact exprParses_assignProperty iho hdot hk heq ihv
  | operator hn hu _ _ ihl ihr => exact exprParses_operator hn hu ihl ihr
  | unary hu _ ih => exact exprParses_unary hu ih
  | callEmpty _ hopen hclose ih =>
    intro fuel level c tail hc _ hlevel _
    rw [List.append_assoc] at hc
    refine resumes_suffix ih hc hlevel .call (by rw [hopen]; rfl) (by decide) fun fuel c' hc' => ?_
    rw [apply_call, hc'.nextIs, hclose]
    exact expect_then_delivers hc' hclose
  | call _ hopen hargs hlen hclose ihf ihargs =>
    intro fuel level c tail hc _ hlevel _
    rw [List.append_assoc, List.cons_append, List.append_assoc] at hc
    exact resumes_suffix ihf hc hlevel .call (by rw [hopen]; rfl) (by decide) fun fuel c' hc' =>
      apply_call_delivers ihargs (spells_starts hargs) hlen hclose hc'
  | property _ hdot hk ih =>
    intro fuel level c tail hc _ hlevel _
    rw [List.append_assoc] at hc
    refine resumes_suffix ih hc hlevel .get (by rw [hdot]; rfl) (by decide) fun fuel c' hc' => ?_
    rw [apply_get]
    exact expect_then_delivers hc' hk
  | constant hv => exact exprParses_constant hv
  | name hk =>
    refine exprParses_token fun fuel c hc => ?_
    rw [operand_eq, hc]
    simp only [hk]
  | this hk =>
    refine exprParses_token fun fuel c hc => ?_
    rw [operand_eq, hc]
    simp only [hk]
  | super hk hdot hn =>
    intro fuel level c tail hc _ _ _
    refine resumes_of_operand fun fuel => ?_
    rw [operand_eq, hc.current]
    simp only [hk]
    exact delivers_bind (expect_delivers hc.advance hdot) fun _ hc' => expect_then_delivers hc' hn
  | group hopen _ hclose ih =>
    intro fuel level c tail hc _ _ _
    refine resumes_of_operand fun fuel => ?_
    rw [operand_eq, hc.current]
    simp only [hopen]
    rw [List.cons_append, List.append_assoc] at hc
    exact expression_then_delivers (c := c.advance) ih hc.advance hclose rfl
  | lastArgument _ ih =>
    intro fuel count c closing tail hc hk hlen
    exact arguments_delivers ih (show c.advance.Before (_ ++ [] ++ _) by simpa using hc) hk hlen
      (.inl ⟨rfl, rfl⟩)
  | argument _ hcomma _ ih ihs =>
    intro fuel count c closing tail hc hk hlen
    exact arguments_delivers ih (by simpa using hc) hk hlen (.inr ⟨_, _, rfl, hcomma, ihs⟩)

/-! ## Pieces of statements -/

theorem parameters_delivers {names : List Token} (h : Grammar.Names names ts) :
    ∀ (fuel count : Nat) (c : Cursor), c.advance.Before (ts ++ t :: tail) → t.kind ≠ .comma →
    count + names.length ≤ maxArguments →
    (parameters fuel count c).Delivers names (t :: tail) := by
  induction h with
  | last hk =>
    intro fuel count c hc ht hlen
    cases fuel with
    | zero => left; rw [parameters]; rfl
    | succ fuel =>
      rw [parameters_eq]
      refine delivers_bind (expect_delivers hc hk) fun c' hc' => ?_
      simp only [afterParameter, limit_of_lt hlen]
      rw [hc'.nextIs, beq_false_of_ne ht]
      exact delivers_ok hc'
  | more hk hcomma _ ih =>
    intro fuel count c hc ht hlen
    cases fuel with
    | zero => left; rw [parameters]; rfl
    | succ fuel =>
      rw [parameters_eq]
      refine delivers_bind (expect_delivers hc hk) fun c' hc' => ?_
      rw [List.length_cons] at hlen
      simp only [afterParameter, limit_of_lt (c := c') (show count < maxArguments by omega)]
      rw [hc'.nextIs, hcomma]
      exact delivers_bind (c := c'.advance) (ih fuel _ _ hc'.advance ht (by omega))
        fun _ hc'' => delivers_ok hc''

theorem varDecl_delivers {s : Stmt} {keyword : Token} (h : Grammar.VarDecl s (keyword :: ts))
    (hc : c.Before (keyword :: ts ++ tail)) : (varDecl fuel keyword c).Delivers s tail := by
  rw [varDecl_eq]
  cases h with
  | plain _ hn hs =>
    refine delivers_bind (expect_delivers hc.advance hn) fun c' hc' => ?_
    unfold afterVarName
    rw [hc'.nextIs, hs]
    exact expect_then_delivers hc' hs
  | init _ hn heq he hs =>
    rw [List.cons_append, List.cons_append, List.cons_append, List.append_assoc] at hc
    refine delivers_bind (expect_delivers hc.advance hn) fun c' hc' => ?_
    unfold afterVarName
    rw [hc'.nextIs, heq]
    exact expression_then_delivers (c := c'.advance.advance) (exprParses he) hc'.advance hs rfl

theorem exprStmt_delivers (fuel : Nat) {s : Stmt} (h : Grammar.ExprStmt s ts)
    (hc : c.Before (ts ++ tail)) : (exprStmt fuel c).Delivers s tail := by
  cases h with
  | mk he hs =>
    rw [exprStmt_eq, hc.current]
    rw [List.cons_append, List.append_assoc] at hc
    exact expression_then_delivers (exprParses he) hc hs rfl

theorem condition_delivers {opening closing : SyntaxFault} {l r : Token} {e : Expr}
    (hl : l.kind = .leftParen) (he : Grammar.Expression e ts) (hr : r.kind = .rightParen)
    (hc : c.advance.Before (l :: (ts ++ r :: tail))) :
    (condition fuel opening closing c).Delivers e tail := by
  rw [condition]
  refine delivers_bind (expect_delivers hc hl) fun c' hc' => ?_
  rw [advance_bind]
  exact expression_then_delivers (exprParses he) hc' hr rfl

theorem exprStmt_starts {s : Stmt} (h : Grammar.ExprStmt s ts) :
    ∃ t more, ts = t :: more ∧ startsOperand t.kind = true := by
  cases h with
  | mk he _ =>
    obtain ⟨u, more, hu, hk⟩ := spells_starts he
    cases hu
    exact ⟨_, _, rfl, hk⟩

theorem varDecl_starts {s : Stmt} (h : Grammar.VarDecl s ts) :
    ∃ t more, ts = t :: more ∧ t.kind = .kwVar := by
  cases h with
  | plain hk _ _ => exact ⟨_, _, rfl, hk⟩
  | init hk _ _ _ _ => exact ⟨_, _, rfl, hk⟩

theorem forInitializer_delivers {init : Option Stmt} (h : Grammar.ForInit init ts)
    (hc : c.Before (ts ++ tail)) : (forInitializer fuel c).Delivers init tail := by
  rw [forInitializer_eq]
  cases h with
  | absent hk =>
    rw [hc.current]
    simp only [hk]
    exact delivers_ok hc.advance
  | var hv =>
    obtain ⟨keyword, more, rfl, hk⟩ := varDecl_starts hv
    rw [hc.current]
    simp only [hk]
    exact delivers_bind (varDecl_delivers hv hc) fun _ hc' => delivers_ok hc'
  | expr he =>
    have hexpr := delivers_bind (f := fun s => pure (some s)) (exprStmt_delivers fuel he hc)
      fun _ hc' => delivers_ok hc'
    obtain ⟨u, more, rfl, hk⟩ := exprStmt_starts he
    rw [hc.current]
    cases hkind : u.kind <;> simp only [hkind, startsOperand, reduceCtorEq] at hk ⊢ <;> exact hexpr

theorem forClause_delivers {ending : Kind} {fault : SyntaxFault} {e : Option Expr}
    (h : Grammar.Optional e ts) (hk : t.kind = ending) (hop : Operator.ofKind? ending = none)
    (hstart : startsOperand ending = false) (hc : c.Before (ts ++ t :: tail)) :
    (forClause fuel ending fault c).Delivers e tail := by
  rw [forClause_eq]
  cases h with
  | absent =>
    rw [hc.currentIs, hk]
    simp only [BEq.rfl, if_true]
    exact delivers_ok hc.advance
  | present he =>
    obtain ⟨u, more, rfl, hu⟩ := spells_starts he
    have hne : (u.kind == ending) = false := by
      refine beq_false_of_ne fun heq => ?_
      rw [heq, hstart] at hu
      cases hu
    rw [hc.currentIs, hne]
    exact expression_then_delivers (exprParses he) hc hk hop

/-! ## Statements and declarations -/

/-- No `else` comes first. -/
def NoElse (ts : List Token) : Prop := ∀ t, ts.head? = some t → t.kind ≠ .kwElse

/-- Nothing, or a closing brace and what follows it. -/
def Closes (ts : List Token) : Prop := ∀ t, ts.head? = some t → t.kind = .rightBrace

theorem Closes.noElse (h : Closes tail) : NoElse tail := by
  intro t ht hk
  have := h t ht
  rw [hk] at this
  cases this

/-- What the parser does on the tokens of a phrase. -/
def Parses : Grammar.Phrase → List Token → Prop
  | .stmt short s, ts => ∀ fuel c tail, c.Before (ts ++ tail) → (short = true → NoElse tail) →
      (statement fuel c).Delivers s tail
  | .decl s, ts => ∀ fuel c tail, c.Before (ts ++ tail) → NoElse tail →
      (declaration fuel c).Delivers (some s) tail
  | .decls ss, ts => ∀ fuel c tail, c.Before (ts ++ tail) → Closes tail →
      declarations fuel c = .exhausted ∨
        ∃ c', declarations fuel c = .ok ss c' ∧ c'.Before tail
  | .function f, ts => ∀ fuel kind c tail, c.advance.Before (ts.tail ++ tail) →
      (function fuel kind f.name c).Delivers f tail
  | .methods fs, ts => ∀ fuel c tail, c.Before (ts ++ tail) →
      (∃ closing rest, tail = closing :: rest ∧ closing.kind = .rightBrace) →
      methods fuel c = .exhausted ∨ ∃ c', methods fuel c = .ok fs c' ∧ c'.Before tail

/-- Whether a statement can start with a token of this kind. -/
def startsStmt : Kind → Bool
  | .kwFor | .kwIf | .kwPrint | .kwReturn | .kwWhile | .leftBrace => true
  | kind => startsOperand kind

theorem stmt_starts {short : Bool} {s : Stmt} (h : Forms (.stmt short s) ts) :
    ∃ t more, ts = t :: more ∧ startsStmt t.kind = true := by
  cases h with
  | expr he =>
    obtain ⟨t, more, rfl, hk⟩ := exprStmt_starts he
    refine ⟨t, more, rfl, ?_⟩
    cases hkind : t.kind <;> simp_all [startsOperand, startsStmt]
  | print hk _ _ => exact ⟨_, _, rfl, by rw [hk]; rfl⟩
  | ret hk _ _ => exact ⟨_, _, rfl, by rw [hk]; rfl⟩
  | block hk _ _ => exact ⟨_, _, rfl, by rw [hk]; rfl⟩
  | ifShort hk _ _ _ _ => exact ⟨_, _, rfl, by rw [hk]; rfl⟩
  | ifElse hk _ _ _ _ _ _ => exact ⟨_, _, rfl, by rw [hk]; rfl⟩
  | loop hk _ _ _ _ => exact ⟨_, _, rfl, by rw [hk]; rfl⟩
  | forLoop hk _ _ _ _ _ _ _ _ => exact ⟨_, _, rfl, by rw [hk]; rfl⟩

theorem function_starts {f : FunDecl} (h : Forms (.function f) ts) :
    ∃ more, ts = f.name :: more ∧ f.name.kind = .ident := by
  cases h with
  | function hn _ _ _ _ _ _ => exact ⟨_, rfl, hn⟩

/-- A declaration does not start with `else` or a closing brace. -/
theorem decl_starts {s : Stmt} (h : Forms (.decl s) ts) :
    ∃ t more, ts = t :: more ∧ t.kind ≠ .kwElse ∧ t.kind ≠ .rightBrace := by
  cases h with
  | stmtDecl h =>
    obtain ⟨t, more, rfl, hk⟩ := stmt_starts h
    refine ⟨t, more, rfl, ?_, ?_⟩ <;> intro h <;> rw [h] at hk <;> cases hk
  | varDecl h =>
    obtain ⟨t, more, rfl, hk⟩ := varDecl_starts h
    exact ⟨t, more, rfl, by simp [hk], by simp [hk]⟩
  | funDecl hk _ => exact ⟨_, _, rfl, by simp [hk], by simp [hk]⟩
  | classDecl hk _ _ _ _ => exact ⟨_, _, rfl, by simp [hk], by simp [hk]⟩
  | subclassDecl hk _ _ _ _ _ _ => exact ⟨_, _, rfl, by simp [hk], by simp [hk]⟩

theorem decls_noElse {ss : List Stmt} (h : Forms (.decls ss) ts) (htail : NoElse tail) :
    NoElse (ts ++ tail) := by
  cases h with
  | noDecls => exact htail
  | decls hs _ =>
    obtain ⟨t, more, rfl, hk, -⟩ := decl_starts hs
    intro u hu
    cases hu
    exact hk

/-- A declaration that its own parser delivers needs no recovery. -/
theorem recover_delivers {p : Parser Stmt} {s : Stmt} (h : (p c).Delivers s tail) :
    (recover p c).Delivers (some s) tail := by
  unfold recover
  rcases h with h | ⟨c', h, hc'⟩
  · left; rw [h]
  · right
    have : c'.panicking = false := hc'.panicking
    refine ⟨c', ?_, hc'⟩
    rw [h]
    simp [this]

theorem declaration_delivers {s : Stmt} (h : ∀ fuel, (declared fuel c).Delivers s tail)
    (fuel : Nat) : (declaration fuel c).Delivers (some s) tail := by
  cases fuel with
  | zero => left; rw [declaration]; rfl
  | succ fuel => rw [declaration_eq]; exact recover_delivers (h fuel)

theorem statement_delivers {s : Stmt} (h : ∀ fuel, (statement (fuel + 1) c).Delivers s tail)
    (fuel : Nat) : (statement fuel c).Delivers s tail := by
  cases fuel with
  | zero => left; rw [statement]; rfl
  | succ fuel => exact h fuel

theorem block_delivers (fuel : Nat) {ss : List Stmt} {closing : Token} (h : Parses (.decls ss) ts)
    (hk : closing.kind = .rightBrace) (hc : c.advance.Before (ts ++ closing :: tail)) :
    block fuel c = .exhausted ∨ ∃ c', block fuel c = .ok ss c' ∧ c'.Before (closing :: tail) := by
  cases fuel with
  | zero => left; rw [block]; rfl
  | succ fuel =>
    rw [block_eq]
    refine yields_bind (h fuel c.advance (closing :: tail) hc fun u hu => by cases hu; exact hk)
      fun c' hc' => .inr ⟨c', ?_, hc'⟩
    rw [closeBlock, hc'.currentIs, hk]
    rfl

theorem ifStmt_delivers {l r : Token} {cond : Expr} {s : Stmt} {cs : List Token}
    (hk : t.kind = .kwIf) (hl : l.kind = .leftParen) (hcond : Grammar.Expression cond cs)
    (hr : r.kind = .rightParen) (hc : c.Before (t :: l :: (cs ++ r :: ts)))
    (h : ∀ c', c'.Before ts → ((statement fuel >>= afterYes fuel t cond) c').Delivers s tail) :
    (statement (fuel + 1) c).Delivers s tail := by
  rw [statement_eq, hc.current]
  simp only [hk]
  exact delivers_bind (condition_delivers hl hcond hr hc.advance) fun c' hc' => h _ hc'

theorem function_delivers {kind : Callee} {name opening closing bodyOpening bodyClosing : Token}
    {params ps : List Token} {body : List Stmt} (ho : opening.kind = .leftParen)
    (hps : Grammar.Parameters params ps) (hk : closing.kind = .rightParen)
    (hbo : bodyOpening.kind = .leftBrace) (hbody : Parses (.decls body) ts)
    (hbk : bodyClosing.kind = .rightBrace)
    (hc : c.advance.Before
      (opening :: (ps ++ closing :: bodyOpening :: (ts ++ bodyClosing :: tail)))) :
    (function (fuel + 1) kind name c).Delivers (.mk name params body) tail := by
  have hrest : ∀ c', c'.advance.Before (closing :: bodyOpening :: (ts ++ bodyClosing :: tail)) →
      (functionBody fuel kind name params c').Delivers (.mk name params body) tail := by
    intro c₁ hc₁
    refine delivers_bind (expect_delivers hc₁ hk) fun c₂ hc₂ => ?_
    refine delivers_bind (expect_delivers hc₂ hbo) fun c₃ hc₃ => ?_
    exact yields_bind (block_delivers fuel hbody hbk hc₃) fun c₄ hc₄ => delivers_ok hc₄.advance
  rw [function_eq]
  refine delivers_bind (expect_delivers hc ho) fun c₁ hc₁ => ?_
  unfold functionRest
  cases hps with
  | absent =>
    rw [hc₁.nextIs, hk]
    exact hrest c₁ hc₁
  | present hnames hlen =>
    have hno : c₁.nextIs .rightParen = false := by
      cases hnames with
      | last hn => rw [hc₁.nextIs, hn]; rfl
      | more hn _ _ => rw [hc₁.nextIs, hn]; rfl
    rw [hno]
    exact delivers_bind (parameters_delivers hnames fuel 0 c₁ hc₁ (by simp [hk]) (by omega)) hrest

theorem classBody_delivers {keyword name opening closing : Token} {superclass : Option Ref}
    {ms : List FunDecl} (ho : opening.kind = .leftBrace) (hms : Parses (.methods ms) ts)
    (hk : closing.kind = .rightBrace)
    (hc : c.advance.Before (opening :: (ts ++ closing :: tail))) :
    (classBody fuel keyword name superclass c).Delivers
      (.classDecl keyword name superclass ms) tail := by
  refine delivers_bind (expect_delivers hc ho) fun c₁ hc₁ => ?_
  rw [advance_bind]
  refine yields_bind (hms fuel c₁.advance _ hc₁ ⟨closing, tail, rfl, hk⟩) fun c₂ hc₂ => ?_
  rw [closeClass, hc₂.currentIs, hk]
  exact delivers_ok hc₂.advance

theorem classDecl_delivers {keyword name : Token} {s : Stmt} (hk : keyword.kind = .kwClass)
    (hn : name.kind = .ident) (hc : c.Before (keyword :: name :: ts))
    (h : ∀ fuel c', c'.advance.Before ts → (afterClassName fuel keyword name c').Delivers s tail) :
    ∀ fuel, (declared fuel c).Delivers s tail := by
  intro fuel
  unfold declared
  rw [hc.current]
  simp only [hk]
  cases fuel with
  | zero => left; rw [classDecl]; rfl
  | succ fuel =>
    rw [classDecl_eq]
    exact delivers_bind (expect_delivers hc.advance hn) (h fuel)

/-! ## One lemma for each rule -/

theorem parses_exprStmt {s : Stmt} (h : Grammar.ExprStmt s ts) : Parses (.stmt false s) ts := by
  intro fuel c tail hc _
  refine statement_delivers (fun fuel => ?_) fuel
  have hexpr := exprStmt_delivers fuel h hc
  obtain ⟨u, more, rfl, hu⟩ := exprStmt_starts h
  rw [statement_eq, hc.current]
  cases hkind : u.kind <;> simp only [hkind, startsOperand, reduceCtorEq] at hu ⊢ <;> exact hexpr

theorem parses_print {kw semicolon : Token} {e : Expr} (hk : kw.kind = .kwPrint)
    (he : Grammar.Expression e ts) (hs : semicolon.kind = .semicolon) :
    Parses (.stmt false (.print kw e)) (kw :: (ts ++ [semicolon])) := by
  intro fuel c tail hc _
  refine statement_delivers (fun fuel => ?_) fuel
  rw [statement_eq, hc.current]
  simp only [hk]
  rw [List.cons_append, List.append_assoc] at hc
  rw [printStmt_eq]
  exact expression_then_delivers (exprParses he) hc.advance hs rfl

theorem parses_ret {kw semicolon : Token} {e : Option Expr} (hk : kw.kind = .kwReturn)
    (he : Grammar.Optional e ts) (hs : semicolon.kind = .semicolon) :
    Parses (.stmt false (.ret kw e)) (kw :: (ts ++ [semicolon])) := by
  intro fuel c tail hc _
  refine statement_delivers (fun fuel => ?_) fuel
  rw [statement_eq, hc.current]
  simp only [hk]
  rw [List.cons_append, List.append_assoc] at hc
  rw [returnStmt_eq]
  cases he with
  | absent =>
    rw [hc.advance.nextIs, hs]
    exact expect_then_delivers hc.advance hs
  | present he =>
    obtain ⟨u, more, rfl, hu⟩ := spells_starts he
    have hno : c.nextIs .semicolon = false := by
      rw [hc.advance.nextIs]
      cases hkind : u.kind <;> simp_all [startsOperand]
    rw [hno]
    exact expression_then_delivers (exprParses he) hc.advance hs rfl

theorem parses_block {opening closing : Token} {ss : List Stmt} (ho : opening.kind = .leftBrace)
    (hss : Parses (.decls ss) ts) (hk : closing.kind = .rightBrace) :
    Parses (.stmt false (.block closing ss)) (opening :: (ts ++ [closing])) := by
  intro fuel c tail hc _
  refine statement_delivers (fun fuel => ?_) fuel
  rw [statement_eq, hc.current]
  simp only [ho]
  rw [List.cons_append, List.append_assoc] at hc
  refine yields_bind (block_delivers fuel hss hk hc.advance) fun c' hc' => ?_
  rw [blockStmt, hc'.current]
  exact delivers_ok hc'.advance

theorem parses_ifShort {kw l r : Token} {cond : Expr} {yes : Stmt} {short : Bool}
    {cs ys : List Token} (hk : kw.kind = .kwIf) (hl : l.kind = .leftParen)
    (hcond : Grammar.Expression cond cs) (hr : r.kind = .rightParen)
    (hyes : Parses (.stmt short yes) ys) :
    Parses (.stmt true (.ifElse kw cond yes none)) (kw :: l :: (cs ++ r :: ys)) := by
  intro fuel c tail hc hshort
  refine statement_delivers (fun fuel => ?_) fuel
  simp only [List.cons_append, List.append_assoc] at hc
  refine ifStmt_delivers hk hl hcond hr hc fun c₁ hc₁ => ?_
  refine delivers_bind (hyes fuel c₁ tail hc₁ fun _ => hshort rfl) fun c₂ hc₂ => ?_
  have hno : c₂.nextIs .kwElse = false := by
    cases tail with
    | nil => simp [Cursor.nextIs, Cursor.next?, show c₂.rest.tail = [] from hc₂.rest]
    | cons u rest =>
      rw [hc₂.nextIs]
      exact beq_false_of_ne (hshort rfl u rfl)
  rw [afterYes, hno]
  exact delivers_ok hc₂

theorem parses_ifElse {kw l r other : Token} {cond : Expr} {yes no : Stmt} {short : Bool}
    {cs ys ns : List Token} (hk : kw.kind = .kwIf) (hl : l.kind = .leftParen)
    (hcond : Grammar.Expression cond cs) (hr : r.kind = .rightParen)
    (hyes : Parses (.stmt false yes) ys) (ho : other.kind = .kwElse)
    (hno : Parses (.stmt short no) ns) :
    Parses (.stmt short (.ifElse kw cond yes (some no)))
      (kw :: l :: (cs ++ r :: (ys ++ other :: ns))) := by
  intro fuel c tail hc hshort
  refine statement_delivers (fun fuel => ?_) fuel
  simp only [List.cons_append, List.append_assoc] at hc
  refine ifStmt_delivers hk hl hcond hr hc fun c₁ hc₁ => ?_
  -- the first branch does not end in an `if` that would take this `else`
  refine delivers_bind (hyes fuel c₁ _ hc₁ fun h => by cases h) fun c₂ hc₂ => ?_
  rw [afterYes, hc₂.nextIs, ho]
  exact delivers_bind (c := c₂.advance.advance) (hno fuel _ tail hc₂.advance hshort)
    fun _ hc₃ => delivers_ok hc₃

theorem parses_loop {kw l r : Token} {cond : Expr} {body : Stmt} {short : Bool}
    {cs bs : List Token} (hk : kw.kind = .kwWhile) (hl : l.kind = .leftParen)
    (hcond : Grammar.Expression cond cs) (hr : r.kind = .rightParen)
    (hbody : Parses (.stmt short body) bs) :
    Parses (.stmt short (.loop kw cond body)) (kw :: l :: (cs ++ r :: bs)) := by
  intro fuel c tail hc hshort
  refine statement_delivers (fun fuel => ?_) fuel
  simp only [List.cons_append, List.append_assoc] at hc
  rw [statement_eq, hc.current]
  simp only [hk]
  refine delivers_bind (condition_delivers hl hcond hr hc.advance) fun c₁ hc₁ => ?_
  rw [advance_bind]
  exact delivers_bind (hbody fuel _ tail hc₁ hshort) fun _ hc₂ => delivers_ok hc₂

theorem parses_forLoop {kw l semicolon r : Token} {init : Option Stmt} {cond step : Option Expr}
    {body : Stmt} {short : Bool} {is cs us bs : List Token} (hk : kw.kind = .kwFor)
    (hl : l.kind = .leftParen) (hi : Grammar.ForInit init is) (hcond : Grammar.Optional cond cs)
    (hs : semicolon.kind = .semicolon) (hstep : Grammar.Optional step us)
    (hr : r.kind = .rightParen) (hbody : Parses (.stmt short body) bs) :
    Parses (.stmt short (.forLoop kw init cond step body))
      (kw :: l :: (is ++ (cs ++ semicolon :: (us ++ r :: bs)))) := by
  intro fuel c tail hc hshort
  refine statement_delivers (fun fuel => ?_) fuel
  simp only [List.cons_append, List.append_assoc] at hc
  rw [statement_eq, hc.current]
  simp only [hk]
  refine delivers_bind (expect_delivers hc.advance hl) fun c₁ hc₁ => ?_
  rw [advance_bind]
  refine delivers_bind (forInitializer_delivers hi hc₁) fun c₂ hc₂ => ?_
  rw [advance_bind]
  refine delivers_bind (forClause_delivers hcond hs rfl rfl hc₂) fun c₃ hc₃ => ?_
  rw [advance_bind]
  refine delivers_bind (forClause_delivers hstep hr rfl rfl hc₃) fun c₄ hc₄ => ?_
  rw [advance_bind]
  exact delivers_bind (hbody fuel _ tail hc₄ hshort) fun _ hc₅ => delivers_ok hc₅

theorem parses_stmtDecl {s : Stmt} {short : Bool} (hf : Forms (.stmt short s) ts)
    (hs : Parses (.stmt short s) ts) : Parses (.decl s) ts := by
  intro fuel c tail hc htail
  refine declaration_delivers (fun fuel => ?_) fuel
  have hstmt := hs fuel c tail hc fun _ => htail
  suffices declared fuel c = statement fuel c by rw [this]; exact hstmt
  obtain ⟨t, more, rfl, hk⟩ := stmt_starts hf
  unfold declared
  rw [hc.current]
  cases hkind : t.kind <;> simp only [hkind] <;> rw [hkind] at hk <;> cases hk

theorem parses_varDecl {s : Stmt} (h : Grammar.VarDecl s ts) : Parses (.decl s) ts := by
  intro fuel c tail hc _
  refine declaration_delivers (fun fuel => ?_) fuel
  obtain ⟨keyword, more, rfl, hk⟩ := varDecl_starts h
  unfold declared
  rw [hc.current]
  simp only [hk]
  exact varDecl_delivers h hc

theorem parses_funDecl {kw : Token} {f : FunDecl} (hk : kw.kind = .kwFun)
    (hf : Forms (.function f) ts) (h : Parses (.function f) ts) :
    Parses (.decl (.funDecl f)) (kw :: ts) := by
  intro fuel c tail hc _
  refine declaration_delivers (fun fuel => ?_) fuel
  obtain ⟨more, rfl, hn⟩ := function_starts hf
  unfold declared
  rw [hc.current]
  simp only [hk]
  refine delivers_bind (expect_delivers hc.advance hn) fun c₁ hc₁ => ?_
  exact delivers_bind (h fuel .function c₁ tail hc₁) fun _ hc₂ => delivers_ok hc₂

theorem parses_classDecl {kw name opening closing : Token} {ms : List FunDecl}
    (hk : kw.kind = .kwClass) (hn : name.kind = .ident) (ho : opening.kind = .leftBrace)
    (hms : Parses (.methods ms) ts) (hclose : closing.kind = .rightBrace) :
    Parses (.decl (.classDecl kw name none ms)) (kw :: name :: opening :: (ts ++ [closing])) := by
  intro fuel c tail hc _
  simp only [List.cons_append, List.append_assoc, List.nil_append] at hc
  refine declaration_delivers (classDecl_delivers hk hn hc fun fuel c₁ hc₁ => ?_) fuel
  rw [afterClassName, hc₁.nextIs, ho]
  exact classBody_delivers ho hms hclose hc₁

theorem parses_subclassDecl {kw name less base opening closing : Token} {ms : List FunDecl}
    (hk : kw.kind = .kwClass) (hn : name.kind = .ident) (hless : less.kind = .less)
    (hbase : base.kind = .ident) (ho : opening.kind = .leftBrace)
    (hms : Parses (.methods ms) ts) (hclose : closing.kind = .rightBrace) :
    Parses (.decl (.classDecl kw name (some ⟨base, none⟩) ms))
      (kw :: name :: less :: base :: opening :: (ts ++ [closing])) := by
  intro fuel c tail hc _
  simp only [List.cons_append, List.append_assoc, List.nil_append] at hc
  refine declaration_delivers (classDecl_delivers hk hn hc fun fuel c₁ hc₁ => ?_) fuel
  rw [afterClassName, hc₁.nextIs, hless]
  exact delivers_bind (c := c₁.advance) (expect_delivers hc₁.advance hbase) fun c₂ hc₂ =>
    classBody_delivers ho hms hclose hc₂

theorem parses_noDecls : Parses (.decls []) [] := by
  intro fuel c tail hc htail
  cases fuel with
  | zero => left; rw [declarations]; rfl
  | succ fuel =>
    refine .inr ⟨c, ?_, hc⟩
    rw [declarations_eq]
    cases tail with
    | nil => simp [Cursor.current?, hc.rest]
    | cons u rest => simp [Cursor.Before.current hc, htail u rfl]

theorem parses_decls {s : Stmt} {ss : List Stmt} {rest : List Token} (hf : Forms (.decl s) ts)
    (hfs : Forms (.decls ss) rest) (hs : Parses (.decl s) ts) (hss : Parses (.decls ss) rest) :
    Parses (.decls (s :: ss)) (ts ++ rest) := by
  intro fuel c tail hc htail
  cases fuel with
  | zero => left; rw [declarations]; rfl
  | succ fuel =>
    rw [List.append_assoc] at hc
    have hdecl := hs fuel c _ hc (decls_noElse hfs htail.noElse)
    obtain ⟨u, more, rfl, -, hu⟩ := decl_starts hf
    rw [declarations_eq, hc.current]
    simp only [beq_false_of_ne hu, Bool.false_eq_true, if_false]
    refine yields_bind hdecl fun c₁ hc₁ => ?_
    rw [advance_bind]
    exact yields_bind (hss fuel c₁.advance tail hc₁ htail) fun c₂ hc₂ => .inr ⟨c₂, rfl, hc₂⟩

theorem parses_noMethods : Parses (.methods []) [] := by
  rintro fuel c _ hc ⟨closing, rest, rfl, hk⟩
  cases fuel with
  | zero => left; rw [Parser.methods]; rfl
  | succ fuel =>
    refine .inr ⟨c, ?_, hc⟩
    rw [methods_eq, Cursor.Before.current hc]
    simp only [hk]

theorem parses_methods {f : FunDecl} {fs : List FunDecl} {rest : List Token}
    (hf : Forms (.function f) ts) (h : Parses (.function f) ts)
    (hs : Parses (.methods fs) rest) : Parses (.methods (f :: fs)) (ts ++ rest) := by
  intro fuel c tail hc htail
  cases fuel with
  | zero => left; rw [Parser.methods]; rfl
  | succ fuel =>
    rw [List.append_assoc] at hc
    obtain ⟨more, rfl, hn⟩ := function_starts hf
    rw [methods_eq, hc.current]
    simp only [hn]
    refine yields_bind (h fuel .method c _ hc.advance) fun c₁ hc₁ => ?_
    rw [advance_bind]
    exact yields_bind (hs fuel c₁.advance tail hc₁ htail) fun c₂ hc₂ => .inr ⟨c₂, rfl, hc₂⟩

/-- **The parser follows every derivation of a declaration.** -/
theorem parses {p : Grammar.Phrase} (h : Forms p ts) : Parses p ts := by
  induction h with
  | expr he => exact parses_exprStmt he
  | print hk he hs => exact parses_print hk he hs
  | ret hk he hs => exact parses_ret hk he hs
  | block ho _ hk ih => exact parses_block ho ih hk
  | ifShort hk hl hcond hr _ ih => exact parses_ifShort hk hl hcond hr ih
  | ifElse hk hl hcond hr _ ho _ ihy ihn => exact parses_ifElse hk hl hcond hr ihy ho ihn
  | loop hk hl hcond hr _ ih => exact parses_loop hk hl hcond hr ih
  | forLoop hk hl hi hcond hs hstep hr _ hform ih =>
    cases Grammar.whileForm_iff.1 hform
    exact parses_forLoop hk hl hi hcond hs hstep hr ih
  | stmtDecl hs ih => exact parses_stmtDecl hs ih
  | varDecl hv => exact parses_varDecl hv
  | funDecl hk hf ih => exact parses_funDecl hk hf ih
  | classDecl hk hn ho _ hclose ih => exact parses_classDecl hk hn ho ih hclose
  | subclassDecl hk hn hless hbase ho _ hclose ih =>
    exact parses_subclassDecl hk hn hless hbase ho ih hclose
  | noDecls => exact parses_noDecls
  | decls hs hss ih ihs => exact parses_decls hs hss ih ihs
  | function hn ho hps hk hbo _ hbk ih =>
    intro fuel kind c tail hc
    cases fuel with
    | zero => left; rw [Parser.function]; rfl
    | succ fuel =>
      simp only [List.tail_cons, List.cons_append, List.append_assoc, List.nil_append] at hc
      exact function_delivers ho hps hk hbo ih hbk hc
  | noMethods => exact parses_noMethods
  | methods hf hfs ih ihs => exact parses_methods hf ih ihs

/-- A whole program is read, and what stands behind it as if it stood alone. -/
theorem program_delivers : ∀ (ss : List Stmt) {ts : List Token}, Grammar.Program ss ts →
    NoElse tail → ∀ (fuel : Nat) (c : Cursor), c.Before (ts ++ tail) →
    program fuel c = .exhausted ∨
      ∃ c', program fuel c = .ok (ss ++ (Program.ofTokens tail c.endLine).statements) c' ∧
        c'.errors = (Program.ofTokens tail c.endLine).errors.reverse
  | _, _, _, _, 0, _, _ => by left; rw [program]; rfl
  | [], _, h, _, fuel + 1, c, hc => by
    cases h
    have hrest : c.rest = tail := hc.rest
    rcases Classical.em (program (fuel + 1) c = .exhausted) with hf | hf
    · exact .inl hf
    · obtain ⟨c', hr, he⟩ := program_resumes hc.panicking hf
      rw [hrest] at hr he
      rw [hc.errors, List.append_nil] at he
      exact .inr ⟨c', hr, he⟩
  | s :: ss, _, h, htail, fuel + 1, c, hc => by
    cases h with
    | decls hs hss =>
      rw [List.append_assoc] at hc
      have hdecl := parses hs fuel c _ hc (decls_noElse hss htail)
      obtain ⟨u, more, rfl, -, -⟩ := decl_starts hs
      rw [program_eq, hc.current]
      simp only
      rcases hdecl with hr | ⟨c₁, hr, hc₁⟩
      · exact .inl (by rw [bind_apply, hr])
      · rw [bind_of_ok hr, advance_bind, ← declaration_endLine hr]
        exact yields_bind (program_delivers ss hss htail fuel c₁.advance hc₁) fun c₂ hc₂ =>
          .inr ⟨c₂, rfl, hc₂⟩

end Parser

end Lox
