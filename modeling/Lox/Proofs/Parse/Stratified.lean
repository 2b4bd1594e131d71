import Lox.Proofs.Parse.Climbing
import Lox.Token.Scan
/-!
# One procedure for each tier

The recursive descent parser that the grammar suggests: every tier has a procedure of its own,
which asks the procedure of the next tighter tier for its operands. There are no precedences to
compare. Main statement: precedence climbing is this parser (`expression_is_stratified`), with
the same trees, errors and cursors on every row of tokens.
-/

namespace Lox.Stratified

open Lox.Parser (advance cursor exhausted expect failHere nextIs report)
open Grammar (Tier StopsAt unaryOp? constant?)

/-! ## The parser -/

section
variable (nested : Parser Expr)

/-- A constant, a name, `this`, a method of the superclass, or a group. -/
def primary : Parser Expr := do
  match (← cursor).current? with
  | none => failHere .expression
  | some t =>
    match constant? t with
    | some v => return .literal t v
    | none =>
      match t.kind with
      | .ident => return .var ⟨t, none⟩
      | .kwThis => return .this ⟨t, none⟩
      | .kwSuper => do
        let _ ← expect .dot .superDot
        let method ← expect .ident .superMethod
        return .super ⟨t, none⟩ method
      | .leftParen => do
        advance
        let inner ← nested
        let _ ← expect .rightParen .groupClose
        return .grouping t inner
      | _ => failHere .expression

/-- One or more expressions with commas between them; `count` stand before them. -/
def arguments (fuel count : Nat) : Parser (List Expr) :=
  match fuel with
  | 0 => exhausted
  | fuel + 1 => do
    advance
    let arg ← nested
    if maxArguments ≤ count then do
      let c ← cursor
      report (c.siteOf c.current?) .tooManyArguments
    if ← nextIs .comma then do
      advance
      let more ← arguments fuel (count + 1)
      return arg :: more
    else return [arg]

/-- The calls and properties behind `left`. -/
def suffixes (fuel : Nat) (left : Expr) : Parser Expr :=
  match fuel with
  | 0 => exhausted
  | fuel + 1 => do
    if ← nextIs .leftParen then do
      advance
      let args ← if ← nextIs .rightParen then pure [] else arguments nested fuel 0
      let paren ← expect .rightParen .argumentsClose
      suffixes fuel (.call paren left args)
    else if ← nextIs .dot then do
      advance
      let name ← expect .ident .propertyName
      suffixes fuel (.get left name)
    else return left

def call (fuel : Nat) : Parser Expr := do
  let left ← primary nested
  suffixes nested fuel left

def unary (fuel : Nat) : Parser Expr :=
  match fuel with
  | 0 => exhausted
  | fuel + 1 => do
    match (← cursor).current? with
    | none => call nested (fuel + 1)
    | some t =>
      match unaryOp? t.kind with
      | some op => do
        advance
        let operand ← unary fuel
        return .unary op t operand
      | none => call nested (fuel + 1)

end

/-- The operators of a tier behind `left`, each with the operand behind it. -/
def row (t : Tier) (operand : Parser Expr) (fuel : Nat) (left : Expr) : Parser Expr :=
  match fuel with
  | 0 => exhausted
  | fuel + 1 => do
    match (← cursor).next? with
    | none => return left
    | some op =>
      match t.node? op.kind with
      | none => return left
      | some node => do
        advance
        advance
        let right ← operand
        row t operand fuel (node op left right)

/-- Operands with operators of a tier between them, grouped to the left. -/
def leftAssociative (t : Tier) (operand : Parser Expr) (fuel : Nat) : Parser Expr := do
  let left ← operand
  row t operand fuel left

section
variable (nested : Parser Expr) (fuel : Nat)

def factor : Parser Expr := leftAssociative .factor (unary nested fuel) fuel

def term : Parser Expr := leftAssociative .term (factor nested fuel) fuel

def comparison : Parser Expr := leftAssociative .comparison (term nested fuel) fuel

def equality : Parser Expr := leftAssociative .equality (comparison nested fuel) fuel

def and : Parser Expr := leftAssociative .and (equality nested fuel) fuel

def or : Parser Expr := leftAssociative .or (and nested fuel) fuel

/-- An assignment groups to the right, and its target is judged when its value has been read. -/
def assignment : Parser Expr := do
  let left ← or nested fuel
  match (← cursor).next? with
  | none => return left
  | some t =>
    if t.kind = .assign then do
      advance
      advance
      let value ← nested
      match left with
      | .var ref => return .assign ref value
      | .get object name => return .set object name value
      | _ => do
        report (.token t) .invalidTarget
        return left
    else return left

end

def expression : Nat → Parser Expr
  | 0 => exhausted
  | fuel + 1 => assignment (expression fuel) (fuel + 1)

/-! ## At a cursor -/

variable {nested operand : Parser Expr} {fuel n : Nat} {c : Cursor}

/-- What follows an argument. -/
def afterArgument (nested : Parser Expr) (fuel count : Nat) (arg : Expr) :
    Parser (List Expr) := fun c =>
  let c := Parser.limit count (c.siteOf c.current?) .tooManyArguments c
  if c.nextIs .comma then
    (arguments nested fuel (count + 1) >>= fun more => pure (arg :: more)) c.advance
  else .ok [arg] c

theorem arguments_eq (count : Nat) : arguments nested (fuel + 1) count c =
    (nested >>= afterArgument nested fuel count) c.advance := by
  rw [arguments]
  refine Parser.bind_congr_apply (c := c.advance) fun arg c₁ => ?_
  simp only [afterArgument, Parser.limit]
  split
  · rw [Parser.cursor_bind, Parser.report_bind, Parser.nextIs_bind]
    split <;> rfl
  · rw [Parser.nextIs_bind]
    split <;> rfl

theorem row_eq (t : Tier) (left : Expr) : row t operand (fuel + 1) left c =
    match c.next? with
    | none => .ok left c
    | some op =>
      match t.node? op.kind with
      | none => .ok left c
      | some node =>
        (operand >>= fun right => row t operand fuel (node op left right)) c.advance.advance := by
  rw [row, Parser.cursor_bind]
  cases c.next? with
  | none => rfl
  | some op =>
    simp only
    cases t.node? op.kind <;> rfl

theorem suffixes_call (h : c.nextIs .leftParen = true) (left : Expr) :
    suffixes nested (fuel + 1) left c =
      if c.advance.nextIs .rightParen then
        (expect .rightParen .argumentsClose >>= fun paren =>
          suffixes nested fuel (.call paren left [])) c.advance
      else
        (arguments nested fuel 0 >>= fun args => expect .rightParen .argumentsClose >>= fun paren =>
          suffixes nested fuel (.call paren left args)) c.advance := by
  rw [suffixes, Parser.nextIs_bind, h]
  simp only [if_true]
  rw [Parser.advance_bind, Parser.nextIs_bind]
  split <;> rfl

theorem suffixes_get (h : c.nextIs .leftParen = false) (h' : c.nextIs .dot = true) (left : Expr) :
    suffixes nested (fuel + 1) left c = (expect .ident .propertyName >>= fun name =>
      suffixes nested fuel (.get left name)) c.advance := by
  rw [suffixes, Parser.nextIs_bind, h]
  simp only [Bool.false_eq_true, if_false]
  rw [Parser.nextIs_bind, h']
  rfl

theorem suffixes_none (h : c.nextIs .leftParen = false) (h' : c.nextIs .dot = false)
    (left : Expr) : suffixes nested (fuel + 1) left c = .ok left c := by
  rw [suffixes, Parser.nextIs_bind, h]
  simp only [Bool.false_eq_true, if_false]
  rw [Parser.nextIs_bind, h']
  rfl

theorem unary_of_some {t : Token} {op : UnaryOp} (hc : c.current? = some t)
    (hop : unaryOp? t.kind = some op) : unary nested (fuel + 1) c =
      (unary nested fuel >>= fun e => pure (.unary op t e)) c.advance := by
  rw [unary, Parser.cursor_bind, hc]
  simp only [hop]
  rfl

theorem unary_of_none (h : ∀ t, c.current? = some t → unaryOp? t.kind = none) :
    unary nested (fuel + 1) c = call nested (fuel + 1) c := by
  rw [unary, Parser.cursor_bind]
  cases hc : c.current? with
  | none => rfl
  | some t =>
    simp only
    rw [h t hc]

theorem assignment_eq : assignment nested fuel c = (or nested fuel >>= fun left c =>
    match c.next? with
    | none => .ok left c
    | some t =>
      if t.kind = .assign then (nested >>= Parser.assignment t left) c.advance.advance
      else .ok left c) c := by
  refine Parser.bind_congr_apply fun left c' => ?_
  rw [Parser.cursor_bind]
  cases c'.next? with
  | none => rfl
  | some t =>
    simp only
    split
    · refine Parser.bind_congr_apply (c := c'.advance.advance) fun value c₁ => ?_
      cases left <;> rfl
    · rfl

/-! ## Operands -/

/-- A parser does what climbing at a level does, on fewer than `n` tokens. -/
def Agrees (n : Nat) (p : Parser Expr) (level : Precedence) : Prop :=
  ∀ c : Cursor, c.rest.length < n → p c = Climbing.expression level c

/-- The same nested expression, and then the same. -/
theorem Agrees.bind {β : Type} {level : Precedence} {p : Parser Expr} (h : Agrees n p level)
    (hc : c.rest.length < n) {f g : Expr → Parser β}
    (hfg : ∀ e c', Climbing.expression level c = .ok e c' → c'.rest.length ≤ c.rest.length →
      f e c' = g e c') :
    (p >>= f) c = (Climbing.expression level >>= g) c :=
  Climbing.bind_congr_ends (h c hc) (Climbing.expression_ends level c) hfg

theorem primary_agrees (h : Agrees n nested .lowest) (hc : c.rest.length ≤ n)
    (hu : ∀ t, c.current? = some t → unaryOp? t.kind = none) :
    primary nested c = Climbing.operand c := by
  rw [primary, Parser.cursor_bind, Climbing.operand_eq]
  cases hcur : c.current? with
  | none => rfl
  | some t =>
    have hpos := Parser.length_of_current hcur
    have hl := Parser.length_advance c
    have hop := hu t hcur
    simp only [constant?]
    cases hk : t.kind
    case bang => rw [hk] at hop; cases hop
    case minus => rw [hk] at hop; cases hop
    case leftParen => exact h.bind (by omega) fun _ _ _ _ => rfl
    all_goals rfl

theorem arguments_agree (h : Agrees n nested .lowest) : ∀ (fuel count : Nat) (c : Cursor),
    0 < c.rest.length → c.rest.length ≤ fuel → c.rest.length ≤ n →
    arguments nested fuel count c = Climbing.arguments count c
  | 0, _, _, hpos, hf, _ => by omega
  | fuel + 1, count, c, hpos, hf, hn => by
    have hl := Parser.length_advance c
    rw [arguments_eq, Climbing.arguments_eq hpos]
    refine h.bind (by omega) fun arg c₁ _ hc₁ => ?_
    have hl₁ := Parser.length_limit count (c₁.siteOf c₁.current?) .tooManyArguments c₁
    simp only [afterArgument, Climbing.afterArgument]
    generalize Parser.limit count (c₁.siteOf c₁.current?) .tooManyArguments c₁ = c₂ at hl₁
    split
    · rename_i hnext
      have := Parser.length_of_nextIs hnext
      have hl₂ := Parser.length_advance c₂
      exact Climbing.bind_congr_head
        (arguments_agree h fuel (count + 1) c₂.advance (by omega) (by omega) (by omega)) _
    · rfl

/-- Only a call and a property bind tighter than `*` and `/`. -/
theorem suffix_of_rank {k : Kind} {op : Operator} (hop : Operator.ofKind? k = some op)
    (h : Precedence.factor.rank < op.precedence.rank) :
    (k = .leftParen ∧ op = .call) ∨ (k = .dot ∧ op = .get) := by
  cases k <;> simp [Operator.ofKind?] at hop <;> subst hop <;>
    simp [Operator.precedence, Precedence.rank] at h ⊢

theorem nextIs_eq_false {k : Kind} (op : Operator)
    (hstop : StopsAt Precedence.factor.rank c.rest.tail) (hop : Operator.ofKind? k = some op)
    (h : Precedence.factor.rank < op.precedence.rank) : c.nextIs k = false := by
  cases hnext : c.next? with
  | none => simp [Cursor.nextIs, hnext]
  | some t =>
    by_cases hk : t.kind = k
    · have := hstop t op hnext (hk ▸ hop)
      omega
    · simp [Cursor.nextIs, hnext, hk]

theorem suffixes_agree (h : Agrees n nested .lowest) : ∀ (fuel : Nat) (left : Expr) (c : Cursor),
    c.rest.length < fuel → c.rest.length ≤ n + 1 →
    suffixes nested fuel left c = Climbing.operators .factor left c
  | 0, _, _, hf, _ => by omega
  | fuel + 1, left, c, hf, hn => by
    by_cases hstop : StopsAt Precedence.factor.rank c.rest.tail
    · rw [Climbing.operators_of_stopsAt hstop]
      exact suffixes_none (nextIs_eq_false .call hstop rfl (by decide))
        (nextIs_eq_false .get hstop rfl (by decide)) left
    · obtain ⟨t, op, hnext, hop, hrank⟩ := Climbing.exists_of_not_stopsAt hstop
      have := Parser.length_of_next hnext
      have hl := Parser.length_advance c
      have resume : ∀ left' (c' : Cursor), c'.rest.length ≤ c.advance.rest.length →
          suffixes nested fuel left' c' = Climbing.operators .factor left' c' :=
        fun left' c' hc' => suffixes_agree h fuel left' c' (by omega) (by omega)
      rw [Climbing.operators_take hnext hop hrank]
      obtain ⟨hk, rfl⟩ | ⟨hk, rfl⟩ := suffix_of_rank hop hrank
      · have happly := Climbing.apply_call (c := c.advance) t left
        -- from the closing parenthesis on
        have close : ∀ args (c' : Cursor), c'.rest.length ≤ c.advance.rest.length →
            (expect .rightParen .argumentsClose >>= fun paren =>
              suffixes nested fuel (.call paren left args)) c' =
            ((expect .rightParen .argumentsClose >>= fun paren =>
              pure (.call paren left args)) >>= Climbing.operators .factor) c' := by
          intro args c' hc'
          rw [Climbing.bind_bind]
          exact Climbing.bind_congr_ends rfl (Parser.expect_ends _ _ _) fun paren c₁ _ hc₁ =>
            resume _ c₁ (by omega)
        rw [suffixes_call (by simp [Cursor.nextIs, hnext, hk])]
        split
        · rename_i hempty
          rw [if_pos hempty] at happly
          rw [Climbing.bind_congr_head happly]
          exact close [] _ (Nat.le_refl _)
        · rename_i hargs
          rw [if_neg hargs] at happly
          rw [Climbing.bind_congr_head happly, Climbing.bind_bind]
          exact Climbing.bind_congr_ends
            (arguments_agree h fuel 0 c.advance (by omega) (by omega) (by omega))
            (Climbing.arguments_ends 0 (by omega)) fun args c' _ hc' => close args c' hc'
      · rw [suffixes_get (by simp [Cursor.nextIs, hnext, hk]) (by simp [Cursor.nextIs, hnext, hk]),
          Climbing.bind_congr_head (Climbing.apply_get t left), Climbing.bind_bind]
        exact Climbing.bind_congr_ends rfl (Parser.expect_ends _ _ _) fun name c' _ hc' =>
          resume (.get left name) c' hc'

/-! ## Tiers -/

/-- No operator has the rank of `!` and `-`. -/
theorem stopsAt_factor {ts : List Token} (h : StopsAt Precedence.unary.rank ts) :
    StopsAt Precedence.factor.rank ts := by
  intro t op ht hop
  have hle := h t op ht hop
  refine Nat.not_lt.1 fun hlt => ?_
  obtain ⟨-, rfl⟩ | ⟨-, rfl⟩ := suffix_of_rank hop hlt <;> exact absurd hle (by decide)

theorem expression_factor : Climbing.expression .factor c = Climbing.expression .unary c := by
  rw [Climbing.expression_split .unary (by decide), Parser.bind_apply]
  cases hr : Climbing.expression .unary c with
  | ok e c' => exact Climbing.operators_of_stopsAt (stopsAt_factor (Climbing.expression_stops hr)) e
  | failed c' => rfl
  | exhausted => rfl

theorem operand_unary {t : Token} {op : UnaryOp} (hc : c.current? = some t)
    (hop : unaryOp? t.kind = some op) : Climbing.operand c =
      (Climbing.expression .unary >>= fun e => pure (.unary op t e)) c.advance := by
  rw [Climbing.operand_eq, hc]
  simp only
  cases hk : t.kind <;> rw [hk] at hop <;> cases hop <;> rfl

theorem unary_agrees (h : Agrees n nested .lowest) : ∀ (fuel : Nat) (c : Cursor),
    c.rest.length < fuel → c.rest.length ≤ n →
    unary nested fuel c = Climbing.expression .factor c
  | 0, _, hf, _ => by omega
  | fuel + 1, c, hf, hn => by
    rw [Climbing.expression_eq]
    by_cases hu : ∃ t op, c.current? = some t ∧ unaryOp? t.kind = some op
    · obtain ⟨t, op, hcur, hop⟩ := hu
      have hpos := Parser.length_of_current hcur
      have hl := Parser.length_advance c
      rw [unary_of_some hcur hop, Climbing.bind_congr_head (operand_unary hcur hop),
        Climbing.bind_bind]
      have hoperand : unary nested fuel c.advance = Climbing.expression .unary c.advance :=
        (unary_agrees h fuel c.advance (by omega) (by omega)).trans expression_factor
      refine Climbing.bind_congr_ends hoperand (Climbing.expression_ends _ _) fun e c' hr _ => ?_
      exact (Climbing.operators_of_stopsAt (stopsAt_factor (Climbing.expression_stops hr)) _).symm
    · have hnone : ∀ t, c.current? = some t → unaryOp? t.kind = none := fun t ht =>
        Option.eq_none_iff_forall_ne_some.2 fun op hop => hu ⟨t, op, ht, hop⟩
      rw [unary_of_none hnone]
      exact Climbing.bind_congr_ends (primary_agrees h hn hnone) (Climbing.operand_ends c)
        fun left c' _ hc' => suffixes_agree h (fuel + 1) left c' (by omega) (by omega)

section
variable {t : Tier} {level level' : Precedence}

theorem precedence_rank_inj (h : level.rank = level'.rank) : level = level' := by
  cases level <;> cases level' <;> first | rfl | cases h

/-- An operator of a tier builds a node of the tier from what stands on its two sides. -/
theorem apply_node {op : Token} {o : Operator} (ht : 2 < t.rank) (ht' : t.rank ≤ 8)
    (hlevel : level'.rank = t.rank) (hop : Operator.ofKind? op.kind = some o)
    (ho : o.precedence.rank = t.rank) (hc : 0 < c.rest.length) (left : Expr) :
    ∃ node, t.node? op.kind = some node ∧ Climbing.apply o op left c =
      (Climbing.expression level' >>= fun e => pure (node op left e)) c.advance := by
  have htier : Tier.ofOperator o = t := Tier.rank_inj ((Tier.rank_ofOperator o).trans ho)
  have hprec : o.precedence = level' := precedence_rank_inj (ho.trans hlevel.symm)
  cases o with
  | binary b =>
    exact ⟨_, htier ▸ Tier.node_of_binary hop, hprec ▸ Climbing.apply_binary hc b op left⟩
  | logical l =>
    exact ⟨_, htier ▸ Tier.node_of_logical hop, hprec ▸ Climbing.apply_logical hc l op left⟩
  | assign => exact absurd ho (Nat.ne_of_lt ht)
  | call => exact absurd (Nat.le_trans (Nat.le_of_eq ho) ht') (by decide)
  | get => exact absurd (Nat.le_trans (Nat.le_of_eq ho) ht') (by decide)

theorem node_eq_none {op : Token} (h : ∀ o, Operator.ofKind? op.kind = some o →
    o.precedence.rank ≠ t.rank) : t.node? op.kind = none := by
  refine Option.eq_none_iff_forall_ne_some.2 fun node hnode => ?_
  obtain ⟨o, ho, htier, -⟩ := Tier.node_cases hnode
  exact h o ho (by rw [← Tier.rank_ofOperator, htier])

/-- Where all tighter operators have been taken, a looser level goes on with a row. -/
theorem row_agrees (ht : 2 < t.rank) (ht' : t.rank ≤ 8) (hlevel' : level'.rank = t.rank)
    (hlevel : level.rank + 1 = t.rank) (h : Agrees n operand level') :
    ∀ (fuel : Nat) (left : Expr) (c : Cursor), c.rest.length < fuel → c.rest.length < n →
      StopsAt level'.rank c.rest.tail →
      row t operand fuel left c = Climbing.operators level left c
  | 0, _, _, hf, _, _ => by omega
  | fuel + 1, left, c, hf, hn, hstop => by
    rw [row_eq]
    cases hnext : c.next? with
    | none => rw [Climbing.operators_eq, hnext]
    | some op =>
      have := Parser.length_of_next hnext
      have hl := Parser.length_advance c
      have hl' := Parser.length_advance c.advance
      by_cases hrow : StopsAt level.rank c.rest.tail
      · have hnode : t.node? op.kind = none := node_eq_none fun o ho => by
          have := hrow op o hnext ho
          omega
        simp only [hnode]
        exact (Climbing.operators_of_stopsAt hrow left).symm
      · obtain ⟨u, o, hu, ho, hrank⟩ := Climbing.exists_of_not_stopsAt hrow
        obtain rfl : op = u := Option.some.inj (hnext.symm.trans hu)
        have hle := hstop op o hnext ho
        obtain ⟨node, hnode, happly⟩ := apply_node (c := c.advance) ht ht' hlevel' ho (by omega)
          (by omega) left
        rw [Climbing.operators_take hnext ho hrank, Climbing.bind_congr_head happly,
          Climbing.bind_bind]
        simp only [hnode]
        refine h.bind (by omega) fun right c' hr hc' => ?_
        exact row_agrees ht ht' hlevel' hlevel h fuel _ c' (by omega) (by omega)
          (Climbing.expression_stops hr)

theorem leftAssociative_agrees (ht : 2 < t.rank) (ht' : t.rank ≤ 8) (hlevel' : level'.rank = t.rank)
    (hlevel : level.rank + 1 = t.rank) (h : Agrees n operand level') :
    Agrees n (leftAssociative t operand n) level := by
  intro c hc
  rw [Climbing.expression_split level' (by omega)]
  refine h.bind hc fun left c' hr hc' => ?_
  exact row_agrees ht ht' hlevel' hlevel h n left c' (by omega) (by omega)
    (Climbing.expression_stops hr)

end

theorem or_agrees (h : Agrees n nested .lowest) :
    Agrees (n + 1) (or nested (n + 1)) .assignment := by
  have hunary : Agrees (n + 1) (unary nested (n + 1)) .factor := fun c hc =>
    unary_agrees h (n + 1) c hc (by omega)
  have hfactor : Agrees (n + 1) (factor nested (n + 1)) .term :=
    leftAssociative_agrees (by decide) (by decide) rfl rfl hunary
  have hterm : Agrees (n + 1) (term nested (n + 1)) .comparison :=
    leftAssociative_agrees (by decide) (by decide) rfl rfl hfactor
  have hcomparison : Agrees (n + 1) (comparison nested (n + 1)) .equality :=
    leftAssociative_agrees (by decide) (by decide) rfl rfl hterm
  have hequality : Agrees (n + 1) (equality nested (n + 1)) .and :=
    leftAssociative_agrees (by decide) (by decide) rfl rfl hcomparison
  have hand : Agrees (n + 1) (and nested (n + 1)) .or :=
    leftAssociative_agrees (by decide) (by decide) rfl rfl hequality
  exact leftAssociative_agrees (by decide) (by decide) rfl rfl hand

/-- Only `=` binds looser than `or`. -/
theorem assign_of_rank {k : Kind} {op : Operator} (hop : Operator.ofKind? k = some op)
    (h : op.precedence.rank ≤ Precedence.assignment.rank) : k = .assign ∧ op = .assign := by
  cases k <;> simp [Operator.ofKind?] at hop <;> subst hop <;>
    simp [Operator.precedence, Precedence.rank] at h ⊢

/-- Whatever becomes of an assignment, nothing of the input is passed. -/
theorem assignment_ok (t : Token) (left value : Expr) (c : Cursor) :
    ∃ e c', Parser.assignment t left value c = .ok e c' ∧ c'.rest = c.rest := by
  cases left <;> exact ⟨_, _, rfl, rfl⟩

theorem assignment_agrees (h : Agrees n nested .lowest) :
    Agrees (n + 1) (assignment nested (n + 1)) .lowest := by
  intro c hc
  rw [assignment_eq, Climbing.expression_split .assignment (by decide)]
  refine (or_agrees h).bind hc fun left c' hr hc' => ?_
  have hstop := Climbing.expression_stops hr
  by_cases hend : StopsAt Precedence.lowest.rank c'.rest.tail
  · rw [Climbing.operators_of_stopsAt hend]
    cases hnext : c'.next? with
    | none => rfl
    | some t =>
      have hk : t.kind ≠ .assign := fun hk =>
        absurd (hend t .assign hnext (by rw [hk]; rfl)) (by decide)
      exact if_neg hk
  · obtain ⟨t, op, hnext, hop, hrank⟩ := Climbing.exists_of_not_stopsAt hend
    obtain ⟨hk, rfl⟩ := assign_of_rank hop (hstop t op hnext hop)
    have := Parser.length_of_next hnext
    have hl := Parser.length_advance c'
    have hl' := Parser.length_advance c'.advance
    rw [Climbing.operators_take hnext hop hrank,
      Climbing.bind_congr_head (Climbing.apply_assign (by omega) t left), Climbing.bind_bind]
    simp only [hnext, hk, if_true]
    refine h.bind (by omega) fun value c₁ hvalue _ => ?_
    obtain ⟨e, c₂, he, hrest⟩ := assignment_ok t left value c₁
    have hstop' : StopsAt Precedence.lowest.rank c₂.rest.tail :=
      hrest ▸ Climbing.expression_stops hvalue
    rw [Parser.bind_of_ok he, he, Climbing.operators_of_stopsAt hstop']

theorem expression_agrees : ∀ fuel, Agrees fuel (expression fuel) .lowest
  | 0 => fun _ hc => by omega
  | fuel + 1 => assignment_agrees (expression_agrees fuel)

end Lox.Stratified

namespace Lox.Parser

/-- **Precedence climbing is stratified descent.** From every cursor both come to the same result:
the same tree or a failure, with the same errors in the same order, panicking alike and stopping
at the same token. Neither runs out of fuel that is linear in the number of tokens, and no
operator follows an expression that was read. -/
theorem expression_is_stratified {fuel fuel' : Nat} (c : Cursor)
    (h : 3 * c.rest.length + 2 ≤ fuel) (h' : c.rest.length < fuel') :
    expression fuel .lowest c = Stratified.expression fuel' c ∧
      expression fuel .lowest c ≠ .exhausted ∧
      ∀ e c', expression fuel .lowest c = .ok e c' →
        ∀ t, c'.next? = some t → Operator.ofKind? t.kind = none := by
  rw [Climbing.of_expression .lowest h]
  refine ⟨(Stratified.expression_agrees fuel' c h').symm,
    (Climbing.expression_ends .lowest c).ne_exhausted, fun e c' hr t ht => ?_⟩
  refine Option.eq_none_iff_forall_ne_some.2 fun op hop => ?_
  have hle := Climbing.expression_stops hr t op ht hop
  cases op with
  | binary b => cases b <;> exact absurd hle (by decide)
  | logical l => cases l <;> exact absurd hle (by decide)
  | assign => exact absurd hle (by decide)
  | call => exact absurd hle (by decide)
  | get => exact absurd hle (by decide)

/-- A wrong target before a unary operator, a property, a call and an assignment in its
arguments. -/
def tangled : Cursor :=
  ⟨(Scan.ofBytes (utf8 "a * b = !c.d(e, f = g) or h;")).tokens, 1, [], false⟩

theorem expression_is_stratified_tangled :
    (3 * tangled.rest.length + 2 ≤ 60 ∧ tangled.rest.length < 20) ∧
      expression 60 .lowest tangled = Stratified.expression 20 tangled ∧
      expression 60 .lowest tangled ≠ .exhausted ∧
      ∀ e c', expression 60 .lowest tangled = .ok e c' →
        ∀ t, c'.next? = some t → Operator.ofKind? t.kind = none :=
  have h : 3 * tangled.rest.length + 2 ≤ 60 := by decide +kernel
  have h' : tangled.rest.length < 20 := by decide +kernel
  ⟨⟨h, h'⟩, expression_is_stratified tangled h h'⟩

end Lox.Parser
