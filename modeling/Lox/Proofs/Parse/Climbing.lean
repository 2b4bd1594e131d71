import Lox.Proofs.Parse.Lockstep
import Lox.Proofs.Parse.Progress
import Lox.Proofs.Parse.Tiers
/-!
# Precedence climbing without fuel

A parser that comes to a result comes to the same one with more fuel, so with enough of it the
fuel can be left out. `Climbing` holds the parsers of expressions with as much fuel as they need
and their equations, in which no fuel is seen. An expression asked for at a level stops only
where the next operator does not bind tighter than that level (`expression_stops`), and a looser
level goes on from where a tighter one has stopped (`expression_split`).
-/

namespace Lox

theorem Parsed.Ends.ne_exhausted {α : Type} {r : Parsed α} {n : Nat} (h : r.Ends n) :
    r ≠ .exhausted := by
  rintro rfl
  exact h

/-- Two parses from the same cursor. -/
def Lockstep.same : Lockstep where
  At := Eq
  On := Eq
  Failed := Eq
  Met _ := True
  current h := by rw [h]
  next h := by rw [h]
  on h _ _ := h
  advance h := by rw [h]
  met _ _ := trivial
  failCurrent h _ := by rw [h]
  failNext h _ := by rw [h]
  reportCurrent h _ := by rw [h]
  reportMet h _ _ := by rw [h]

/-- Whatever the first parse came to, the second came to as well. -/
theorem Parsed.InStep.eq {α : Type} {r r' : Parsed α} (h : r.InStep Eq Eq r')
    (hr : r ≠ .exhausted) : r' = r := by
  cases r with
  | ok a c =>
    obtain ⟨c', rfl, rfl⟩ := h.of_ok
    rfl
  | failed c =>
    obtain ⟨c', rfl, rfl⟩ := h.of_failed
    rfl
  | exhausted => exact absurd rfl hr

namespace Climbing

open Lox.Parser (bind_apply bind_congr_apply expect failHere limit exprInStep exprEnds)

variable {α β : Type} {fuel : Nat} {c : Cursor}

def expression (level : Precedence) : Parser Expr := fun c =>
  Parser.expression (3 * c.rest.length + 2) level c

def operand : Parser Expr := fun c => Parser.operand (3 * c.rest.length + 1) c

def operators (level : Precedence) (left : Expr) : Parser Expr := fun c =>
  Parser.operators (3 * c.rest.length + 1) level left c

def apply (op : Operator) (token : Token) (left : Expr) : Parser Expr := fun c =>
  Parser.apply (3 * c.rest.length + 1) op token left c

def arguments (count : Nat) : Parser (List Expr) := fun c =>
  Parser.arguments (3 * c.rest.length) count c

/-! ## Enough fuel is as good as any -/

theorem of_expression (level : Precedence) (h : 3 * c.rest.length + 2 ≤ fuel) :
    Parser.expression fuel level c = expression level c :=
  ((exprInStep .same h).expression level rfl).eq
    ((exprEnds _).expression level c (Nat.le_refl _)).ne_exhausted

theorem of_operand (h : 3 * c.rest.length + 1 ≤ fuel) : Parser.operand fuel c = operand c :=
  ((exprInStep .same h).operand rfl).eq
    ((exprEnds _).operand c (Nat.le_refl _)).ne_exhausted

theorem of_operators (level : Precedence) (left : Expr) (h : 3 * c.rest.length + 1 ≤ fuel) :
    Parser.operators fuel level left c = operators level left c :=
  ((exprInStep .same h).operators level left rfl).eq
    ((exprEnds _).operators level left c (Nat.le_refl _)).ne_exhausted

theorem of_apply (op : Operator) (token : Token) (left : Expr) (hc : 0 < c.rest.length)
    (h : 3 * c.rest.length + 1 ≤ fuel) :
    Parser.apply fuel op token left c = apply op token left c :=
  ((exprInStep .same h).apply op token left trivial rfl).eq
    ((exprEnds _).apply op token left c hc (Nat.le_refl _)).ne_exhausted

theorem of_arguments (count : Nat) (hc : 0 < c.rest.length) (h : 3 * c.rest.length ≤ fuel) :
    Parser.arguments fuel count c = arguments count c :=
  ((exprInStep .same h).arguments count rfl).eq
    ((exprEnds _).arguments count c hc (Nat.le_refl _)).ne_exhausted

theorem expression_ends (level : Precedence) (c : Cursor) :
    (expression level c).Ends c.rest.length := (exprEnds _).expression level c (Nat.le_refl _)

theorem operand_ends (c : Cursor) : (operand c).Ends c.rest.length :=
  (exprEnds _).operand c (Nat.le_refl _)

theorem apply_ends (op : Operator) (token : Token) (left : Expr) (hc : 0 < c.rest.length) :
    (apply op token left c).Ends c.rest.length :=
  (exprEnds _).apply op token left c hc (Nat.le_refl _)

theorem arguments_ends (count : Nat) (hc : 0 < c.rest.length) :
    (arguments count c).Ends c.rest.length := (exprEnds _).arguments count c hc (Nat.le_refl _)

theorem bind_bind {γ : Type} (p : Parser α) (f : α → Parser β) (g : β → Parser γ) :
    ((p >>= f) >>= g) c = (p >>= fun a => f a >>= g) c := by
  rw [bind_apply, bind_apply, bind_apply]
  cases p c <;> rfl

theorem bind_congr_head {p q : Parser α} {c' : Cursor} (h : p c = q c') (f : α → Parser β) :
    (p >>= f) c = (q >>= f) c' := by rw [bind_apply, bind_apply, h]

/-- Two continuations that agree wherever the first parser can leave the cursor. -/
theorem bind_congr_ends {p p' : Parser α} {f g : α → Parser β} {n : Nat} (hp : p c = p' c)
    (he : (p' c).Ends n) (h : ∀ a c', p' c = .ok a c' → c'.rest.length ≤ n → f a c' = g a c') :
    (p >>= f) c = (p' >>= g) c := by
  rw [bind_apply, bind_apply, hp]
  cases hr : p' c with
  | ok a c' =>
    rw [hr] at he
    exact h a c' hr he
  | failed c' => rfl
  | exhausted => rfl

/-! ## Equations -/

theorem expression_eq (level : Precedence) :
    expression level c = (operand >>= operators level) c := by
  rw [expression, Parser.expression_eq]
  exact bind_congr_ends (of_operand (Nat.le_refl _)) (operand_ends c) fun left c' _ hc' =>
    of_operators level left (by omega)

theorem operand_eq : operand c =
    match c.current? with
    | none => failHere .expression c
    | some t =>
      match t.kind with
      | .ident => .ok (.var ⟨t, none⟩) c
      | .number => .ok (.literal t (.number (Token.numberValue t.lexeme))) c
      | .string => .ok (.literal t (.string (Token.stringValue t.lexeme))) c
      | .kwTrue => .ok (.literal t (.bool true)) c
      | .kwFalse => .ok (.literal t (.bool false)) c
      | .kwNil => .ok (.literal t .nil) c
      | .bang => (expression .unary >>= fun e => pure (.unary .not t e)) c.advance
      | .minus => (expression .unary >>= fun e => pure (.unary .neg t e)) c.advance
      | .leftParen => (expression .lowest >>= fun inner =>
          expect .rightParen .groupClose >>= fun _ => pure (.grouping t inner)) c.advance
      | .kwThis => .ok (.this ⟨t, none⟩) c
      | .kwSuper => (expect .dot .superDot >>= fun _ => expect .ident .superMethod >>= fun m =>
          pure (.super ⟨t, none⟩ m)) c
      | _ => failHere .expression c := by
  rw [operand, Parser.operand_eq]
  cases hc : c.current? with
  | none => rfl
  | some t =>
    obtain ⟨n, hn⟩ : ∃ n, 3 * c.rest.length = n + 1 :=
      ⟨3 * c.rest.length - 1, by have := Parser.length_of_current hc; omega⟩
    have hl := Parser.length_advance c
    have nested : ∀ (level : Precedence) (f : Expr → Parser Expr) (m : Nat), n ≤ m →
        (Parser.expression m level >>= f) c.advance = (expression level >>= f) c.advance :=
      fun level f m hm => bind_congr_ends (of_expression level (by omega)) (expression_ends _ _)
        fun _ _ _ _ => rfl
    simp only
    cases t.kind
    case bang => rw [hn]; exact (Parser.unary_eq .not t).trans (nested _ _ n (Nat.le_refl n))
    case minus => rw [hn]; exact (Parser.unary_eq .neg t).trans (nested _ _ n (Nat.le_refl n))
    case leftParen => exact nested _ _ _ (by omega)
    all_goals rfl

theorem operators_eq (level : Precedence) (left : Expr) : operators level left c =
    match c.next? with
    | none => .ok left c
    | some t =>
      match Operator.ofKind? t.kind with
      | none => .ok left c
      | some op =>
        if level.rank < op.precedence.rank then
          (apply op t left >>= operators level) c.advance
        else .ok left c := by
  rw [operators, Parser.operators_eq]
  cases hc : c.next? with
  | none => rfl
  | some t =>
    have := Parser.length_of_next hc
    have hl := Parser.length_advance c
    simp only
    cases Operator.ofKind? t.kind with
    | none => rfl
    | some op =>
      simp only
      split
      · exact bind_congr_ends (of_apply op t left (by omega) (by omega))
          (apply_ends op t left (by omega)) fun left' c' _ hc' =>
            of_operators level left' (by omega)
      · rfl

/-- What follows an argument. -/
def afterArgument (count : Nat) (arg : Expr) : Parser (List Expr) := fun c =>
  let c := limit count (c.siteOf c.current?) .tooManyArguments c
  if c.nextIs .comma then
    (arguments (count + 1) >>= fun more => pure (arg :: more)) c.advance
  else .ok [arg] c

section
variable (hc : 0 < c.rest.length)
include hc

/-- The expression behind an operator. -/
theorem nested_eq (level : Precedence) (f : Expr → Parser β) :
    (Parser.expression (3 * c.rest.length) level >>= f) c.advance =
      (expression level >>= f) c.advance := by
  have hl := Parser.length_advance c
  exact bind_congr_ends (of_expression level (by omega)) (expression_ends _ _) fun _ _ _ _ => rfl

theorem apply_binary (b : BinaryOp) (t : Token) (left : Expr) : apply (.binary b) t left c =
    (expression (Operator.binary b).precedence >>= fun e => pure (.binary b t left e))
      c.advance := by
  rw [apply, Parser.apply_binary]
  exact nested_eq hc _ _

theorem apply_logical (l : LogicalOp) (t : Token) (left : Expr) : apply (.logical l) t left c =
    (expression (Operator.logical l).precedence >>= fun e => pure (.logical l t left e))
      c.advance := by
  rw [apply, Parser.apply_logical]
  exact nested_eq hc _ _

theorem apply_assign (t : Token) (left : Expr) : apply .assign t left c =
    (expression .lowest >>= Parser.assignment t left) c.advance := by
  rw [apply, Parser.apply_assign]
  exact nested_eq hc _ _

theorem arguments_eq (count : Nat) : arguments count c =
    (expression .lowest >>= afterArgument count) c.advance := by
  obtain ⟨n, hn⟩ : ∃ n, 3 * c.rest.length = n + 1 := ⟨3 * c.rest.length - 1, by omega⟩
  have hl := Parser.length_advance c
  rw [arguments, hn, Parser.arguments_eq]
  refine bind_congr_ends (of_expression .lowest (by omega)) (expression_ends _ _)
    fun arg c₁ _ hc₁ => ?_
  have hl₁ := Parser.length_limit count (c₁.siteOf c₁.current?) .tooManyArguments c₁
  simp only [Parser.afterArgument, afterArgument]
  generalize limit count (c₁.siteOf c₁.current?) .tooManyArguments c₁ = c₂ at hl₁
  split
  · rename_i hnext
    have := Parser.length_of_nextIs hnext
    have hl₂ := Parser.length_advance c₂
    rw [bind_apply, bind_apply, of_arguments _ (by omega) (by omega)]
    rfl
  · rfl

end

theorem apply_call (t : Token) (left : Expr) : apply .call t left c =
    if c.nextIs .rightParen then
      (expect .rightParen .argumentsClose >>= fun paren => pure (.call paren left [])) c
    else
      (arguments 0 >>= fun args => expect .rightParen .argumentsClose >>= fun paren =>
        pure (.call paren left args)) c := by
  rw [apply, Parser.apply_call]
  rfl

theorem apply_get (t : Token) (left : Expr) : apply .get t left c =
    (expect .ident .propertyName >>= fun name => pure (.get left name)) c := by
  rw [apply, Parser.apply_get]
  rfl

/-! ## Where expressions stop -/

/-- The operators that are taken are all that bind tighter than the level. -/
theorem operators_stops {level : Precedence} : ∀ {n : Nat} {left e : Expr} {c c' : Cursor},
    Parser.operators n level left c = .ok e c' → Grammar.StopsAt level.rank c'.rest.tail
  | 0, left, e, c, c', h => by rw [Parser.operators] at h; cases h
  | n + 1, left, e, c, c', h => by
    rw [Parser.operators_eq] at h
    intro t op ht hop
    split at h
    · rename_i hnext
      cases h
      exact absurd (hnext.symm.trans ht) (by simp)
    · rename_i u hnext
      split at h
      · rename_i hnone
        cases h
        obtain rfl : u = t := Option.some.inj (hnext.symm.trans ht)
        exact absurd (hnone.symm.trans hop) (by simp)
      · rename_i op' hop'
        split at h
        · obtain ⟨left', c₁, -, hrest⟩ := Parser.bind_ok h
          exact operators_stops hrest t op ht hop
        · rename_i hrank
          cases h
          obtain rfl : u = t := Option.some.inj (hnext.symm.trans ht)
          obtain rfl : op' = op := Option.some.inj (hop'.symm.trans hop)
          exact Nat.not_lt.1 hrank

theorem expression_stops {level : Precedence} {e : Expr} {c' : Cursor}
    (h : expression level c = .ok e c') : Grammar.StopsAt level.rank c'.rest.tail := by
  rw [expression_eq] at h
  obtain ⟨left, c₁, -, hrest⟩ := Parser.bind_ok h
  exact operators_stops hrest

/-- Where no operator binds tighter than the level, nothing is taken. -/
theorem operators_of_stopsAt {level : Precedence} (h : Grammar.StopsAt level.rank c.rest.tail)
    (left : Expr) : operators level left c = .ok left c := by
  rw [operators_eq]
  cases hnext : c.next? with
  | none => rfl
  | some t =>
    simp only
    cases hop : Operator.ofKind? t.kind with
    | none => rfl
    | some op => exact if_neg (Nat.not_lt.2 (h t op hnext hop))

/-- The next operator binds tighter than the level, so it is taken. -/
theorem operators_take {level : Precedence} {t : Token} {op : Operator} (hnext : c.next? = some t)
    (hop : Operator.ofKind? t.kind = some op) (h : level.rank < op.precedence.rank)
    (left : Expr) : operators level left c = (apply op t left >>= operators level) c.advance := by
  rw [operators_eq, hnext]
  simp only [hop]
  rw [if_pos h]

/-- There is an operator to take unless the level stops here. -/
theorem exists_of_not_stopsAt {n : Nat} (h : ¬ Grammar.StopsAt n c.rest.tail) :
    ∃ t op, c.next? = some t ∧ Operator.ofKind? t.kind = some op ∧ n < op.precedence.rank := by
  refine Classical.byContradiction fun hnone => h fun t op ht hop => Nat.not_lt.1 fun hn => ?_
  exact hnone ⟨t, op, ht, hop, hn⟩

/-- A looser level first takes what a tighter one takes. -/
theorem operators_split {level level' : Precedence} (h : level.rank ≤ level'.rank) (left : Expr)
    (c : Cursor) :
    operators level left c = (operators level' left >>= operators level) c := by
  induction hk : c.rest.length using Nat.strongRecOn generalizing left c with
  | ind k ih =>
    by_cases hstop : Grammar.StopsAt level'.rank c.rest.tail
    · rw [Parser.bind_of_ok (operators_of_stopsAt hstop left)]
    · obtain ⟨t, op, hnext, hop, hrank⟩ := exists_of_not_stopsAt hstop
      have := Parser.length_of_next hnext
      have hl := Parser.length_advance c
      rw [operators_take hnext hop (by omega),
        bind_congr_head (operators_take hnext hop hrank left), bind_bind]
      exact bind_congr_ends rfl (apply_ends op t left (by omega)) fun left' c' _ hc' =>
        ih _ (by omega) left' c' rfl

theorem expression_split {level : Precedence} (level' : Precedence)
    (h : level.rank ≤ level'.rank) :
    expression level c = (expression level' >>= operators level) c := by
  rw [expression_eq, bind_congr_head (expression_eq level'), bind_bind]
  exact bind_congr_apply (operators_split h)

end Climbing

end Lox
