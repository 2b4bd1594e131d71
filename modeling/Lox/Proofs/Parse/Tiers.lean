import Lox.Proofs.Parse.Equations
import Lox.Proofs.Parse.Grammar
/-!
# Tiers and precedences

The parser compares ranks of precedences where the grammar has tiers. A tier has the rank of its
operators, a looser tier holds everything that a tighter one holds, and what may follow a phrase
without becoming part of it is bounded by the rank of its tier.
-/

namespace Lox.Grammar

namespace Tier

/-- The rank of the operators of a tier. -/
def rank : Tier → Nat
  | assignment => 2
  | or => 3
  | and => 4
  | equality => 5
  | comparison => 6
  | term => 7
  | factor => 8
  | unary => 9
  | call => 10
  | primary => 11

/-- The highest rank of an operator that can stand behind a phrase of a tier and not be part of
it. An assignment takes in any operator behind it, as it groups to the right. -/
def follow : Tier → Nat
  | assignment => 1
  | t => t.rank

theorem rank_of_tighter {t u : Tier} (h : t.tighter? = some u) : u.rank = t.rank + 1 := by
  cases t <;> simp_all [tighter?] <;> subst h <;> rfl

theorem rank_inj {t u : Tier} (h : t.rank = u.rank) : t = u := by
  cases t <;> cases u <;> simp_all [rank]

theorem tighter_of_rank_lt {t u : Tier} (h : t.rank < u.rank) : ∃ v, t.tighter? = some v := by
  cases t <;> simp [tighter?]
  cases u <;> simp [rank] at h

theorem follow_le_rank (t : Tier) : t.follow ≤ t.rank := by cases t <;> simp [follow, rank]

theorem follow_mono {t u : Tier} (h : t.tighter? = some u) : t.follow ≤ u.follow := by
  cases t <;> simp_all [tighter?] <;> subst h <;> simp [follow, rank]

/-- The tier that an operator makes. -/
def ofOperator : Operator → Tier
  | .assign => assignment
  | .logical .or => or
  | .logical .and => and
  | .binary .eq | .binary .ne => equality
  | .binary .lt | .binary .gt | .binary .le | .binary .ge => comparison
  | .binary .add | .binary .sub => term
  | .binary .div | .binary .mul => factor
  | .call | .get => call

theorem rank_ofOperator (op : Operator) : (ofOperator op).rank = op.precedence.rank := by
  cases op with
  | binary b => cases b <;> rfl
  | logical l => cases l <;> rfl
  | assign => rfl
  | call => rfl
  | get => rfl

theorem node_of_binary {k : Kind} {b : BinaryOp} (h : Operator.ofKind? k = some (.binary b)) :
    (ofOperator (.binary b)).node? k = some (.binary b) := by
  cases k <;> simp [Operator.ofKind?] at h <;> subst h <;> rfl

theorem node_of_logical {k : Kind} {l : LogicalOp} (h : Operator.ofKind? k = some (.logical l)) :
    (ofOperator (.logical l)).node? k = some (.logical l) := by
  cases k <;> simp [Operator.ofKind?] at h <;> subst h <;> rfl

/-- The nodes of a tier come from the binary and the logical operators of its rank. -/
theorem node_cases {t : Tier} {k : Kind} {node : Token → Expr → Expr → Expr}
    (h : t.node? k = some node) : ∃ op, Operator.ofKind? k = some op ∧ ofOperator op = t ∧
      ((∃ b, op = .binary b ∧ node = .binary b) ∨ ∃ l, op = .logical l ∧ node = .logical l) := by
  cases t <;> cases k <;> simp [node?] at h <;> subst h <;>
    exact ⟨_, rfl, rfl, by simp⟩

theorem tighter_ofBinary (b : BinaryOp) : ∃ u, (ofOperator (.binary b)).tighter? = some u := by
  cases b <;> exact ⟨_, rfl⟩

theorem tighter_ofLogical (l : LogicalOp) : ∃ u, (ofOperator (.logical l)).tighter? = some u := by
  cases l <;> exact ⟨_, rfl⟩

end Tier

variable {t u : Tier} {e : Expr} {ts : List Token}

/-- A looser tier holds every phrase of a tighter one. -/
theorem Spells.loosen : ∀ (n : Nat) {t : Tier}, u.rank = t.rank + n → Spells (.tier u e) ts →
    Spells (.tier t e) ts
  | 0, _, hn, h => Tier.rank_inj hn ▸ h
  | n + 1, t, hn, h => by
    obtain ⟨v, hv⟩ := Tier.tighter_of_rank_lt (t := t) (u := u) (by omega)
    have := Tier.rank_of_tighter hv
    exact .tighter hv (Spells.loosen n (by omega) h)

theorem Spells.of_rank_le (h : Spells (.tier u e) ts) (hr : t.rank ≤ u.rank) :
    Spells (.tier t e) ts :=
  Spells.loosen (u.rank - t.rank) (by omega) h

theorem Spells.expression (h : Spells (.tier u e) ts) : Expression e ts :=
  h.of_rank_le (by cases u <;> simp [Tier.rank])

theorem Spells.ne_nil {p : ExprPhrase} (h : Spells p ts) : ts ≠ [] := by
  induction h with
  | tighter _ _ ih => exact ih
  | lastArgument _ ih => exact ih
  | _ => simp

/-- A variable is spelled by its name alone, in every tier. -/
theorem Spells.var_inv {ref : Ref} (h : Spells (.tier t (.var ref)) ts) :
    ∃ name : Token, name.kind = .ident ∧ ref = ⟨name, none⟩ ∧ ts = [name] := by
  generalize hp : ExprPhrase.tier t (.var ref) = p at h
  induction h generalizing t with
  | tighter _ _ ih => cases hp; exact ih rfl
  | name hk => cases hp; exact ⟨_, hk, rfl, rfl⟩
  | operator hn _ _ _ _ _ =>
    injection hp with _ he
    obtain ⟨_, _, _, ⟨b, _, rfl⟩ | ⟨l, _, rfl⟩⟩ := Tier.node_cases hn <;> cases he
  | _ => cases hp

/-- A property is spelled by its object, a dot and its name, in every tier. -/
theorem Spells.get_inv {o : Expr} {name : Token} (h : Spells (.tier t (.get o name)) ts) :
    ∃ (os : List Token) (dot : Token), Spells (.tier .call o) os ∧ dot.kind = .dot ∧
      name.kind = .ident ∧ ts = os ++ [dot, name] := by
  generalize hp : ExprPhrase.tier t (.get o name) = p at h
  induction h generalizing t with
  | tighter _ _ ih => cases hp; exact ih rfl
  | property ho hd hk => cases hp; exact ⟨_, _, ho, hd, hk, rfl⟩
  | operator hn _ _ _ _ _ =>
    injection hp with _ he
    obtain ⟨_, _, _, ⟨b, _, rfl⟩ | ⟨l, _, rfl⟩⟩ := Tier.node_cases hn <;> cases he
  | _ => cases hp

/-! ## Where expressions stop -/

/-- An expression asked for at a level is of a tighter tier; a unary operator also takes another
one. -/
def Above (level : Precedence) (t : Tier) : Prop :=
  level.rank < t.rank ∨ Precedence.unary.rank ≤ t.rank

theorem Above.tighter {level : Precedence} {t u : Tier} (h : Above level t)
    (hu : t.tighter? = some u) : Above level u := by
  have := Tier.rank_of_tighter hu
  unfold Above at *
  omega

/-- No operator of a rank above `n` comes first. -/
def StopsAt (n : Nat) (ts : List Token) : Prop :=
  ∀ t op, ts.head? = some t → Operator.ofKind? t.kind = some op → op.precedence.rank ≤ n

theorem StopsAt.mono {n m : Nat} {ts : List Token} (h : StopsAt n ts) (hnm : n ≤ m) :
    StopsAt m ts :=
  fun t op ht ho => Nat.le_trans (h t op ht ho) hnm

/-- A token that is no operator ends any expression. -/
theorem stopsAt_of_none {n : Nat} {t : Token} {tail : List Token}
    (h : Operator.ofKind? t.kind = none) :
    StopsAt n (t :: tail) := by
  intro u op hu ho
  cases hu
  rw [h] at ho
  cases ho

theorem stopsAt_cons {n : Nat} {op : Operator} {t : Token} {tail : List Token}
    (h : Operator.ofKind? t.kind = some op) (hn : op.precedence.rank ≤ n) :
    StopsAt n (t :: tail) := by
  intro u op' hu ho
  cases hu
  rw [h] at ho
  cases ho
  exact hn

theorem rank_precedence_le (op : Operator) : op.precedence.rank ≤ 10 := by
  cases op with
  | binary b => cases b <;> decide
  | logical l => cases l <;> decide
  | assign => decide
  | call => decide
  | get => decide

theorem stopsAt_call (ts : List Token) : StopsAt Tier.call.follow ts := fun _ op _ _ =>
  rank_precedence_le op

/-! ## Loops -/

/-- The `while` form of a `for` loop is the tree that the parser builds for it. -/
theorem whileForm_iff {kw : Token} {init : Option Stmt} {cond step : Option Expr}
    {body s : Stmt} : WhileForm kw init cond step body s ↔ s = .forLoop kw init cond step body := by
  constructor
  · intro h
    induction h with
    | loop => rfl
    | endless _ ih => exact ih
    | step _ ih => exact ih
    | init _ ih => subst ih; rfl
  · rintro rfl
    have bare : ∀ cond body,
        WhileForm kw none cond none body (.forLoop kw none cond none body) := by
      intro cond body
      cases cond with
      | some e => exact .loop
      | none => exact .endless .loop
    have stepped : WhileForm kw none cond step body (.forLoop kw none cond step body) := by
      cases step with
      | none => exact bare _ _
      | some e => exact .step (bare _ _)
    cases init with
    | none => exact stepped
    | some i => exact .init stepped

end Lox.Grammar
