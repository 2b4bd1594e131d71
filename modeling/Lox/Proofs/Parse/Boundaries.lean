import Lox.Proofs.Parse.Acceptance
import Lox.Proofs.Parse.Carrying
import Lox.Token.Scan
/-!
# Where statements meet

Two inputs put one behind the other are parsed as the two alone, in two cases. Behind a program
without errors anything may follow but an `else` (`parsing_composes`): a complete statement
decides nothing from the token behind it. Behind a semicolon anything at all may follow
(`semicolon_contains_errors`), however wrong the row before it is, as long as no statement begins
or ends inside that row: every parser that can fail there stops at or before the semicolon, and
recovery then skips exactly to it.
-/

namespace Lox

namespace Program

/-- **Parsing is compositional at statement boundaries.** -/
theorem parsing_composes {a b : List Token} {lineA : Nat} (ha : (ofTokens a lineA).errors = [])
    (hb : Parser.NoElse b) (line : Nat) :
    ofTokens (a ++ b) line =
      ⟨(ofTokens a lineA).statements ++ (ofTokens b line).statements,
        (ofTokens b line).errors⟩ :=
  accepted_then (grammatical_of_accepted ha) hb

/-- Loops whose bodies end in an `if` that could take an `else`. -/
def openIfs : List Token :=
  (Scan.ofBytes (utf8 "while (x) if (y) print 1; for (;;) if (z) z = 2;")).tokens

/-- Two wrong statements and a right one. -/
def faulty : List Token := (Scan.ofBytes (utf8 "print ) 3; var 4; print 5;")).tokens

theorem parsing_composes_openIfs :
    ((ofTokens openIfs 1).errors = [] ∧ Parser.NoElse faulty) ∧
      ofTokens (openIfs ++ faulty) 2 =
        ⟨(ofTokens openIfs 1).statements ++ (ofTokens faulty 2).statements,
          (ofTokens faulty 2).errors⟩ := by
  have ha : (ofTokens openIfs 1).errors = [] := by decide +kernel
  have hb : Parser.NoElse faulty := by
    have hfirst : faulty.head?.map (·.kind) = some .kwPrint := by decide +kernel
    intro t ht
    rw [ht, Option.map_some, Option.some.injEq] at hfirst
    simp [hfirst]
  exact ⟨⟨ha, hb⟩, parsing_composes ha hb 2⟩

end Program

/-! ## Rows up to a semicolon -/

/-- Whether no statement begins or ends with a token of this kind. -/
def Kind.inner (k : Kind) : Bool :=
  !k.startsStatement && k != .semicolon && k != .leftBrace && k != .rightBrace

/-- Whether no statement begins or ends inside the row. A `var`, `print` or `return` may come
first. -/
def isFragment : List Token → Bool
  | [] => true
  | t :: ts => (t.kind.inner || t.kind == .kwVar || t.kind == .kwPrint || t.kind == .kwReturn) &&
      ts.all (·.kind.inner)

namespace Fragment

variable {row u : List Token} {semi t : Token} {rest : List Token}

/-- Behind its first token, no part of the row starts a statement. -/
theorem not_starts (h : isFragment row = true) (hu : u <:+ row) (ht : t ∈ u.tail) :
    t.kind.startsStatement = false := by
  have hmem : t ∈ row.tail := by
    obtain ⟨before, rfl⟩ := hu
    cases before with
    | nil => exact ht
    | cons x xs => exact List.mem_append_right _ (List.mem_of_mem_tail ht)
  cases row with
  | nil => simp at hmem
  | cons x xs =>
    simp only [isFragment, Bool.and_eq_true, List.all_eq_true] at h
    have hinner := h.2 t hmem
    simp only [Kind.inner, Bool.and_eq_true, Bool.not_eq_true'] at hinner
    exact hinner.1.1.1

theorem ne_semicolon (h : isFragment row = true) (ht : t ∈ row) : t.kind ≠ .semicolon := by
  cases row with
  | nil => simp at ht
  | cons x xs =>
    simp only [isFragment, Bool.and_eq_true, List.all_eq_true] at h
    rcases List.mem_cons.1 ht with rfl | ht
    · intro hk
      rw [hk] at h
      exact absurd h.1 (by decide)
    · intro hk
      have := h.2 t ht
      rw [hk] at this
      cases this

/-- Recovery skips to the semicolon and no further. -/
theorem skipStatement_append (hsemi : semi.kind = .semicolon)
    (hu : ∀ t ∈ u, t.kind ≠ .semicolon) (htail : ∀ t ∈ u.tail, t.kind.startsStatement = false) :
    Parser.skipStatement (u ++ semi :: rest) = semi :: rest := by
  induction u with
  | nil =>
    cases rest with
    | nil => rfl
    | cons v vs => simp [Parser.skipStatement, hsemi]
  | cons x xs ih =>
    have hx : x.kind ≠ .semicolon := hu x List.mem_cons_self
    have hskip := ih (fun t ht => hu t (List.mem_cons_of_mem _ ht)) fun t ht =>
      htail t (List.mem_of_mem_tail ht)
    cases xs with
    | nil =>
      have hs : semi.kind.startsStatement = false := by rw [hsemi]; rfl
      simpa [Parser.skipStatement, hx, hs] using hskip
    | cons y ys =>
      have hy : y.kind.startsStatement = false := htail y List.mem_cons_self
      simpa [Parser.skipStatement, hx, hy] using hskip

/-- The error is at a token of the row or at the semicolon. -/
def Placed (row : List Token) (semi : Token) (e : SyntaxError) : Prop :=
  ∃ t ∈ row ++ [semi], e.site = .token t

/-- Two cursors with `u` left of the row before the semicolon. Nothing stands behind the
semicolon of the first, and `rest` behind that of the second. -/
structure Along (row : List Token) (semi : Token) (rest u : List Token) (c c' : Cursor) :
    Prop where
  suffix : u <:+ row
  alone : c.rest = u ++ [semi]
  whole : c'.rest = u ++ semi :: rest
  errors : c'.errors = c.errors
  placed : ∀ e ∈ c.errors, Placed row semi e

/-- Neither parser has given up anything. -/
structure Calm (c c' : Cursor) : Prop where
  alone : c.panicking = false
  whole : c'.panicking = false
  errors : c.errors.filter (·.fault.unwinds) = []

variable {c c' : Cursor}

namespace Along

theorem current (h : Along row semi rest u c c') :
    ∃ t ∈ row ++ [semi], c.current? = some t ∧ c'.current? = some t := by
  cases u with
  | nil => exact ⟨semi, by simp, by simp [Cursor.current?, h.alone], by
      simp [Cursor.current?, h.whole]⟩
  | cons t u =>
    have ht : t ∈ row := h.suffix.subset List.mem_cons_self
    exact ⟨t, by simp [ht], by simp [Cursor.current?, h.alone], by
      simp [Cursor.current?, h.whole]⟩

theorem advance (h : Along row semi rest (t :: u) c c') :
    Along row semi rest u c.advance c'.advance where
  suffix := (List.suffix_cons t u).trans h.suffix
  alone := by simp [Cursor.advance, h.alone]
  whole := by simp [Cursor.advance, h.whole]
  errors := h.errors
  placed := h.placed

theorem next (h : Along row semi rest (t :: u) c c') :
    ∃ x ∈ row ++ [semi], c.next? = some x ∧ c'.next? = some x := h.advance.current

theorem report (h : Along row semi rest u c c') (ht : t ∈ row ++ [semi]) (fault : SyntaxFault) :
    Along row semi rest u (c.report (.token t) fault) (c'.report (.token t) fault) where
  suffix := h.suffix
  alone := h.alone
  whole := h.whole
  errors := by simp [Cursor.report, h.errors]
  placed e he := by
    rcases List.mem_cons.1 he with rfl | he
    · exact ⟨t, ht, rfl⟩
    · exact h.placed e he

end Along

theorem Calm.report {site : Site} {fault : SyntaxFault} (h : Calm c c')
    (hf : fault.unwinds = false) : Calm (c.report site fault) (c'.report site fault) :=
  ⟨h.alone, h.whole, by simp [Cursor.report, hf, h.errors]⟩

/-- Both parsers have given up at the same place, and only there. -/
def GivenUp (row : List Token) (semi : Token) (rest : List Token) (c c' : Cursor) : Prop :=
  ∃ u, Along row semi rest u c c' ∧ (c.errors.filter (·.fault.unwinds)).length = 1

theorem givenUp_panic {fault : SyntaxFault} (h : Along row semi rest u c c') (hc : Calm c c')
    (ht : t ∈ row ++ [semi]) (hf : fault.unwinds = true) :
    GivenUp row semi rest (c.panic (.token t) fault) (c'.panic (.token t) fault) := by
  have hr := h.report ht fault
  refine ⟨u, ⟨hr.suffix, hr.alone, hr.whole, hr.errors, hr.placed⟩, ?_⟩
  simp [Cursor.panic, Cursor.report, hf, hc.errors]

/-- A parse of the row up to its semicolon, and one with more behind the semicolon. -/
def lockstep (row : List Token) (semi : Token) (rest : List Token)
    (hsemi : semi.kind = .semicolon) : Lockstep where
  At c c' := ∃ u, Along row semi rest u c c' ∧ Calm c c'
  On c c' := ∃ t u, Along row semi rest (t :: u) c c' ∧ Calm c c'
  Failed := GivenUp row semi rest
  Met t := t ∈ row ++ [semi]
  current := by
    rintro c c' ⟨u, h, -⟩
    obtain ⟨t, -, h₁, h₂⟩ := h.current
    rw [h₁, h₂]
  next := by
    rintro c c' ⟨t, u, h, -⟩
    obtain ⟨x, -, h₁, h₂⟩ := h.next
    rw [h₁, h₂]
  on := by
    rintro c c' t ⟨u, h, hc⟩ ht hk
    cases u with
    | nil =>
      have : c.current? = some semi := by simp [Cursor.current?, h.alone]
      rw [this, Option.some.injEq] at ht
      exact absurd hsemi (ht ▸ hk)
    | cons x u => exact ⟨x, u, h, hc⟩
  advance := by
    rintro c c' ⟨t, u, h, hc⟩
    exact ⟨u, h.advance, hc.alone, hc.whole, hc.errors⟩
  met := by
    rintro c c' t ⟨x, u, h, -⟩ ht
    obtain ⟨y, hy, h₁, -⟩ := h.next
    rw [h₁, Option.some.injEq] at ht
    exact ht ▸ hy
  failCurrent := by
    rintro c c' fault ⟨u, h, hc⟩ hf
    obtain ⟨t, ht, h₁, h₂⟩ := h.current
    rw [h₁, h₂]
    exact givenUp_panic h hc ht hf
  failNext := by
    rintro c c' fault ⟨x, u, h, hc⟩ hf
    obtain ⟨t, ht, h₁, h₂⟩ := h.next
    rw [h₁, h₂]
    exact givenUp_panic h hc ht hf
  reportCurrent := by
    rintro c c' fault ⟨x, u, h, hc⟩ hf
    obtain ⟨t, ht, h₁, h₂⟩ := h.current
    rw [h₁, h₂]
    exact ⟨x, u, h.report ht fault, hc.report hf⟩
  reportMet := by
    rintro c c' t fault ⟨x, u, h, hc⟩ ht hf
    exact ⟨x, u, h.report ht fault, hc.report hf⟩

/-! ## Statements up to a semicolon -/

/-- Both parsers stand on the semicolon and have a statement. -/
def Ended (row : List Token) (semi : Token) (rest : List Token) (c c' : Cursor) : Prop :=
  Along row semi rest [] c c' ∧ Calm c c'

variable {fuel fuel' : Nat} (hrow : isFragment row = true) (hsemi : semi.kind = .semicolon)
include hrow hsemi

/-- Where a semicolon must follow, either it does or it is missing for both. -/
theorem expect_ended {fault : SyntaxFault} (h : (lockstep row semi rest hsemi).On c c')
    (hf : fault.unwinds = true) (s : Stmt) :
    ((Parser.expect .semicolon fault >>= fun _ => pure s) c).InStep (Ended row semi rest)
      (GivenUp row semi rest) ((Parser.expect .semicolon fault >>= fun _ => pure s) c') := by
  have hfail := (lockstep row semi rest hsemi).failNext h hf
  obtain ⟨t, u, h, hc⟩ := h
  refine Parser.inStep_bind (R := Ended row semi rest) ?_ fun _ _ _ h₁ => Parser.inStep_ok s h₁
  unfold Parser.expect
  cases u with
  | nil =>
    have h₁ : c.next? = some semi := by simp [Cursor.next?, h.alone]
    have h₂ : c'.next? = some semi := by simp [Cursor.next?, h.whole]
    simp only [h₁, h₂, hsemi, beq_self_eq_true, if_true]
    exact Parser.inStep_ok semi ⟨h.advance, hc.alone, hc.whole, hc.errors⟩
  | cons x u =>
    have h₁ : c.next? = some x := by simp [Cursor.next?, h.alone]
    have h₂ : c'.next? = some x := by simp [Cursor.next?, h.whole]
    have hx : x.kind ≠ .semicolon := ne_semicolon hrow (h.advance.suffix.subset List.mem_cons_self)
    rw [h₁, h₂] at hfail
    simp only [h₁, h₂, beq_eq_false_iff_ne.2 hx, Bool.false_eq_true, if_false]
    exact hfail

theorem expression_ended (hle : fuel ≤ fuel') {fault : SyntaxFault}
    (h : (lockstep row semi rest hsemi).At c c') (hf : fault.unwinds = true)
    (f : Expr → Stmt) :
    ((Parser.expression fuel .lowest >>= fun e => Parser.expect .semicolon fault >>= fun _ =>
        pure (f e)) c).InStep (Ended row semi rest) (GivenUp row semi rest)
      ((Parser.expression fuel' .lowest >>= fun e => Parser.expect .semicolon fault >>= fun _ =>
        pure (f e)) c') :=
  Parser.inStep_bind ((Parser.exprInStep _ hle).expression .lowest h) fun e _ _ h₁ =>
    expect_ended hrow hsemi h₁ hf (f e)

theorem varDecl_ended (hle : fuel ≤ fuel') (h : (lockstep row semi rest hsemi).On c c')
    (keyword : Token) :
    (Parser.varDecl fuel keyword c).InStep (Ended row semi rest) (GivenUp row semi rest)
      (Parser.varDecl fuel' keyword c') := by
  rw [Parser.varDecl_eq, Parser.varDecl_eq]
  refine Parser.inStep_bind (Parser.expect_inStep h (by simp) rfl) fun name c₁ c₁' h₁ => ?_
  unfold Parser.afterVarName
  rw [Lockstep.nextIs _ h₁]
  split
  · rename_i hassign
    obtain ⟨t, ht, hk⟩ := Parser.next_of_nextIs hassign
    have h₂ := Lockstep.on _ (Lockstep.advance _ h₁) ht (by simp [hk])
    exact expression_ended hrow hsemi hle (Lockstep.advance _ h₂) rfl _
  · exact expect_ended hrow hsemi h₁ rfl _

theorem returnStmt_ended (hle : fuel ≤ fuel') (h : (lockstep row semi rest hsemi).On c c')
    (keyword : Token) :
    (Parser.returnStmt fuel keyword c).InStep (Ended row semi rest) (GivenUp row semi rest)
      (Parser.returnStmt fuel' keyword c') := by
  rw [Parser.returnStmt_eq, Parser.returnStmt_eq, Lockstep.nextIs _ h]
  split
  · exact expect_ended hrow hsemi h rfl _
  · exact expression_ended hrow hsemi hle (Lockstep.advance _ h) rfl _

/-- What can come first in a row, or be the semicolon. -/
theorem first_kind (h : Along row semi rest row c c') (ht : c.current? = some t) :
    t.kind = .semicolon ∨ t.kind.inner = true ∨ t.kind = .kwVar ∨ t.kind = .kwPrint ∨
      t.kind = .kwReturn := by
  cases row with
  | nil =>
    have : c.current? = some semi := by simp [Cursor.current?, h.alone]
    rw [this, Option.some.injEq] at ht
    exact .inl (ht ▸ hsemi)
  | cons x xs =>
    have : c.current? = some x := by simp [Cursor.current?, h.alone]
    rw [this, Option.some.injEq] at ht
    simp only [isFragment, Bool.and_eq_true, Bool.or_eq_true, beq_iff_eq] at hrow
    rcases hrow.1 with ((hk | hk) | hk) | hk <;> simp [← ht, hk]

/-- A row is parsed as a variable declaration, as a `print` or `return` statement, or as an
expression. -/
theorem declared_ended (hle : fuel ≤ fuel') (h : Along row semi rest row c c') (hc : Calm c c') :
    (Parser.declared (fuel + 1) c).InStep (Ended row semi rest) (GivenUp row semi rest)
      (Parser.declared (fuel' + 1) c') := by
  have hat : (lockstep row semi rest hsemi).At c c' := ⟨row, h, hc⟩
  obtain ⟨t, -, ht, ht'⟩ := h.current
  have hfirst := first_kind hrow hsemi h ht
  have on : t.kind ≠ .semicolon → (lockstep row semi rest hsemi).On c c' :=
    Lockstep.on _ hat ht
  have hexpr : (Parser.exprStmt fuel c).InStep (Ended row semi rest) (GivenUp row semi rest)
      (Parser.exprStmt fuel' c') := by
    rw [Parser.exprStmt_eq, Parser.exprStmt_eq, ht, ht']
    exact expression_ended hrow hsemi hle hat rfl _
  unfold Parser.declared
  rw [Parser.statement_eq, Parser.statement_eq, ht, ht']
  simp only
  cases hk : t.kind <;> simp only
  case kwVar => exact varDecl_ended hrow hsemi (by omega) (on (by simp [hk])) t
  case kwPrint =>
    rw [Parser.printStmt_eq, Parser.printStmt_eq]
    exact expression_ended hrow hsemi hle (Lockstep.advance _ (on (by simp [hk]))) rfl _
  case kwReturn => exact returnStmt_ended hrow hsemi hle (on (by simp [hk])) t
  case kwClass | kwFun | kwFor | kwIf | kwWhile | leftBrace =>
    simp [hk, Kind.inner, Kind.startsStatement] at hfirst
  all_goals exact hexpr

/-- The row and its semicolon are passed, for a statement or for one error that unwinds. -/
theorem declaration_ended (hle : fuel ≤ fuel') (h : Along row semi rest row c c')
    (hc : Calm c c') {s : Option Stmt} {c₁ : Cursor}
    (hs : Parser.declaration (fuel + 2) c = .ok s c₁) :
    ∃ c₁', Parser.declaration (fuel' + 2) c' = .ok s c₁' ∧ Along row semi rest [] c₁ c₁' ∧
      s.toList.length + (c₁.errors.filter (·.fault.unwinds)).length = 1 := by
  have hstep := declared_ended hrow hsemi hle h hc
  rw [Parser.declaration_eq] at hs ⊢
  unfold Parser.recover at hs ⊢
  cases hr : Parser.declared (fuel + 1) c with
  | ok stmt c₂ =>
    rw [hr] at hs hstep
    obtain ⟨c₂', hr', h₂, hc₂⟩ := hstep.of_ok
    simp only [hc₂.alone, Bool.false_eq_true, if_false] at hs
    cases hs
    refine ⟨c₂', by simp [hr', hc₂.whole], h₂, by simp [hc₂.errors]⟩
  | failed c₂ =>
    rw [hr] at hs hstep
    obtain ⟨c₂', hr', u, h₂, hcount⟩ := hstep.of_failed
    have hu : ∀ t ∈ u, t.kind ≠ .semicolon := fun t ht =>
      ne_semicolon hrow (h₂.suffix.subset ht)
    have htail : ∀ t ∈ u.tail, t.kind.startsStatement = false := fun t ht =>
      not_starts hrow h₂.suffix ht
    cases hs
    refine ⟨{ c₂' with rest := Parser.skipStatement c₂'.rest, panicking := false }, by rw [hr'],
      ⟨List.nil_suffix, ?_, ?_, h₂.errors, h₂.placed⟩, by simpa using hcount⟩
    · simpa only [h₂.alone, List.nil_append] using skipStatement_append hsemi hu htail
    · simpa only [h₂.whole, List.nil_append] using skipStatement_append hsemi hu htail
  | exhausted => rw [hr] at hs; cases hs

end Fragment

open Fragment (Placed)

/-- **Error recovery is contained by the next semicolon.** The row before it and what stands
behind it are parsed as if each stood alone. The errors of the row are all at its own tokens or
at the semicolon, and it gives either one statement or one error that unwinds. -/
theorem Program.semicolon_contains_errors {row : List Token} {semi : Token}
    (hrow : isFragment row = true) (hsemi : semi.kind = .semicolon) (rest : List Token)
    (line endLine : Nat) :
    ofTokens (row ++ semi :: rest) endLine =
        ⟨(ofTokens (row ++ [semi]) line).statements ++ (ofTokens rest endLine).statements,
          (ofTokens (row ++ [semi]) line).errors ++ (ofTokens rest endLine).errors⟩ ∧
      (∀ e ∈ (ofTokens (row ++ [semi]) line).errors, Placed row semi e) ∧
      (ofTokens (row ++ [semi]) line).statements.length +
        ((ofTokens (row ++ [semi]) line).errors.filter (·.fault.unwinds)).length = 1 := by
  obtain ⟨fuel, hf⟩ : ∃ fuel, fuelFor (row ++ [semi]).length = fuel + 2 + 1 :=
    ⟨fuelFor (row ++ [semi]).length - 3, by simp only [fuelFor]; omega⟩
  obtain ⟨fuel', hf'⟩ : ∃ fuel, fuelFor (row ++ semi :: rest).length = fuel + 2 + 1 :=
    ⟨fuelFor (row ++ semi :: rest).length - 3, by simp only [fuelFor]; omega⟩
  have hle : fuel ≤ fuel' := by
    simp only [fuelFor, List.length_append, List.length_cons, List.length_nil] at hf hf'
    omega
  obtain ⟨s, c, hd, halone⟩ := ofTokens_cons (by simp) hf line
  obtain ⟨s', c', hd', hwhole⟩ := ofTokens_cons (by simp) hf' endLine
  have hstart : Fragment.Along row semi rest row (start (row ++ [semi]) line)
      (start (row ++ semi :: rest) endLine) :=
    ⟨List.suffix_rfl, rfl, rfl, rfl, fun e he => by cases he⟩
  obtain ⟨c₁', hd₁, h, hcount⟩ := Fragment.declaration_ended hrow hsemi hle hstart
    ⟨rfl, rfl, rfl⟩ hd
  obtain ⟨rfl, rfl⟩ : s' = s ∧ c' = c₁' := by simpa [hd₁, eq_comm] using hd'
  have hnil : ofTokens [] line = ⟨[], []⟩ := rfl
  have hrest : ofTokens (row ++ [semi]) line = ⟨s'.toList, c.errors.reverse⟩ := by
    rw [halone, h.alone]
    simp [hnil]
  rw [hwhole, hrest, h.whole, h.errors]
  refine ⟨rfl, fun e he => h.placed e (List.mem_reverse.1 he), ?_⟩
  simpa only [List.filter_reverse, List.length_reverse] using hcount

/-- An assignment to a sum, and then nothing that could be its value. -/
def stuckRow : List Token := (Scan.ofBytes (utf8 "var x = a + b = (c = d * )")).tokens

def semicolon : Token := ⟨.semicolon, utf8 ";", 1⟩

theorem Program.semicolon_contains_errors_stuckRow :
    (isFragment stuckRow = true ∧ semicolon.kind = .semicolon) ∧
      ofTokens (stuckRow ++ semicolon :: faulty) 3 =
        ⟨(ofTokens (stuckRow ++ [semicolon]) 1).statements ++ (ofTokens faulty 3).statements,
          (ofTokens (stuckRow ++ [semicolon]) 1).errors ++ (ofTokens faulty 3).errors⟩ ∧
      (∀ e ∈ (ofTokens (stuckRow ++ [semicolon]) 1).errors, Placed stuckRow semicolon e) ∧
      (ofTokens (stuckRow ++ [semicolon]) 1).statements.length +
        ((ofTokens (stuckRow ++ [semicolon]) 1).errors.filter (·.fault.unwinds)).length = 1 :=
  have hrow : isFragment stuckRow = true := by decide +kernel
  ⟨⟨hrow, rfl⟩, semicolon_contains_errors hrow rfl faulty 1 3⟩

end Lox
