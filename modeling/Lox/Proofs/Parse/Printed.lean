import Lox.Proofs.Parse.Acceptance
import Lox.Proofs.Scan.Joining
import Lox.Proofs.Tree.Printed
import Lox.Proofs.Tree.Spots
/-!
# Printed programs

In a source that is scanned and parsed without errors, names are never reserved words and numbers
are never infinite. So every expression that occurs in such a source is read back from its printed
form, and the printed form determines it up to tokens, lines and distances. Main statement:
`Expr.shape_of_printed`.
-/

namespace Lox

/-! ## Occurrences -/

/-- The expressions directly inside an expression. -/
def Expr.parts : Expr → List Expr
  | .literal .. | .var _ | .this _ | .super .. => []
  | .grouping _ e | .unary _ _ e | .assign _ e | .get e _ => [e]
  | .binary _ _ l r | .logical _ _ l r => [l, r]
  | .set o _ v => [o, v]
  | .call _ f args => f :: args

/-- `e` is an expression, or stands inside it. -/
inductive Expr.Inside (e : Expr) : Expr → Prop
  | self : Inside e e
  | part {p q : Expr} : q ∈ p.parts → Inside e q → Inside e p

mutual

/-- The expression without the distances of its variables, as it is parsed. -/
def Expr.unbound : Expr → Expr
  | .literal t v => .literal t v
  | .grouping t e => .grouping t e.unbound
  | .unary op t e => .unary op t e.unbound
  | .binary op t l r => .binary op t l.unbound r.unbound
  | .logical op t l r => .logical op t l.unbound r.unbound
  | .var ref => .var { ref with hops := none }
  | .assign ref e => .assign { ref with hops := none } e.unbound
  | .call t f args => .call t f.unbound (Expr.unboundAll args)
  | .get o name => .get o.unbound name
  | .set o name v => .set o.unbound name v.unbound
  | .this ref => .this { ref with hops := none }
  | .super ref method => .super { ref with hops := none } method

def Expr.unboundAll : List Expr → List Expr
  | [] => []
  | e :: es => e.unbound :: Expr.unboundAll es

end

/-- The expressions directly inside a statement; the superclass of a class is one. -/
def Stmt.exprs : Stmt → List Expr
  | .expr _ e | .print _ e | .ifElse _ e _ _ | .loop _ e _ => [e]
  | .varDecl _ _ e | .ret _ e => e.toList
  | .classDecl _ _ superclass _ => (superclass.map Expr.var).toList
  | .block .. | .funDecl _ => []

/-- `e` stands in a statement. -/
inductive Expr.OccursIn (e : Expr) : Stmt → Prop
  | here {s : Stmt} {q : Expr} : q ∈ s.exprs → e.Inside q → OccursIn e s
  | inside {s t : Stmt} : t ∈ s.parts → OccursIn e t → OccursIn e s

/-- The source is scanned and parsed without errors, and `e` stands in what it is parsed to,
whatever distances have been found out since. -/
structure Expr.FoundIn (e : Expr) (source : Bytes) : Prop where
  scan : (Scan.ofBytes source).errors = []
  parse : (Program.ofTokens (Scan.ofBytes source).tokens (Scan.ofBytes source).endLine).errors = []
  occurs : ∃ s ∈ (Program.ofTokens (Scan.ofBytes source).tokens
    (Scan.ofBytes source).endLine).statements, e.unbound.OccursIn s

/-! ## Tokens -/

/-- A name is no reserved word, and a number is finite. -/
structure Token.Legible (t : Token) : Prop where
  name : t.kind = .ident → Shape.IsName t.lexeme
  number : t.kind = .number → (Token.numberValue t.lexeme).isInf = false

theorem Lexeme.isName {w : Bytes} (h : Lexeme .ident w) : Shape.IsName w := by
  generalize hk : Kind.ident = kind at h
  cases h with
  | word hb ht => exact ⟨⟨_, _, rfl, hb, ht⟩, hk.symm⟩
  | symbol hs =>
    subst hk
    cases hs
  | _ => cases hk

theorem Scan.legible_of_mem {source : Bytes} (h : (Scan.ofBytes source).errors = []) {t : Token}
    (ht : t ∈ (Scan.ofBytes source).tokens) : t.Legible where
  name hk := by
    have hlexeme := lexeme_of_mem ht
    rw [hk] at hlexeme
    exact hlexeme.isName
  number hk := by
    have hnone := errors_tooLarge source
    rw [h, List.filter_nil, eq_comm, List.filterMap_eq_nil_iff] at hnone
    cases hinf : (Token.numberValue t.lexeme).isInf with
    | false => rfl
    | true =>
      have hfault := hnone t ht
      simp [Token.error?, Token.fault?, hk, hinf] at hfault

/-! ## Expressions -/

namespace Grammar

variable {ts : List Token}

theorem constant_plain {t : Token} {v : Literal} (h : constant? t = some v) (ht : t.Legible) :
    v.Plain := by
  unfold constant? at h
  split at h
  case h_1 hk =>
    cases h
    exact Decimal.numeral_write_read rfl (ht.number hk)
  all_goals cases h
  all_goals trivial

theorem node_plain {t : Tier} {kind : Kind} {node : Token → Expr → Expr → Expr} {op : Token}
    {l r : Expr} (h : t.node? kind = some node) (hl : l.Plain) (hr : r.Plain) :
    (node op l r).Plain := by
  unfold Tier.node? at h
  split at h
  all_goals cases h
  all_goals first | exact .logical hl hr | exact .binary hl hr

def ExprPhrase.Plain : ExprPhrase → Prop
  | .tier _ e => e.Plain
  | .arguments es => ∀ e ∈ es, e.Plain

theorem Spells.isPlain {p : ExprPhrase} (h : Spells p ts) (hts : ∀ t ∈ ts, t.Legible) :
    p.Plain := by
  induction h with
  | tighter _ _ ih => exact ih hts
  | assignName hname _ _ ih =>
    simp only [List.forall_mem_cons] at hts
    exact .assign (hts.1.name hname) (ih hts.2.2)
  | assignProperty _ _ hname _ _ iho ihv =>
    simp only [List.forall_mem_append, List.forall_mem_cons] at hts
    exact .set (iho hts.1) (hts.2.2.1.name hname) (ihv hts.2.2.2.2)
  | operator hnode _ _ _ ihl ihr =>
    simp only [List.forall_mem_append, List.forall_mem_cons] at hts
    exact node_plain hnode (ihl hts.1) (ihr hts.2.2)
  | unary _ _ ih => exact .unary (ih (List.forall_mem_cons.1 hts).2)
  | callEmpty _ _ _ ih => exact .call (ih (List.forall_mem_append.1 hts).1) (List.forall_mem_nil _)
  | call _ _ _ _ _ ihf iha =>
    simp only [List.forall_mem_append, List.forall_mem_cons] at hts
    exact .call (ihf hts.1) (iha hts.2.2.1)
  | property _ _ hname ih =>
    simp only [List.forall_mem_append, List.forall_mem_cons] at hts
    exact .get (ih hts.1) (hts.2.2.1.name hname)
  | constant hv => exact .literal (constant_plain hv (hts _ List.mem_cons_self))
  | name hname => exact .var ((hts _ List.mem_cons_self).name hname)
  | this _ => exact .this
  | super _ _ hname =>
    simp only [List.forall_mem_cons] at hts
    exact .super (hts.2.2.1.name hname)
  | group _ _ _ ih =>
    simp only [List.forall_mem_append, List.forall_mem_cons] at hts
    exact .grouping (ih hts.2.1)
  | lastArgument _ ih => exact List.forall_mem_singleton.2 (ih hts)
  | argument _ _ _ ih ihs =>
    simp only [List.forall_mem_append, List.forall_mem_cons] at hts
    exact List.forall_mem_cons.2 ⟨ih hts.1, ihs hts.2.2⟩

end Grammar

namespace Expr

theorem Plain.part {e q : Expr} (h : e.Plain) (hq : q ∈ e.parts) : q.Plain := by
  cases h with
  | literal _ => cases hq
  | var _ => cases hq
  | this => cases hq
  | super _ => cases hq
  | grouping he =>
    obtain rfl := List.mem_singleton.1 hq
    exact he
  | unary he =>
    obtain rfl := List.mem_singleton.1 hq
    exact he
  | assign _ he =>
    obtain rfl := List.mem_singleton.1 hq
    exact he
  | get he _ =>
    obtain rfl := List.mem_singleton.1 hq
    exact he
  | binary hl hr => exact List.forall_mem_cons.2 ⟨hl, List.forall_mem_singleton.2 hr⟩ q hq
  | logical hl hr => exact List.forall_mem_cons.2 ⟨hl, List.forall_mem_singleton.2 hr⟩ q hq
  | set ho _ hv => exact List.forall_mem_cons.2 ⟨ho, List.forall_mem_singleton.2 hv⟩ q hq
  | call hf hargs => exact List.forall_mem_cons.2 ⟨hf, hargs⟩ q hq

theorem Plain.inside {e q : Expr} (h : q.Plain) (he : e.Inside q) : e.Plain := by
  induction he with
  | self => exact h
  | part hq _ ih => exact ih (h.part hq)

mutual

theorem plain_of_unbound : ∀ {e : Expr}, e.unbound.Plain → e.Plain
  | .literal _ _, h => h
  | .grouping _ _, h => by
    cases h with
    | grouping h => exact .grouping (plain_of_unbound h)
  | .unary _ _ _, h => by
    cases h with
    | unary h => exact .unary (plain_of_unbound h)
  | .binary _ _ _ _, h => by
    cases h with
    | binary hl hr => exact .binary (plain_of_unbound hl) (plain_of_unbound hr)
  | .logical _ _ _ _, h => by
    cases h with
    | logical hl hr => exact .logical (plain_of_unbound hl) (plain_of_unbound hr)
  | .var _, h => by
    cases h with
    | var hname => exact .var hname
  | .assign _ _, h => by
    cases h with
    | assign hname hv => exact .assign hname (plain_of_unbound hv)
  | .call _ _ _, h => by
    cases h with
    | call hf hargs => exact .call (plain_of_unbound hf) (plain_of_unboundAll hargs)
  | .get _ _, h => by
    cases h with
    | get ho hname => exact .get (plain_of_unbound ho) hname
  | .set _ _ _, h => by
    cases h with
    | set ho hname hv => exact .set (plain_of_unbound ho) hname (plain_of_unbound hv)
  | .this _, _ => .this
  | .super _ _, h => by
    cases h with
    | super hname => exact .super hname

theorem plain_of_unboundAll : ∀ {es : List Expr}, (∀ e ∈ unboundAll es, e.Plain) →
    ∀ e ∈ es, e.Plain
  | [], _ => List.forall_mem_nil _
  | _ :: _, h => List.forall_mem_cons.2 ⟨plain_of_unbound (List.forall_mem_cons.1 h).1,
      plain_of_unboundAll (List.forall_mem_cons.1 h).2⟩

end

end Expr

/-! ## Statements -/

/-- All expressions in the statement are plain. -/
def Stmt.Plain (s : Stmt) : Prop := ∀ e : Expr, e.OccursIn s → e.Plain

theorem Stmt.plain_of {s : Stmt} (hexprs : ∀ q ∈ s.exprs, q.Plain)
    (hparts : ∀ t ∈ s.parts, t.Plain) : s.Plain := by
  intro e he
  cases he with
  | here hq hin => exact (hexprs _ hq).inside hin
  | inside ht hin => exact hparts _ ht e hin

namespace Grammar

variable {ts : List Token} {s : Stmt}

theorem Optional.isPlain {e : Option Expr} (h : Optional e ts) (hts : ∀ t ∈ ts, t.Legible) :
    ∀ q ∈ e.toList, q.Plain := by
  cases h with
  | absent => exact List.forall_mem_nil _
  | present he => exact List.forall_mem_singleton.2 (he.isPlain hts)

theorem VarDecl.isPlain (h : VarDecl s ts) (hts : ∀ t ∈ ts, t.Legible) : s.Plain := by
  cases h with
  | plain => exact Stmt.plain_of (List.forall_mem_nil _) (List.forall_mem_nil _)
  | init _ _ _ he _ =>
    simp only [List.forall_mem_append, List.forall_mem_cons] at hts
    exact Stmt.plain_of (List.forall_mem_singleton.2 (he.isPlain hts.2.2.2.1))
      (List.forall_mem_nil _)

theorem ExprStmt.isPlain (h : ExprStmt s ts) (hts : ∀ t ∈ ts, t.Legible) : s.Plain := by
  cases h with
  | mk he _ =>
    rw [← List.cons_append] at hts
    exact Stmt.plain_of
      (List.forall_mem_singleton.2 (he.isPlain (List.forall_mem_append.1 hts).1))
      (List.forall_mem_nil _)

theorem ForInit.isPlain {i : Option Stmt} (h : ForInit i ts) (hts : ∀ t ∈ ts, t.Legible) :
    ∀ s ∈ i.toList, s.Plain := by
  cases h with
  | absent _ => exact List.forall_mem_nil _
  | var h => exact List.forall_mem_singleton.2 (h.isPlain hts)
  | expr h => exact List.forall_mem_singleton.2 (h.isPlain hts)

theorem WhileForm.isPlain {kw : Token} {init : Option Stmt} {cond step : Option Expr} {body : Stmt}
    (h : WhileForm kw init cond step body s) (hinit : ∀ i ∈ init.toList, i.Plain)
    (hcond : ∀ q ∈ cond.toList, q.Plain) (hstep : ∀ q ∈ step.toList, q.Plain)
    (hbody : body.Plain) : s.Plain := by
  induction h with
  | loop => exact Stmt.plain_of hcond (List.forall_mem_singleton.2 hbody)
  | endless _ ih =>
    exact ih hinit (List.forall_mem_singleton.2 (.literal trivial)) hstep hbody
  | step _ ih =>
    have hexpr : Stmt.Plain (.expr kw _) := Stmt.plain_of hstep (List.forall_mem_nil _)
    refine ih hinit hcond (List.forall_mem_nil _) (Stmt.plain_of (List.forall_mem_nil _) ?_)
    exact List.forall_mem_cons.2 ⟨hbody, List.forall_mem_singleton.2 hexpr⟩
  | init _ ih =>
    refine Stmt.plain_of (List.forall_mem_nil _) (List.forall_mem_cons.2 ⟨?_, ?_⟩)
    · exact hinit _ List.mem_cons_self
    · exact List.forall_mem_singleton.2 (ih (List.forall_mem_nil _) hcond hstep hbody)

def Phrase.Plain : Phrase → Prop
  | .stmt _ s | .decl s => s.Plain
  | .decls ss => ∀ s ∈ ss, s.Plain
  | .function f => ∀ s ∈ f.body, s.Plain
  | .methods fs => ∀ s ∈ fs.flatMap FunDecl.body, s.Plain

theorem Forms.isPlain {p : Phrase} (h : Forms p ts) (hts : ∀ t ∈ ts, t.Legible) :
    p.Plain := by
  induction h with
  | expr h => exact h.isPlain hts
  | print _ he _ =>
    simp only [List.forall_mem_append, List.forall_mem_cons] at hts
    exact Stmt.plain_of (List.forall_mem_singleton.2 (he.isPlain hts.2.1)) (List.forall_mem_nil _)
  | ret _ he _ =>
    simp only [List.forall_mem_append, List.forall_mem_cons] at hts
    exact Stmt.plain_of (he.isPlain hts.2.1) (List.forall_mem_nil _)
  | block _ _ _ ih =>
    simp only [List.forall_mem_append, List.forall_mem_cons] at hts
    exact Stmt.plain_of (List.forall_mem_nil _) (ih hts.2.1)
  | ifShort _ _ hcond _ _ ih =>
    simp only [List.forall_mem_append, List.forall_mem_cons] at hts
    exact Stmt.plain_of (List.forall_mem_singleton.2 (hcond.isPlain hts.2.2.1))
      (List.forall_mem_singleton.2 (ih hts.2.2.2.2))
  | ifElse _ _ hcond _ _ _ _ ihy ihn =>
    simp only [List.forall_mem_append, List.forall_mem_cons] at hts
    exact Stmt.plain_of (List.forall_mem_singleton.2 (hcond.isPlain hts.2.2.1))
      (List.forall_mem_cons.2
        ⟨ihy hts.2.2.2.2.1, List.forall_mem_singleton.2 (ihn hts.2.2.2.2.2.2)⟩)
  | loop _ _ hcond _ _ ih =>
    simp only [List.forall_mem_append, List.forall_mem_cons] at hts
    exact Stmt.plain_of (List.forall_mem_singleton.2 (hcond.isPlain hts.2.2.1))
      (List.forall_mem_singleton.2 (ih hts.2.2.2.2))
  | forLoop _ _ hi hcond _ hstep _ _ hw ih =>
    simp only [List.forall_mem_append, List.forall_mem_cons] at hts
    obtain ⟨-, -, his, hcs, -, hus, -, hbs⟩ := hts
    exact hw.isPlain (hi.isPlain his) (hcond.isPlain hcs) (hstep.isPlain hus) (ih hbs)
  | stmtDecl _ ih => exact ih hts
  | varDecl h => exact h.isPlain hts
  | funDecl _ _ ih =>
    exact Stmt.plain_of (List.forall_mem_nil _) (ih (List.forall_mem_cons.1 hts).2)
  | classDecl _ _ _ _ _ ih =>
    simp only [List.forall_mem_append, List.forall_mem_cons] at hts
    exact Stmt.plain_of (List.forall_mem_nil _) (ih hts.2.2.2.1)
  | subclassDecl _ _ _ hbase _ _ _ ih =>
    simp only [List.forall_mem_append, List.forall_mem_cons] at hts
    exact Stmt.plain_of (List.forall_mem_singleton.2 (.var (hts.2.2.2.1.name hbase)))
      (ih hts.2.2.2.2.2.1)
  | noDecls => exact List.forall_mem_nil _
  | decls _ _ ih ihs =>
    rw [List.forall_mem_append] at hts
    exact List.forall_mem_cons.2 ⟨ih hts.1, ihs hts.2⟩
  | function _ _ _ _ _ _ _ ih =>
    simp only [List.forall_mem_append, List.forall_mem_cons] at hts
    exact ih hts.2.2.2.2.2.1
  | noMethods => exact List.forall_mem_nil _
  | methods _ _ ih ihs =>
    rw [List.forall_mem_append] at hts
    exact List.forall_mem_append.2 ⟨ih hts.1, ihs hts.2⟩

end Grammar

namespace Expr

theorem FoundIn.isPlain {e : Expr} {source : Bytes} (h : e.FoundIn source) : e.Plain := by
  obtain ⟨s, hs, he⟩ := h.occurs
  have hform := Program.grammatical_of_accepted h.parse
  exact plain_of_unbound (hform.isPlain (fun t => Scan.legible_of_mem h.scan) s hs _ he)

/-! ### One expression in two sources -/

/-- `!(group).b(1)()`, the number as it is written, `group` that many scopes out. -/
def groupCall (number : String) (line : Nat) (hops : Option Nat) : Expr :=
  .unary .not ⟨.bang, utf8 "!", 1⟩
    (.call ⟨.rightParen, utf8 ")", line⟩
      (.call ⟨.rightParen, utf8 ")", 1⟩
        (.get (.grouping ⟨.leftParen, utf8 "(", 1⟩ (.var ⟨⟨.ident, utf8 "group", 1⟩, hops⟩))
          ⟨.ident, utf8 "b", 1⟩)
        [.literal ⟨.number, utf8 number, 1⟩ (.number (Token.numberValue (utf8 number)))]) [])

/-- The expression alone, `group` being global. -/
def groupLine : Bytes := utf8 "!(group).b(1)();"

/-- The expression in a block that declares `group`, on two lines. -/
def groupBlock : Bytes := utf8 "\x7bvar group;!(group).b(1.0)\n();\x7d"

theorem foundIn_groupLine : (groupCall "1" 1 none).FoundIn groupLine where
  scan := by decide +kernel
  parse := by decide +kernel
  occurs := ⟨.expr ⟨.bang, utf8 "!", 1⟩ (groupCall "1" 1 none), List.mem_cons_self,
    .here List.mem_cons_self .self⟩

theorem foundIn_groupBlock : (groupCall "1.0" 2 (some 0)).FoundIn groupBlock where
  scan := by decide +kernel
  parse := by decide +kernel
  occurs := ⟨.block ⟨.rightBrace, utf8 "\x7d", 2⟩
      [.varDecl ⟨.kwVar, utf8 "var", 1⟩ ⟨.ident, utf8 "group", 1⟩ none,
        .expr ⟨.bang, utf8 "!", 1⟩ (groupCall "1.0" 2 none)], List.mem_cons_self,
    .inside (List.mem_cons_of_mem _ List.mem_cons_self) (.here List.mem_cons_self .self)⟩

/-- **The printed form of an expression determines it.** Two expressions of sources that are scanned
and parsed without errors, if they are printed alike, are the same but for tokens, lines and the
distances of variables: they have the same kinds of node, operators, names, arguments and constants,
numbers being the same as printed. -/
theorem shape_of_printed {source source' : Bytes} {e e' : Expr} (h : e.FoundIn source)
    (h' : e'.FoundIn source') (heq : e.toBytes = e'.toBytes) : e.shape = e'.shape :=
  shape_eq_of_toBytes_eq h.isPlain h'.isPlain heq

theorem shape_of_printed_group :
    (groupCall "1" 1 none).FoundIn groupLine ∧ (groupCall "1.0" 2 (some 0)).FoundIn groupBlock ∧
      (groupCall "1" 1 none).toBytes = (groupCall "1.0" 2 (some 0)).toBytes ∧
      (groupCall "1" 1 none).shape = (groupCall "1.0" 2 (some 0)).shape :=
  have heq : (groupCall "1" 1 none).toBytes = (groupCall "1.0" 2 (some 0)).toBytes := by
    decide +kernel
  ⟨foundIn_groupLine, foundIn_groupBlock, heq,
    shape_of_printed foundIn_groupLine foundIn_groupBlock heq⟩

end Expr

end Lox
