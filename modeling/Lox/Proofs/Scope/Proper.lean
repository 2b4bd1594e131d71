import Lox.Proofs.Parse.Acceptance
import Lox.Proofs.Scan.Words
import Lox.Session
/-!
# Proper trees

What the parser's trees have over arbitrary ones: no reference has been pinned yet, names are
spelled neither `this` nor `super`, and no branch of an `if` and no body of a loop is itself a
declaration. The resolver and the machine rely on all three.
-/

namespace Lox

/-- A name that a variable can have. -/
def Ordinary (name : Bytes) : Prop := name ≠ utf8 "this" ∧ name ≠ utf8 "super"

instance (name : Bytes) : Decidable (Ordinary name) := inferInstanceAs (Decidable (_ ∧ _))

/-- The name that a statement declares in the scope it stands in. -/
def Stmt.declared? : Stmt → Option Token
  | .varDecl _ name _ => some name
  | .funDecl decl => some decl.name
  | .classDecl _ name _ _ => some name
  | _ => none

/-- A reference to a variable that has not been pinned. -/
def Ref.Proper (ref : Ref) : Prop := ref.hops = none ∧ Ordinary ref.name.lexeme

mutual

def Expr.Proper : Expr → Prop
  | .literal _ _ => True
  | .grouping _ inner => inner.Proper
  | .unary _ _ operand => operand.Proper
  | .binary _ _ left right => left.Proper ∧ right.Proper
  | .logical _ _ left right => left.Proper ∧ right.Proper
  | .var ref => ref.Proper
  | .assign ref value => ref.Proper ∧ value.Proper
  | .call _ callee args => callee.Proper ∧ Expr.AllProper args
  | .get object _ => object.Proper
  | .set object _ value => object.Proper ∧ value.Proper
  | .this ref => ref.hops = none ∧ ref.name.lexeme = utf8 "this"
  | .super ref _ => ref.hops = none

def Expr.AllProper : List Expr → Prop
  | [] => True
  | e :: rest => e.Proper ∧ Expr.AllProper rest

end

mutual

def Stmt.Proper : Stmt → Prop
  | .expr _ value => value.Proper
  | .print _ value => value.Proper
  | .varDecl _ name none => Ordinary name.lexeme
  | .varDecl _ name (some init) => Ordinary name.lexeme ∧ init.Proper
  | .block _ body => Stmt.AllProper body
  | .ifElse _ cond yes none => cond.Proper ∧ yes.Proper ∧ yes.declared? = none
  | .ifElse _ cond yes (some no) =>
    cond.Proper ∧ (yes.Proper ∧ yes.declared? = none) ∧ no.Proper ∧ no.declared? = none
  | .loop _ cond body => cond.Proper ∧ body.Proper ∧ body.declared? = none
  | .funDecl decl => decl.Proper
  | .ret _ none => True
  | .ret _ (some value) => value.Proper
  | .classDecl _ name none methods => Ordinary name.lexeme ∧ FunDecl.AllProper methods
  | .classDecl _ name (some ref) methods =>
    Ordinary name.lexeme ∧ ref.Proper ∧ FunDecl.AllProper methods

def Stmt.AllProper : List Stmt → Prop
  | [] => True
  | s :: rest => s.Proper ∧ Stmt.AllProper rest

def FunDecl.Proper : FunDecl → Prop
  | .mk name params body =>
    Ordinary name.lexeme ∧ (∀ p ∈ params, Ordinary p.lexeme) ∧ Stmt.AllProper body

def FunDecl.AllProper : List FunDecl → Prop
  | [] => True
  | f :: rest => f.Proper ∧ FunDecl.AllProper rest

end

theorem Stmt.Proper.ordinary {s : Stmt} {name : Token} (h : s.Proper)
    (hd : s.declared? = some name) : Ordinary name.lexeme := by
  cases s with
  | varDecl _ _ init =>
    cases hd
    cases init with
    | none => exact h
    | some _ => exact h.1
  | funDecl decl =>
    cases hd
    cases decl with
    | mk _ _ _ => exact h.1
  | classDecl _ _ superclass _ =>
    cases hd
    cases superclass with
    | none => exact h.1
    | some _ => exact h.1
  | _ => cases hd

namespace Grammar

variable {ts : List Token}

theorem ordinary_of_ident {t : Token} (h : ∀ u ∈ ts, u.Faithful) (ht : t ∈ ts)
    (hk : t.kind = .ident) : Ordinary t.lexeme :=
  ⟨(h t ht).ident_ne hk (by decide), (h t ht).ident_ne hk (by decide)⟩

def ExprPhrase.Proper : ExprPhrase → Prop
  | .tier _ e => e.Proper
  | .arguments es => Expr.AllProper es

theorem spells_proper {p : ExprPhrase} (h : Spells p ts) (hts : ∀ t ∈ ts, t.Faithful) :
    p.Proper := by
  induction h with
  | tighter _ _ ih => exact ih hts
  | assignName hk _ _ ih =>
    exact ⟨⟨rfl, ordinary_of_ident hts (by simp) hk⟩, ih fun t ht => hts t (by simp [ht])⟩
  | assignProperty _ _ _ _ _ iho ihv =>
    exact ⟨iho fun t ht => hts t (by simp [ht]), ihv fun t ht => hts t (by simp [ht])⟩
  | operator hn _ _ _ ihl ihr =>
    have hl := ihl fun t ht => hts t (by simp [ht])
    have hr := ihr fun t ht => hts t (by simp [ht])
    obtain ⟨_, _, _, ⟨b, _, rfl⟩ | ⟨l, _, rfl⟩⟩ := Tier.node_cases hn
    · exact ⟨hl, hr⟩
    · exact ⟨hl, hr⟩
  | unary _ _ ih => exact ih fun t ht => hts t (by simp [ht])
  | callEmpty _ _ _ ih => exact ⟨ih fun t ht => hts t (by simp [ht]), trivial⟩
  | call _ _ _ _ _ ihf ihargs =>
    exact ⟨ihf fun t ht => hts t (by simp [ht]), ihargs fun t ht => hts t (by simp [ht])⟩
  | property _ _ _ ih => exact ih fun t ht => hts t (by simp [ht])
  | constant _ => trivial
  | name hk => exact ⟨rfl, ordinary_of_ident hts (by simp) hk⟩
  | this hk => exact ⟨rfl, (hts _ (by simp)).this_lexeme hk⟩
  | super _ _ _ => exact rfl
  | group _ _ _ ih => exact ih fun t ht => hts t (by simp [ht])
  | lastArgument _ ih => exact ⟨ih hts, trivial⟩
  | argument _ _ _ ih ihs =>
    exact ⟨ih fun t ht => hts t (by simp [ht]), ihs fun t ht => hts t (by simp [ht])⟩

theorem optional_proper {e : Option Expr} (h : Optional e ts) (hts : ∀ t ∈ ts, t.Faithful) :
    ∀ x, e = some x → x.Proper := by
  rintro x rfl
  cases h with
  | present he => exact spells_proper he hts

theorem exprStmt_proper {s : Stmt} (h : ExprStmt s ts) (hts : ∀ t ∈ ts, t.Faithful) :
    s.Proper ∧ s.declared? = none := by
  cases h with
  | mk he _ =>
    refine ⟨spells_proper he fun t ht => hts t ?_, rfl⟩
    simp only [List.mem_cons, List.mem_append] at ht ⊢
    exact ht.imp id .inl

theorem varDecl_proper {s : Stmt} (h : VarDecl s ts) (hts : ∀ t ∈ ts, t.Faithful) : s.Proper := by
  cases h with
  | plain _ hn _ => exact ordinary_of_ident hts (by simp) hn
  | init _ hn _ he _ =>
    exact ⟨ordinary_of_ident hts (by simp) hn, spells_proper he fun t ht => hts t (by simp [ht])⟩

theorem names_proper {names : List Token} (h : Names names ts) (hts : ∀ t ∈ ts, t.Faithful) :
    ∀ p ∈ names, Ordinary p.lexeme := by
  induction h with
  | last hk =>
    intro p hp
    cases List.mem_singleton.1 hp
    exact ordinary_of_ident hts (by simp) hk
  | more hk _ _ ih =>
    intro p hp
    rcases List.mem_cons.1 hp with rfl | hp
    · exact ordinary_of_ident hts (by simp) hk
    · exact ih (fun t ht => hts t (by simp [ht])) p hp

theorem whileForm_proper {kw : Token} {init : Option Stmt} {cond step : Option Expr}
    {body s : Stmt} (h : WhileForm kw init cond step body s) (hi : ∀ i, init = some i → i.Proper)
    (hc : ∀ e, cond = some e → e.Proper) (hs : ∀ e, step = some e → e.Proper)
    (hb : body.Proper ∧ body.declared? = none) : s.Proper ∧ s.declared? = none := by
  induction h with
  | loop => exact ⟨⟨hc _ rfl, hb⟩, rfl⟩
  | endless _ ih => exact ih hi (fun e he => by cases he; trivial) hs hb
  | step _ ih => exact ih hi hc (fun e he => by cases he) ⟨⟨hb.1, hs _ rfl, trivial⟩, rfl⟩
  | init _ ih =>
    exact ⟨⟨hi _ rfl, (ih (fun i hi => by cases hi) hc hs hb).1, trivial⟩, rfl⟩

def Phrase.Proper : Phrase → Prop
  | .stmt _ s => s.Proper ∧ s.declared? = none
  | .decl s => s.Proper
  | .decls ss => Stmt.AllProper ss
  | .function f => f.Proper
  | .methods fs => FunDecl.AllProper fs

theorem forms_proper {p : Phrase} (h : Forms p ts) (hts : ∀ t ∈ ts, t.Faithful) : p.Proper := by
  induction h with
  | expr he => exact exprStmt_proper he hts
  | print _ he _ => exact ⟨spells_proper he fun t ht => hts t (by simp [ht]), rfl⟩
  | @ret _ _ e _ _ he _ =>
    refine ⟨?_, rfl⟩
    have hp := optional_proper he fun t ht => hts t (by simp [ht])
    cases e with
    | none => trivial
    | some e => exact hp e rfl
  | block _ _ _ ih => exact ⟨ih fun t ht => hts t (by simp [ht]), rfl⟩
  | ifShort _ _ he _ _ ih =>
    exact ⟨⟨spells_proper he fun t ht => hts t (by simp [ht]),
      ih fun t ht => hts t (by simp [ht])⟩, rfl⟩
  | ifElse _ _ he _ _ _ _ ihy ihn =>
    exact ⟨⟨spells_proper he fun t ht => hts t (by simp [ht]),
      ihy fun t ht => hts t (by simp [ht]), ihn fun t ht => hts t (by simp [ht])⟩, rfl⟩
  | loop _ _ he _ _ ih =>
    exact ⟨⟨spells_proper he fun t ht => hts t (by simp [ht]),
      ih fun t ht => hts t (by simp [ht])⟩, rfl⟩
  | forLoop _ _ hi hc _ hs _ _ hform ih =>
    refine whileForm_proper hform ?_ (optional_proper hc fun t ht => hts t (by simp [ht]))
      (optional_proper hs fun t ht => hts t (by simp [ht])) (ih fun t ht => hts t (by simp [ht]))
    rintro i rfl
    cases hi with
    | var hv => exact varDecl_proper hv fun t ht => hts t (by simp [ht])
    | expr he => exact (exprStmt_proper he fun t ht => hts t (by simp [ht])).1
  | stmtDecl _ ih => exact (ih hts).1
  | varDecl hv => exact varDecl_proper hv hts
  | funDecl _ _ ih => exact ih fun t ht => hts t (by simp [ht])
  | classDecl _ hn _ _ _ ih =>
    exact ⟨ordinary_of_ident hts (by simp) hn, ih fun t ht => hts t (by simp [ht])⟩
  | subclassDecl _ hn _ hb _ _ _ ih =>
    exact ⟨ordinary_of_ident hts (by simp) hn, ⟨rfl, ordinary_of_ident hts (by simp) hb⟩,
      ih fun t ht => hts t (by simp [ht])⟩
  | noDecls => trivial
  | decls _ _ ih ihs =>
    exact ⟨ih fun t ht => hts t (by simp [ht]), ihs fun t ht => hts t (by simp [ht])⟩
  | function hn _ hps _ _ _ _ ih =>
    refine ⟨ordinary_of_ident hts (by simp) hn, ?_, ih fun t ht => hts t (by simp [ht])⟩
    cases hps with
    | absent => simp
    | present hnames _ => exact names_proper hnames fun t ht => hts t (by simp [ht])
  | noMethods => trivial
  | methods _ _ ih ihs =>
    exact ⟨ih fun t ht => hts t (by simp [ht]), ihs fun t ht => hts t (by simp [ht])⟩

end Grammar

/-! ## Accepted programs -/

/-- A program that the parser can give and that the resolver has no complaint about. -/
structure Admissible (program : List Stmt) : Prop where
  proper : Stmt.AllProper program
  clean : (Resolver.statements .none .none program ⟨[], []⟩).2.errors = []

/-- The statements of a source, before their references are pinned. -/
def sourceTree (source : Bytes) : List Stmt :=
  let scan := Scan.ofBytes source
  (Program.ofTokens scan.tokens scan.endLine).statements

/-- The tokens of an accepted source form its statements. -/
theorem analyse_grammatical {source : Bytes} {program : List Stmt}
    (h : analyse source = .ok program) :
    Grammar.Program (sourceTree source) (Scan.ofBytes source).tokens := by
  unfold analyse at h
  simp only at h
  split at h
  · rename_i hnone
    exact Program.grammatical_of_accepted (List.map_eq_nil_iff.1 (List.append_eq_nil_iff.1 hnone).2)
  · cases h

/-- An accepted source is an admissible program, and what runs is that program resolved. -/
theorem analyse_ok {source : Bytes} {program : List Stmt} (h : analyse source = .ok program) :
    Admissible (sourceTree source) ∧
      program = (Resolver.statements .none .none (sourceTree source) ⟨[], []⟩).1 := by
  have hproper := Grammar.forms_proper (analyse_grammatical h) (Scan.ofBytes_faithful source)
  unfold analyse at h
  simp only at h
  split at h
  · split at h
    · rename_i hstatic
      cases h
      exact ⟨⟨hproper, List.reverse_eq_nil_iff.1 (List.map_eq_nil_iff.1 hstatic)⟩, rfl⟩
    · cases h
  · cases h

end Lox
