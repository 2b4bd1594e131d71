import Lox.Proofs.Parse.Acceptance
/-!
# Trees on other lines

A program whose tokens stand on other lines is parsed into the same trees, on those lines; and two
programs one after the other are parsed into the trees of the first and then those of the second.
-/

namespace Lox

/-! ## Moving tokens -/

/-- The token on another line. -/
def Token.reline (g : Nat → Nat) (t : Token) : Token := { t with line := g t.line }

def Ref.reline (g : Nat → Nat) (r : Ref) : Ref := { r with name := r.name.reline g }

mutual

def Expr.reline (g : Nat → Nat) : Expr → Expr
  | .literal token value => .literal (token.reline g) value
  | .grouping paren inner => .grouping (paren.reline g) (inner.reline g)
  | .unary op token operand => .unary op (token.reline g) (operand.reline g)
  | .binary op token left right => .binary op (token.reline g) (left.reline g) (right.reline g)
  | .logical op token left right => .logical op (token.reline g) (left.reline g) (right.reline g)
  | .var ref => .var (ref.reline g)
  | .assign ref value => .assign (ref.reline g) (value.reline g)
  | .call paren callee args => .call (paren.reline g) (callee.reline g) (Expr.relineAll g args)
  | .get object name => .get (object.reline g) (name.reline g)
  | .set object name value => .set (object.reline g) (name.reline g) (value.reline g)
  | .this ref => .this (ref.reline g)
  | .super ref method => .super (ref.reline g) (method.reline g)

def Expr.relineAll (g : Nat → Nat) : List Expr → List Expr
  | [] => []
  | e :: rest => e.reline g :: Expr.relineAll g rest

end

mutual

def Stmt.reline (g : Nat → Nat) : Stmt → Stmt
  | .expr first value => .expr (first.reline g) (value.reline g)
  | .print keyword value => .print (keyword.reline g) (value.reline g)
  | .varDecl keyword name init =>
    .varDecl (keyword.reline g) (name.reline g) (init.map (Expr.reline g))
  | .block brace body => .block (brace.reline g) (Stmt.relineAll g body)
  | .ifElse keyword cond yes none => .ifElse (keyword.reline g) (cond.reline g) (yes.reline g) none
  | .ifElse keyword cond yes (some no) =>
    .ifElse (keyword.reline g) (cond.reline g) (yes.reline g) (some (no.reline g))
  | .loop keyword cond body => .loop (keyword.reline g) (cond.reline g) (body.reline g)
  | .funDecl decl => .funDecl (decl.reline g)
  | .ret keyword value => .ret (keyword.reline g) (value.map (Expr.reline g))
  | .classDecl keyword name superclass methods =>
    .classDecl (keyword.reline g) (name.reline g) (superclass.map (Ref.reline g))
      (FunDecl.relineAll g methods)

def Stmt.relineAll (g : Nat → Nat) : List Stmt → List Stmt
  | [] => []
  | s :: rest => s.reline g :: Stmt.relineAll g rest

def FunDecl.reline (g : Nat → Nat) : FunDecl → FunDecl
  | .mk name params body =>
    .mk (name.reline g) (params.map (Token.reline g)) (Stmt.relineAll g body)

def FunDecl.relineAll (g : Nat → Nat) : List FunDecl → List FunDecl
  | [] => []
  | f :: rest => f.reline g :: FunDecl.relineAll g rest

end

variable (g h : Nat → Nat)

theorem Expr.relineAll_eq : ∀ es : List Expr, Expr.relineAll g es = es.map (Expr.reline g)
  | [] => rfl
  | e :: rest => by rw [Expr.relineAll, Expr.relineAll_eq rest, List.map_cons]

theorem Stmt.relineAll_eq : ∀ ss : List Stmt, Stmt.relineAll g ss = ss.map (Stmt.reline g)
  | [] => rfl
  | s :: rest => by rw [Stmt.relineAll, Stmt.relineAll_eq rest, List.map_cons]

theorem FunDecl.relineAll_eq : ∀ fs : List FunDecl,
    FunDecl.relineAll g fs = fs.map (FunDecl.reline g)
  | [] => rfl
  | f :: rest => by rw [FunDecl.relineAll, FunDecl.relineAll_eq rest, List.map_cons]

/-! ## Moving twice -/

theorem Token.reline_reline (t : Token) : (t.reline h).reline g = t.reline (g ∘ h) := rfl

theorem Ref.reline_reline (r : Ref) : (r.reline h).reline g = r.reline (g ∘ h) := rfl

mutual

theorem Expr.reline_reline : ∀ e : Expr, (e.reline h).reline g = e.reline (g ∘ h)
  | .literal .. | .var _ | .this _ | .super .. => rfl
  | .grouping _ a | .unary _ _ a | .assign _ a | .get a _ => by
    simp only [Expr.reline, Expr.reline_reline a, Token.reline_reline, Ref.reline_reline]
  | .binary _ _ a b | .logical _ _ a b | .set a _ b => by
    simp only [Expr.reline, Expr.reline_reline a, Expr.reline_reline b, Token.reline_reline]
  | .call _ f args => by
    simp only [Expr.reline, Expr.reline_reline f, Expr.relineAll_relineAll args,
      Token.reline_reline]

theorem Expr.relineAll_relineAll : ∀ es : List Expr,
    Expr.relineAll g (Expr.relineAll h es) = Expr.relineAll (g ∘ h) es
  | [] => rfl
  | e :: rest => by
    simp only [Expr.relineAll, Expr.reline_reline e, Expr.relineAll_relineAll rest]

end

theorem Expr.map_reline_reline (e : Option Expr) :
    (e.map (Expr.reline h)).map (Expr.reline g) = e.map (Expr.reline (g ∘ h)) := by
  cases e with
  | none => rfl
  | some e => exact congrArg some (e.reline_reline g h)

mutual

theorem Stmt.reline_reline : ∀ s : Stmt, (s.reline h).reline g = s.reline (g ∘ h)
  | .expr _ e | .print _ e => by simp only [Stmt.reline, Expr.reline_reline, Token.reline_reline]
  | .varDecl _ _ e | .ret _ e => by
    simp only [Stmt.reline, Expr.map_reline_reline, Token.reline_reline]
  | .block _ body => by simp only [Stmt.reline, Stmt.relineAll_relineAll body, Token.reline_reline]
  | .ifElse _ _ yes none => by
    simp only [Stmt.reline, Expr.reline_reline, Stmt.reline_reline yes, Token.reline_reline]
  | .ifElse _ _ yes (some no) => by
    simp only [Stmt.reline, Expr.reline_reline, Stmt.reline_reline yes, Stmt.reline_reline no,
      Token.reline_reline]
  | .loop _ _ body => by
    simp only [Stmt.reline, Expr.reline_reline, Stmt.reline_reline body, Token.reline_reline]
  | .funDecl decl => by simp only [Stmt.reline, FunDecl.reline_reline decl]
  | .classDecl _ _ superclass methods => by
    cases superclass <;>
      simp only [Stmt.reline, FunDecl.relineAll_relineAll methods, Token.reline_reline,
        Option.map_none, Option.map_some, Ref.reline_reline]

theorem Stmt.relineAll_relineAll : ∀ ss : List Stmt,
    Stmt.relineAll g (Stmt.relineAll h ss) = Stmt.relineAll (g ∘ h) ss
  | [] => rfl
  | s :: rest => by
    simp only [Stmt.relineAll, Stmt.reline_reline s, Stmt.relineAll_relineAll rest]

theorem FunDecl.reline_reline : ∀ f : FunDecl, (f.reline h).reline g = f.reline (g ∘ h)
  | .mk _ _ body => by
    simp only [FunDecl.reline, Stmt.relineAll_relineAll body, Token.reline_reline, List.map_map]
    rfl

theorem FunDecl.relineAll_relineAll : ∀ fs : List FunDecl,
    FunDecl.relineAll g (FunDecl.relineAll h fs) = FunDecl.relineAll (g ∘ h) fs
  | [] => rfl
  | f :: rest => by
    simp only [FunDecl.relineAll, FunDecl.reline_reline f, FunDecl.relineAll_relineAll rest]

end

/-! ## Not moving -/

theorem Token.reline_id (t : Token) : t.reline id = t := rfl

theorem Ref.reline_id (r : Ref) : r.reline id = r := rfl

theorem Token.map_reline_id (ts : List Token) : ts.map (Token.reline id) = ts := List.map_id ts

mutual

theorem Expr.reline_id : ∀ e : Expr, e.reline id = e
  | .literal .. | .var _ | .this _ | .super .. => rfl
  | .grouping _ a | .unary _ _ a | .assign _ a | .get a _ => by
    simp only [Expr.reline, Expr.reline_id a, Token.reline_id, Ref.reline_id]
  | .binary _ _ a b | .logical _ _ a b | .set a _ b => by
    simp only [Expr.reline, Expr.reline_id a, Expr.reline_id b, Token.reline_id]
  | .call _ f args => by
    simp only [Expr.reline, Expr.reline_id f, Expr.relineAll_id args, Token.reline_id]

theorem Expr.relineAll_id : ∀ es : List Expr, Expr.relineAll id es = es
  | [] => rfl
  | e :: rest => by simp only [Expr.relineAll, Expr.reline_id e, Expr.relineAll_id rest]

end

theorem Expr.map_reline_id (e : Option Expr) : e.map (Expr.reline id) = e := by
  cases e with
  | none => rfl
  | some e => exact congrArg some e.reline_id

mutual

theorem Stmt.reline_id : ∀ s : Stmt, s.reline id = s
  | .expr _ e | .print _ e => by simp only [Stmt.reline, Expr.reline_id, Token.reline_id]
  | .varDecl _ _ e | .ret _ e => by simp only [Stmt.reline, Expr.map_reline_id, Token.reline_id]
  | .block _ body => by simp only [Stmt.reline, Stmt.relineAll_id body, Token.reline_id]
  | .ifElse _ _ yes none => by
    simp only [Stmt.reline, Expr.reline_id, Stmt.reline_id yes, Token.reline_id]
  | .ifElse _ _ yes (some no) => by
    simp only [Stmt.reline, Expr.reline_id, Stmt.reline_id yes, Stmt.reline_id no, Token.reline_id]
  | .loop _ _ body => by
    simp only [Stmt.reline, Expr.reline_id, Stmt.reline_id body, Token.reline_id]
  | .funDecl decl => by simp only [Stmt.reline, FunDecl.reline_id decl]
  | .classDecl _ _ superclass methods => by
    cases superclass <;>
      simp only [Stmt.reline, FunDecl.relineAll_id methods, Token.reline_id, Option.map_none,
        Option.map_some, Ref.reline_id]

theorem Stmt.relineAll_id : ∀ ss : List Stmt, Stmt.relineAll id ss = ss
  | [] => rfl
  | s :: rest => by simp only [Stmt.relineAll, Stmt.reline_id s, Stmt.relineAll_id rest]

theorem FunDecl.reline_id : ∀ f : FunDecl, f.reline id = f
  | .mk _ _ body => by
    simp only [FunDecl.reline, Stmt.relineAll_id body, Token.reline_id, Token.map_reline_id]

theorem FunDecl.relineAll_id : ∀ fs : List FunDecl, FunDecl.relineAll id fs = fs
  | [] => rfl
  | f :: rest => by simp only [FunDecl.relineAll, FunDecl.reline_id f, FunDecl.relineAll_id rest]

end

/-! ## The grammar does not look at lines -/

namespace Grammar

def ExprPhrase.reline : ExprPhrase → ExprPhrase
  | .tier t e => .tier t (e.reline g)
  | .arguments es => .arguments (es.map (Expr.reline g))

def Phrase.reline : Phrase → Phrase
  | .stmt short s => .stmt short (s.reline g)
  | .decl s => .decl (s.reline g)
  | .decls ss => .decls (ss.map (Stmt.reline g))
  | .function f => .function (f.reline g)
  | .methods fs => .methods (fs.map (FunDecl.reline g))

variable {g} {ts : List Token}

theorem node_reline {t : Tier} {k : Kind} {node : Token → Expr → Expr → Expr}
    (hn : t.node? k = some node) (op : Token) (l r : Expr) :
    (node op l r).reline g = node (op.reline g) (l.reline g) (r.reline g) := by
  obtain ⟨_, _, _, ⟨b, _, rfl⟩ | ⟨l, _, rfl⟩⟩ := Tier.node_cases hn <;> rfl

theorem Spells.reline {p : ExprPhrase} (h : Spells p ts) :
    Spells (p.reline g) (ts.map (Token.reline g)) := by
  induction h with
  | tighter ht _ ih => exact .tighter ht ih
  | assignName hn heq _ ih => exact .assignName hn heq ih
  | assignProperty _ hd hn heq _ iho ihv =>
    simp only [List.map_append, List.map_cons]
    exact .assignProperty iho hd hn heq ihv
  | operator hn ht _ _ ihl ihr =>
    simp only [List.map_append, List.map_cons, ExprPhrase.reline, node_reline hn]
    exact .operator hn ht ihl ihr
  | unary hu _ ih => exact .unary hu ih
  | callEmpty _ ho hc ih =>
    simp only [List.map_append, List.map_cons]
    exact .callEmpty ih ho hc
  | call _ ho _ hlen hc ihf iha =>
    simp only [List.map_append, List.map_cons, ExprPhrase.reline, Expr.reline, Expr.relineAll_eq]
    exact .call ihf ho iha (by simpa using hlen) hc
  | property _ hd hn ih =>
    simp only [List.map_append, List.map_cons]
    exact .property ih hd hn
  | constant hc => exact .constant hc
  | name hk => exact .name hk
  | this hk => exact .this hk
  | super hk hd hn => exact .super hk hd hn
  | group ho _ hc ih =>
    simp only [List.map_append, List.map_cons]
    exact .group ho ih hc
  | lastArgument _ ih => exact .lastArgument ih
  | argument _ hc _ ih ihs =>
    simp only [List.map_append, List.map_cons]
    exact .argument ih hc ihs

theorem Optional.reline {e : Option Expr} (h : Optional e ts) :
    Optional (e.map (Expr.reline g)) (ts.map (Token.reline g)) := by
  cases h with
  | absent => exact .absent
  | present h => exact .present h.reline

theorem Names.reline {names : List Token} (h : Names names ts) :
    Names (names.map (Token.reline g)) (ts.map (Token.reline g)) := by
  induction h with
  | last hk => exact .last hk
  | more hk hc _ ih => exact .more hk hc ih

theorem Parameters.reline {params : List Token} (h : Parameters params ts) :
    Parameters (params.map (Token.reline g)) (ts.map (Token.reline g)) := by
  cases h with
  | absent => exact .absent
  | present h hlen => exact .present h.reline (by simpa using hlen)

theorem VarDecl.reline {s : Stmt} (h : VarDecl s ts) :
    VarDecl (s.reline g) (ts.map (Token.reline g)) := by
  cases h with
  | plain hv hn hs => exact .plain hv hn hs
  | init hv hn heq he hs =>
    simp only [List.map_append, List.map_cons]
    exact .init hv hn heq he.reline hs

theorem ExprStmt.reline {s : Stmt} (h : ExprStmt s ts) :
    ExprStmt (s.reline g) (ts.map (Token.reline g)) := by
  cases h with
  | mk he hs =>
    simp only [List.map_append, List.map_cons]
    exact .mk he.reline hs

theorem ForInit.reline {s : Option Stmt} (h : ForInit s ts) :
    ForInit (s.map (Stmt.reline g)) (ts.map (Token.reline g)) := by
  cases h with
  | absent hs => exact .absent hs
  | var h => exact .var h.reline
  | expr h => exact .expr h.reline

theorem WhileForm.reline {kw : Token} {init : Option Stmt} {cond step : Option Expr}
    {body s : Stmt} (h : WhileForm kw init cond step body s) :
    WhileForm (kw.reline g) (init.map (Stmt.reline g)) (cond.map (Expr.reline g))
      (step.map (Expr.reline g)) (body.reline g) (s.reline g) := by
  induction h with
  | loop => exact .loop
  | endless _ ih => exact .endless ih
  | step _ ih => exact .step ih
  | init _ ih => exact .init ih

theorem Forms.reline {p : Phrase} (h : Forms p ts) :
    Forms (p.reline g) (ts.map (Token.reline g)) := by
  induction h with
  | expr h => exact .expr h.reline
  | print hk he hs =>
    simp only [List.map_append, List.map_cons]
    exact .print hk he.reline hs
  | ret hk he hs =>
    simp only [List.map_append, List.map_cons]
    exact .ret hk he.reline hs
  | block ho _ hc ih =>
    simp only [List.map_append, List.map_cons, Phrase.reline, Stmt.reline, Stmt.relineAll_eq]
    exact .block ho ih hc
  | ifShort hk ho hcond hc _ ih =>
    simp only [List.map_append, List.map_cons]
    exact .ifShort hk ho hcond.reline hc ih
  | ifElse hk ho hcond hc _ helse _ ihy ihn =>
    simp only [List.map_append, List.map_cons]
    exact .ifElse hk ho hcond.reline hc ihy helse ihn
  | loop hk ho hcond hc _ ih =>
    simp only [List.map_append, List.map_cons]
    exact .loop hk ho hcond.reline hc ih
  | forLoop hk ho hi hcond hs hstep hc _ hw ih =>
    simp only [List.map_append, List.map_cons]
    exact .forLoop hk ho hi.reline hcond.reline hs hstep.reline hc ih hw.reline
  | stmtDecl _ ih => exact .stmtDecl ih
  | varDecl h => exact .varDecl h.reline
  | funDecl hk _ ih => exact .funDecl hk ih
  | classDecl hk hn ho _ hc ih =>
    simp only [List.map_append, List.map_cons, Phrase.reline, Stmt.reline, FunDecl.relineAll_eq]
    exact .classDecl hk hn ho ih hc
  | subclassDecl hk hn hl hb ho _ hc ih =>
    simp only [List.map_append, List.map_cons, Phrase.reline, Stmt.reline, FunDecl.relineAll_eq]
    exact .subclassDecl hk hn hl hb ho ih hc
  | noDecls => exact .noDecls
  | decls _ _ ih ihs =>
    rw [List.map_append]
    exact .decls ih ihs
  | function hn ho hps hc hbo _ hbc ih =>
    simp only [List.map_append, List.map_cons, Phrase.reline, FunDecl.reline, Stmt.relineAll_eq]
    exact .function hn ho hps.reline hc hbo ih hbc
  | noMethods => exact .noMethods
  | methods _ _ ih ihs =>
    rw [List.map_append]
    exact .methods ih ihs

/-- Two programs one after the other are a program. -/
theorem Program.append {ss ss' : List Stmt} {ts' : List Token} (h : Program ss ts)
    (h' : Program ss' ts') : Program (ss ++ ss') (ts ++ ts') := by
  induction ss generalizing ts with
  | nil =>
    cases h
    exact h'
  | cons s ss ih =>
    cases h with
    | decls hs hrest =>
      rw [List.append_assoc]
      exact .decls hs (ih hrest)

end Grammar

end Lox
