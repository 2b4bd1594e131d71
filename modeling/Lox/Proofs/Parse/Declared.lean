import Lox.Proofs.Parse.Forward
import Lox.Proofs.Tree.Spots
/-!
# Declarations in the order of the source

The names of the functions and classes that a walk over a tree comes to stand in the source in the
same order, and each name stands there for one declaration only: together they are a sublist of the
tokens. This holds also of what is left of a program with errors. Main statement:
`Program.names_sublist`.
-/

namespace Lox

namespace Stmt

/-- The functions and classes declared in a statement but not in a class body, by name. -/
def names (s : Stmt) : List Token := s.spots.filterMap Spot.name?

theorem filterMap_rowSpots (i : Nat) (ss : List Stmt) :
    (rowSpots i ss).filterMap Spot.name? = ss.flatMap names := by
  induction ss generalizing i with
  | nil => rfl
  | cons s rest ih =>
    rw [rowSpots, List.filterMap_append, ih, List.filterMap_map]
    rfl

theorem names_eq (s : Stmt) :
    s.names = (Spot.name? ⟨[], [], s⟩).toList ++ s.inner.flatMap names := by
  have hinner : ((rowSpots 0 s.inner).map (Spot.within [s])).filterMap Spot.name? =
      s.inner.flatMap names := by
    rw [List.filterMap_map, ← filterMap_rowSpots 0]
    rfl
  rw [names, spots_eq, ← List.singleton_append, List.filterMap_append, hinner]
  cases h : Spot.name? ⟨[], [], s⟩ <;> simp [h]

theorem names_block (brace : Token) (body : List Stmt) :
    (block brace body).names = body.flatMap names := names_eq _

theorem names_ifElse (keyword : Token) (cond : Expr) (yes : Stmt) (no : Option Stmt) :
    (ifElse keyword cond yes no).names = yes.names ++ no.toList.flatMap names := names_eq _

theorem names_loop (keyword : Token) (cond : Expr) (body : Stmt) :
    (loop keyword cond body).names = body.names := (names_eq _).trans (List.append_nil _)

theorem names_funDecl (f : FunDecl) :
    (funDecl f).names = f.name :: f.body.flatMap names := names_eq _

theorem names_forLoop (keyword : Token) (init : Option Stmt) (cond step : Option Expr)
    (body : Stmt) : (forLoop keyword init cond step body).names =
      init.toList.flatMap names ++ body.names := by
  cases init <;> cases step <;> simp [forLoop, names_block, names_loop] <;> rfl

end Stmt

/-- On the way from `src` to `dst` the names were passed, one after the other. -/
def Passed (names src dst : List Token) : Prop :=
  ∃ used, src = used ++ dst ∧ names.Sublist used

theorem tail_suffix_tail {src dst : List Token} (h : dst <:+ src) : dst.tail <:+ src.tail := by
  cases src with
  | nil =>
    obtain rfl := List.suffix_nil.1 h
    exact List.suffix_rfl
  | cons t src =>
    rcases List.suffix_cons_iff.1 h with rfl | h
    · exact List.suffix_rfl
    · exact (List.tail_suffix _).trans h

namespace Passed

variable {names more src mid dst : List Token}

theorem none (h : dst <:+ src) : Passed [] src dst := by
  obtain ⟨used, rfl⟩ := h
  exact ⟨used, rfl, List.nil_sublist _⟩

theorem trans (h : Passed names src mid) (h' : Passed more mid dst) :
    Passed (names ++ more) src dst := by
  obtain ⟨used, rfl, hn⟩ := h
  obtain ⟨used', rfl, hm⟩ := h'
  exact ⟨used ++ used', (List.append_assoc ..).symm, hn.append hm⟩

theorem before (hs : mid <:+ src) (h : Passed names mid dst) : Passed names src dst :=
  (none hs).trans h

theorem name {t : Token} (h : Passed names src dst) : Passed (t :: names) (t :: src) dst := by
  obtain ⟨used, rfl, hn⟩ := h
  exact ⟨t :: used, rfl, hn.cons_cons t⟩

end Passed

/-- The result has passed its names, up to the token that it ends on. -/
def Parsed.Passes {α : Type} (names : α → List Token) (src : List Token) : Parsed α → Prop
  | .ok a c => Passed (names a) src c.rest.tail
  | _ => True

theorem Parsed.Passes.ok {α : Type} {r : Parsed α} {names : α → List Token} {src : List Token}
    {a : α} {c : Cursor} (h : r.Passes names src) (hr : r = .ok a c) :
    Passed (names a) src c.rest.tail := by
  rwa [hr] at h

namespace Parser

variable {α β : Type} {fuel : Nat} {c : Cursor} {src : List Token}

theorem passes_bind {p : Parser α} {f : α → Parser β} {names : β → List Token}
    (hf : ∀ a c', p c = .ok a c' → (f a c').Passes names src) :
    ((p >>= f) c).Passes names src := by
  rw [bind_apply]
  cases h : p c with
  | ok a c' => exact hf a c' h
  | failed c' => trivial
  | exhausted => trivial

/-- Whatever the parser brings has the property. -/
def Brings (P : α → Prop) (p : Parser α) : Prop := ∀ c a c', p c = .ok a c' → P a

theorem brings_pure {P : α → Prop} {a : α} (h : P a) : (pure a : Parser α).Brings P := by
  rintro c _ _ ⟨⟩
  exact h

theorem brings_bind {P : β → Prop} {p : Parser α} {f : α → Parser β}
    (hf : ∀ a, (f a).Brings P) : (p >>= f).Brings P := by
  intro c b c' h
  obtain ⟨a, c₁, -, h⟩ := bind_ok h
  exact hf a c₁ b c' h

theorem brings_ite {P : α → Prop} {b : Bool} {p q : Parser α} (hp : p.Brings P) (hq : q.Brings P) :
    (if b then p else q).Brings P := by
  split
  · exact hp
  · exact hq

/-! ## Statements that declare no function and no class -/

theorem exprStmt_names (fuel : Nat) : (exprStmt fuel).Brings fun s => s.names = [] :=
  brings_bind fun _ => brings_bind fun _ => brings_bind fun _ => brings_pure rfl

theorem printStmt_names (fuel : Nat) (keyword : Token) :
    (printStmt fuel keyword).Brings fun s => s.names = [] :=
  brings_bind fun _ => brings_bind fun _ => brings_bind fun _ => brings_pure rfl

theorem returnStmt_names (fuel : Nat) (keyword : Token) :
    (returnStmt fuel keyword).Brings fun s => s.names = [] :=
  brings_bind fun _ => brings_ite (brings_bind fun _ => brings_bind fun _ => brings_pure rfl)
    (brings_bind fun _ => brings_bind fun _ => brings_bind fun _ => brings_bind fun _ =>
      brings_pure rfl)

theorem varDecl_names (fuel : Nat) (keyword : Token) :
    (varDecl fuel keyword).Brings fun s => s.names = [] :=
  brings_bind fun _ => brings_bind fun _ => brings_ite
    (brings_bind fun _ => brings_bind fun _ => brings_bind fun _ => brings_bind fun _ =>
      brings_bind fun _ => brings_pure rfl)
    (brings_bind fun _ => brings_bind fun _ => brings_pure rfl)

theorem forInitializer_names (fuel : Nat) :
    (forInitializer fuel).Brings fun s => s.toList.flatMap Stmt.names = [] := by
  have hsome : ∀ {p : Parser Stmt}, p.Brings (fun s => s.names = []) →
      (p >>= fun s => Pure.pure (some s) : Parser (Option Stmt)).Brings
        fun s => s.toList.flatMap Stmt.names = [] := by
    intro p hp c s' c' h
    obtain ⟨s, c₁, hs, ⟨⟩⟩ := bind_ok h
    simpa using hp c s c' hs
  refine brings_bind fun c => ?_
  split
  · split
    · exact brings_pure rfl
    · exact hsome (varDecl_names fuel _)
    · exact hsome (exprStmt_names fuel)
  · exact hsome (exprStmt_names fuel)

theorem passes_of_names {p : Parser Stmt} (hp : p.Forward) (hn : p.Brings fun s => s.names = []) :
    (p c).Passes Stmt.names c.rest := by
  cases h : p c with
  | ok s c' =>
    show Passed s.names c.rest c'.rest.tail
    rw [hn c s c' h]
    exact .none ((List.tail_suffix _).trans (hp.ok h))
  | failed c' => trivial
  | exhausted => trivial

/-! ## Statements and declarations -/

/-- What each parser of statements passes. A function starts on its name, which is not among its own
declarations. -/
structure StmtPasses (fuel : Nat) : Prop where
  declaration : ∀ c, (declaration fuel c).Passes (fun s => s.toList.flatMap Stmt.names) c.rest
  statement : ∀ c, (statement fuel c).Passes Stmt.names c.rest
  block : ∀ c, (block fuel c).Passes (List.flatMap Stmt.names) c.rest
  declarations : ∀ c, (declarations fuel c).Passes (List.flatMap Stmt.names) c.rest
  function : ∀ kind name c,
    (function fuel kind name c).Passes (fun f => f.body.flatMap Stmt.names) c.rest.tail

theorem recover_passes {p : Parser Stmt} (hp : p.Forward) (h : (p c).Passes Stmt.names c.rest) :
    (recover p c).Passes (fun s => s.toList.flatMap Stmt.names) c.rest := by
  have hskip : ∀ {c' : Cursor}, c'.rest <:+ c.rest →
      Passed [] c.rest (skipStatement c'.rest).tail := fun hc =>
    .none ((List.tail_suffix _).trans ((skipStatement_suffix _).trans hc))
  have hc := hp c
  unfold recover
  cases hr : p c with
  | ok s c' =>
    rw [hr] at h hc
    simp only
    split
    · exact hskip hc
    · show Passed ([s].flatMap Stmt.names) c.rest c'.rest.tail
      rw [List.flatMap_singleton]
      exact h
  | failed c' =>
    rw [hr] at hc
    exact hskip hc
  | exhausted => trivial

theorem function_name (fuel : Nat) (kind : Callee) (name : Token) :
    (function fuel kind name).Brings fun f => f.name = name := by
  cases fuel with
  | zero => rintro _ _ _ ⟨⟩
  | succ fuel =>
    rw [function]
    refine brings_bind fun _ => brings_bind fun _ => brings_ite ?_ ?_ <;>
      exact brings_bind fun _ => brings_bind fun _ => brings_bind fun _ => brings_bind fun _ =>
        brings_pure rfl

theorem afterClassName_names (fuel : Nat) (keyword name : Token) :
    (afterClassName fuel keyword name).Brings fun s => s.names = [name] := by
  have hbody : ∀ superclass, (classBody fuel keyword name superclass).Brings
      fun s => s.names = [name] := fun superclass =>
    brings_bind fun _ => brings_bind fun _ => brings_bind fun ms c s c' h => by
      unfold closeClass at h
      split at h
      · cases h
        rfl
      · cases h
  intro c s c' h
  unfold afterClassName at h
  split at h
  · exact brings_bind (fun t => hbody (some ⟨t, none⟩)) _ _ _ h
  · exact hbody none _ _ _ h

/-- A class passes its own name; what its methods declare is not counted. -/
theorem classDecl_passes (keyword : Token) (c : Cursor) :
    (classDecl fuel keyword c).Passes Stmt.names c.rest := by
  cases fuel with
  | zero => trivial
  | succ fuel =>
    rw [classDecl_eq]
    refine passes_bind fun name c₁ hname => ?_
    obtain ⟨-, -, hrest⟩ := expect_ok hname
    cases h : afterClassName fuel keyword name c₁ with
    | ok s c' =>
      show Passed s.names c.rest c'.rest.tail
      have hforward := (afterClassName_forward (stmtForward fuel) keyword name).ok h
      rw [afterClassName_names fuel keyword name _ _ _ h]
      refine .before (List.tail_suffix c.rest) ?_
      rw [hrest]
      exact (Passed.none (tail_suffix_tail hforward)).name
    | failed c' => trivial
    | exhausted => trivial

theorem declared_passes (ih : StmtPasses fuel) (c : Cursor) :
    (declared fuel c).Passes Stmt.names c.rest := by
  unfold declared
  split
  · rename_i t ht
    split
    · exact classDecl_passes t c
    · refine passes_bind fun name c₁ hname => passes_bind fun f c₂ hf => ?_
      obtain ⟨-, -, hrest⟩ := expect_ok hname
      show Passed (Stmt.funDecl f).names c.rest c₂.rest.tail
      rw [Stmt.names_funDecl, function_name fuel _ name _ _ _ hf]
      refine .before (List.tail_suffix c.rest) ?_
      rw [hrest]
      exact ((ih.function _ name c₁).ok hf).name
    · exact passes_of_names (varDecl_forward fuel t) (varDecl_names fuel t)
    · exact ih.statement c
  · exact ih.statement c

theorem declaration_passes (ih : StmtPasses fuel) (c : Cursor) :
    (declaration (fuel + 1) c).Passes (fun s => s.toList.flatMap Stmt.names) c.rest := by
  rw [declaration_eq]
  exact recover_passes (declared_forward (stmtForward fuel)) (declared_passes ih c)

theorem afterYes_passes (ih : StmtPasses fuel) (keyword : Token) (cond : Expr) (yes : Stmt)
    {c : Cursor} (h : Passed yes.names src c.rest.tail) :
    (afterYes fuel keyword cond yes c).Passes Stmt.names src := by
  unfold afterYes
  split
  · refine passes_bind fun no c' hno => ?_
    show Passed (Stmt.ifElse keyword cond yes (some no)).names src c'.rest.tail
    rw [Stmt.names_ifElse]
    refine h.trans ?_
    rw [Option.toList_some, List.flatMap_singleton]
    exact ((ih.statement c.advance.advance).ok hno).before (List.tail_suffix _)
  · show Passed (Stmt.ifElse keyword cond yes none).names src c.rest.tail
    rw [Stmt.names_ifElse, Option.toList_none, List.flatMap_nil, List.append_nil]
    exact h

theorem statement_passes (ih : StmtPasses fuel) (c : Cursor) :
    (statement (fuel + 1) c).Passes Stmt.names c.rest := by
  have hexpr : (exprStmt fuel c).Passes Stmt.names c.rest :=
    passes_of_names (exprStmt_forward fuel) (exprStmt_names fuel)
  rw [statement_eq]
  split
  · exact hexpr
  · rename_i t ht
    split
    · refine passes_bind fun _ c₁ h₁ => ?_
      rw [advance_bind]
      refine passes_bind fun init c₂ h₂ => ?_
      rw [advance_bind]
      refine passes_bind fun cond c₃ h₃ => ?_
      rw [advance_bind]
      refine passes_bind fun step c₄ h₄ => ?_
      rw [advance_bind]
      refine passes_bind fun body c₅ h₅ => ?_
      show Passed (Stmt.forLoop t init cond step body).names c.rest c₅.rest.tail
      rw [Stmt.names_forLoop, forInitializer_names fuel _ _ _ h₂, List.nil_append]
      refine .before ?_ ((ih.statement c₄.advance).ok h₅)
      have hc₁ : c₁.rest <:+ c.rest := (forward_expect _ _).ok h₁
      have hc₂ : c₂.rest <:+ c.rest :=
        ((forInitializer_forward fuel).ok h₂).trans ((List.tail_suffix _).trans hc₁)
      have hc₃ : c₃.rest <:+ c.rest :=
        ((forClause_forward fuel _ _).ok h₃).trans ((List.tail_suffix _).trans hc₂)
      have hc₄ : c₄.rest <:+ c.rest :=
        ((forClause_forward fuel _ _).ok h₄).trans ((List.tail_suffix _).trans hc₃)
      exact (List.tail_suffix _).trans hc₄
    · refine passes_bind fun cond c₁ hcond => ?_
      rw [advance_bind]
      refine passes_bind fun yes c₂ hyes => ?_
      have hc := (condition_forward fuel _ _).ok hcond
      refine afterYes_passes ih t cond yes (.before ((List.tail_suffix _).trans hc) ?_)
      exact (ih.statement c₁.advance).ok hyes
    · exact passes_of_names (printStmt_forward fuel t) (printStmt_names fuel t)
    · exact passes_of_names (returnStmt_forward fuel t) (returnStmt_names fuel t)
    · refine passes_bind fun cond c₁ hcond => ?_
      rw [advance_bind]
      refine passes_bind fun body c₂ hbody => ?_
      show Passed (Stmt.loop t cond body).names c.rest c₂.rest.tail
      rw [Stmt.names_loop]
      have hc := (condition_forward fuel _ _).ok hcond
      exact ((ih.statement c₁.advance).ok hbody).before ((List.tail_suffix _).trans hc)
    · refine passes_bind fun body c₁ hbody => ?_
      show Passed (Stmt.block _ body).names c.rest c₁.rest.tail
      rw [Stmt.names_block]
      exact (ih.block c).ok hbody
    · exact hexpr

theorem block_passes (ih : StmtPasses fuel) (c : Cursor) :
    (block (fuel + 1) c).Passes (List.flatMap Stmt.names) c.rest := by
  rw [block_eq]
  refine passes_bind fun body c₁ hbody => ?_
  have hall := ((ih.declarations c.advance).ok hbody).before (List.tail_suffix c.rest)
  unfold closeBlock
  split <;> exact hall

/-- One declaration after the other. -/
theorem passes_more {rest : Parser (List Stmt)}
    (hd : (declaration fuel c).Passes (fun s => s.toList.flatMap Stmt.names) c.rest)
    (hrest : ∀ c, (rest c).Passes (List.flatMap Stmt.names) c.rest) :
    ((declaration fuel >>= fun s => advance >>= fun _ => rest >>= fun more =>
      pure (s.toList ++ more) : Parser (List Stmt)) c).Passes (List.flatMap Stmt.names) c.rest := by
  refine passes_bind fun s c₁ hs => ?_
  rw [advance_bind]
  refine passes_bind fun more c₂ hmore => ?_
  show Passed ((s.toList ++ more).flatMap Stmt.names) c.rest c₂.rest.tail
  rw [List.flatMap_append]
  exact (hd.ok hs).trans ((hrest c₁.advance).ok hmore)

theorem declarations_passes (ih : StmtPasses fuel) (c : Cursor) :
    (declarations (fuel + 1) c).Passes (List.flatMap Stmt.names) c.rest := by
  rw [declarations_eq]
  split
  · exact .none (List.tail_suffix _)
  · split
    · exact .none (List.tail_suffix _)
    · exact passes_more (ih.declaration c) ih.declarations

theorem functionBody_passes (ih : StmtPasses fuel) (kind : Callee) (name : Token)
    (params : List Token) (c : Cursor) :
    (functionBody fuel kind name params c).Passes (fun f => f.body.flatMap Stmt.names)
      c.rest.tail := by
  refine passes_bind fun _ c₁ h₁ => passes_bind fun _ c₂ h₂ => passes_bind fun body c₃ h₃ => ?_
  obtain ⟨-, rfl, -⟩ := expect_ok h₁
  obtain ⟨-, rfl, -⟩ := expect_ok h₂
  exact ((ih.block _).ok h₃).before (List.tail_suffix _)

theorem function_passes (ih : StmtPasses fuel) (kind : Callee) (name : Token) (c : Cursor) :
    (function (fuel + 1) kind name c).Passes (fun f => f.body.flatMap Stmt.names) c.rest.tail := by
  rw [function_eq]
  refine passes_bind fun _ c₁ h₁ => ?_
  obtain ⟨-, rfl, -⟩ := expect_ok h₁
  have hbody : ∀ params c₂, c₂.rest <:+ c.advance.rest →
      (functionBody fuel kind name params c₂).Passes (fun f => f.body.flatMap Stmt.names)
        c.rest.tail := by
    intro params c₂ hc₂
    cases h : functionBody fuel kind name params c₂ with
    | ok f c₃ =>
      exact ((functionBody_passes ih kind name params c₂).ok h).before
        ((List.tail_suffix _).trans hc₂)
    | failed c₃ => trivial
    | exhausted => trivial
  unfold functionRest
  split
  · exact hbody [] _ List.suffix_rfl
  · exact passes_bind fun params c₂ h₂ => hbody params c₂ ((parameters_forward fuel 0).ok h₂)

theorem stmtPasses : ∀ fuel, StmtPasses fuel
  | 0 => ⟨fun _ => trivial, fun _ => trivial, fun _ => trivial, fun _ => trivial,
      fun _ _ _ => trivial⟩
  | fuel + 1 =>
    have ih := stmtPasses fuel
    ⟨declaration_passes ih, statement_passes ih, block_passes ih, declarations_passes ih,
      function_passes ih⟩

theorem program_passes : ∀ fuel c, (program fuel c).Passes (List.flatMap Stmt.names) c.rest
  | 0, _ => trivial
  | fuel + 1, c => by
    rw [program_eq]
    split
    · exact .none (List.tail_suffix _)
    · exact passes_more ((stmtPasses fuel).declaration c) (program_passes fuel)

end Parser

/-- The names of the functions and classes of a parsed program, in the order of the walk, are a
sublist of its tokens. -/
theorem Program.names_sublist (tokens : List Token) (endLine : Nat) :
    ((ofTokens tokens endLine).statements.flatMap Stmt.names).Sublist tokens := by
  have hpasses := Parser.program_passes (fuelFor tokens.length) (start tokens endLine)
  unfold ofTokens
  cases h : Parser.program (fuelFor tokens.length) (start tokens endLine) with
  | ok statements c =>
    obtain ⟨used, htokens, hnames⟩ := hpasses.ok h
    have htokens : tokens = used ++ c.rest.tail := htokens
    rw [htokens]
    exact hnames.trans (List.sublist_append_left used _)
  | failed c => exact List.nil_sublist _
  | exhausted => exact List.nil_sublist _

/-- **The overview tells of every declaration once and in its place.** For every program that the
parser can return: the statements that are not inside a class body are, each once and in the order
of the text, the spots of a list. The functions told of are those that are declared there, each with
its name, parameters and line and with the number of functions around it; the classes likewise, each
with its superclass and all its methods. Their names follow one another in the source. The count of
functions is never below zero during the walk, and zero at its end. -/
theorem Insights.tells_every_declaration (tokens : List Token) (endLine : Nat) :
    let program := (Program.ofTokens tokens endLine).statements
    ∃ spots : List Spot,
      (∀ spot, spot ∈ spots ↔ spot.Stands program ∧ spot.Outside) ∧
      spots.Pairwise (fun a b => a.path < b.path) ∧
      (spots.filterMap Spot.name?).Sublist tokens ∧
      (ofProgram program).functions = spots.filterMap Spot.function? ∧
      (ofProgram program).classes = spots.filterMap Spot.class? ∧
      (ofProgram program).depth = 0 ∧
      ∀ n, 0 ≤ (((Stmt.listVisits program).take n).foldl visit ⟨[], [], 0⟩).depth := by
  intro program
  refine ⟨Stmt.rowSpots 0 program, Stmt.mem_rowSpots program, Stmt.sorted_rowSpots program, ?_, ?_,
    ?_, ?_, depth_nonneg program⟩
  · rw [Stmt.filterMap_rowSpots]
    exact Program.names_sublist tokens endLine
  · rw [ofProgram_eq]
    rfl
  · rw [ofProgram_eq]
    rfl
  · rw [ofProgram_eq]
    rfl

end Lox
