import Lox.Proofs.Parse.Tiers
/-!
# Rows of tokens that are as good as those of a program

The grammar looks at the kinds of tokens only, so a row of tokens can be exchanged for another
one of the same kinds. Behind an equals sign or a comma something has to be named or computed,
and a name will do: if a program is cut there and a name put in, the row can be completed again.
These rows are the *stubs* of a program.
-/

namespace Lox

/-- The tokens that will do to complete a program. -/
inductive Filler where
  | name | dot | semicolon | leftParen | rightParen | leftBrace | rightBrace
deriving DecidableEq, Repr

namespace Filler

def kind : Filler → Kind
  | name => .ident
  | dot => .dot
  | semicolon => .semicolon
  | leftParen => .leftParen
  | rightParen => .rightParen
  | leftBrace => .leftBrace
  | rightBrace => .rightBrace

/-- How it is written. -/
def byte : Filler → UInt8
  | name => 'x'.toUInt8
  | dot => '.'.toUInt8
  | semicolon => ';'.toUInt8
  | leftParen => '('.toUInt8
  | rightParen => ')'.toUInt8
  | leftBrace => '\x7b'.toUInt8
  | rightBrace => '\x7d'.toUInt8

def token (f : Filler) : Token := ⟨f.kind, [f.byte], 1⟩

end Filler

namespace Grammar

/-- Whether something must be named or computed behind a token of this kind. -/
def separates : Kind → Bool
  | .assign | .comma => true
  | _ => false

/-- The beginnings of a row of tokens that end in an equals sign or a comma, with a name put
behind it. -/
def stubs : List Token → List (List Token)
  | [] => []
  | t :: ts =>
    (if separates t.kind then [[t, Filler.name.token]] else []) ++ (stubs ts).map (t :: ·)

variable {t : Token} {ts ls rs x : List Token}

theorem mem_stubs_cons :
    x ∈ stubs (t :: ts) ↔ (separates t.kind = true ∧ x = [t, Filler.name.token]) ∨
      ∃ y ∈ stubs ts, x = t :: y := by
  rw [stubs, List.mem_append, List.mem_map]
  refine or_congr ?_ (exists_congr fun y => and_congr_right fun _ => eq_comm)
  split <;> simp_all

theorem mem_stubs_append :
    x ∈ stubs (ls ++ rs) ↔ x ∈ stubs ls ∨ ∃ y ∈ stubs rs, x = ls ++ y := by
  induction ls generalizing x with
  | nil => simp [stubs]
  | cons l ls ih =>
    rw [List.cons_append, mem_stubs_cons, mem_stubs_cons]
    constructor
    · rintro (h | ⟨y, hy, rfl⟩)
      · exact .inl (.inl h)
      · rcases ih.1 hy with hy | ⟨z, hz, rfl⟩
        · exact .inl (.inr ⟨y, hy, rfl⟩)
        · exact .inr ⟨z, hz, rfl⟩
    · rintro ((h | ⟨y, hy, rfl⟩) | ⟨z, hz, rfl⟩)
      · exact .inl h
      · exact .inr ⟨y, ih.2 (.inl hy), rfl⟩
      · exact .inr ⟨ls ++ z, ih.2 (.inr ⟨z, hz, rfl⟩), rfl⟩

theorem mem_stubs_behind (hk : separates t.kind = false) (h : x ∈ stubs (t :: ts)) :
    ∃ y ∈ stubs ts, x = t :: y := by
  rcases mem_stubs_cons.1 h with ⟨ht, -⟩ | h
  · rw [hk] at ht
    cases ht
  · exact h

theorem not_mem_stubs_one (hk : separates t.kind = false) : x ∉ stubs [t] := by
  intro h
  obtain ⟨y, hy, -⟩ := mem_stubs_behind hk h
  cases hy

theorem mem_stubs_closed (hk : separates t.kind = false) (h : x ∈ stubs (ts ++ [t])) :
    x ∈ stubs ts := by
  rcases mem_stubs_append.1 h with h | ⟨y, hy, rfl⟩
  · exact h
  · exact absurd hy (not_mem_stubs_one hk)

/-- Two rows of tokens have the same kinds. -/
def Alike (xs ts : List Token) : Prop := xs.map Token.kind = ts.map Token.kind

theorem Alike.append (h : Alike x (ls ++ rs)) :
    ∃ ls' rs', x = ls' ++ rs' ∧ Alike ls' ls ∧ Alike rs' rs := by
  rw [Alike, List.map_append] at h
  obtain ⟨ls', rs', rfl, hl, hr⟩ := List.map_eq_append_iff.1 h
  exact ⟨ls', rs', rfl, hl, hr⟩

theorem Alike.cons (h : Alike x (t :: ts)) :
    ∃ t' ts', x = t' :: ts' ∧ t'.kind = t.kind ∧ Alike ts' ts := by
  rw [Alike, List.map_cons] at h
  obtain ⟨t', ts', rfl, ht, hts⟩ := List.map_eq_cons_iff.1 h
  exact ⟨t', ts', rfl, ht, hts⟩

theorem Alike.one (h : Alike x [t]) : ∃ t', x = [t'] ∧ t'.kind = t.kind := by
  obtain ⟨t', ts', rfl, ht, hts⟩ := h.cons
  obtain rfl : ts' = [] := List.map_eq_nil_iff.1 hts
  exact ⟨t', rfl, ht⟩

theorem Alike.closed (h : Alike x (ts ++ [t])) :
    ∃ ts' t', x = ts' ++ [t'] ∧ Alike ts' ts ∧ t'.kind = t.kind := by
  obtain ⟨ts', x, rfl, hts, hx⟩ := h.append
  obtain ⟨t', rfl, ht⟩ := hx.one
  exact ⟨ts', t', rfl, hts, ht⟩

/-! ## Expressions -/

/-- The tokens can stand where the phrase stands. -/
def Spelled (ts : List Token) : ExprPhrase → Prop
  | .tier t _ => ∃ e, Spells (.tier t e) ts
  | .arguments es => ∃ es', es'.length ≤ es.length ∧ Spells (.arguments es') ts

theorem constant_alike {t' : Token} {v : Literal} (h : constant? t = some v)
    (hk : t'.kind = t.kind) : ∃ v', constant? t' = some v' := by
  unfold constant? at h ⊢
  cases hkind : t.kind <;> simp [hk, hkind] at h ⊢

/-- **Expressions are spelled by kinds.** -/
theorem Spells.alike {p : ExprPhrase} (h : Spells p ts) : ∀ x, Alike x ts → Spelled x p := by
  induction h with
  | tighter hu _ ih =>
    intro x hx
    obtain ⟨e, he⟩ := ih x hx
    exact ⟨e, .tighter hu he⟩
  | assignName hk heq _ ih =>
    intro x hx
    obtain ⟨name, x, rfl, hn, hx⟩ := hx.cons
    obtain ⟨eq, x, rfl, he, hx⟩ := hx.cons
    obtain ⟨v, hv⟩ := ih x hx
    exact ⟨_, .assignName (hn.trans hk) (he.trans heq) hv⟩
  | assignProperty _ hdot hk heq _ iho ihv =>
    intro x hx
    obtain ⟨os, x, rfl, hos, hx⟩ := hx.append
    obtain ⟨dot, x, rfl, hd, hx⟩ := hx.cons
    obtain ⟨name, x, rfl, hn, hx⟩ := hx.cons
    obtain ⟨eq, x, rfl, he, hx⟩ := hx.cons
    obtain ⟨o, ho⟩ := iho os hos
    obtain ⟨v, hv⟩ := ihv x hx
    exact ⟨_, .assignProperty ho (hd.trans hdot) (hn.trans hk) (he.trans heq) hv⟩
  | operator hnode hu _ _ ihl ihr =>
    intro x hx
    obtain ⟨ls, x, rfl, hls, hx⟩ := hx.append
    obtain ⟨op, x, rfl, hop, hx⟩ := hx.cons
    obtain ⟨l, hl⟩ := ihl ls hls
    obtain ⟨r, hr⟩ := ihr x hx
    exact ⟨_, .operator (hop ▸ hnode) hu hl hr⟩
  | unary hu _ ih =>
    intro x hx
    obtain ⟨op, x, rfl, hop, hx⟩ := hx.cons
    obtain ⟨e, he⟩ := ih x hx
    exact ⟨_, .unary (hop ▸ hu) he⟩
  | callEmpty _ ho hc ih =>
    intro x hx
    obtain ⟨fs, x, rfl, hfs, hx⟩ := hx.append
    obtain ⟨opening, x, rfl, hopening, hx⟩ := hx.cons
    obtain ⟨closing, rfl, hclosing⟩ := hx.one
    obtain ⟨f, hf⟩ := ih fs hfs
    exact ⟨_, .callEmpty hf (hopening.trans ho) (hclosing.trans hc)⟩
  | call _ ho _ hlen hc ihf iha =>
    intro x hx
    obtain ⟨fs, x, rfl, hfs, hx⟩ := hx.append
    obtain ⟨opening, x, rfl, hopening, hx⟩ := hx.cons
    obtain ⟨ts, closing, rfl, hts, hclosing⟩ := hx.closed
    obtain ⟨f, hf⟩ := ihf fs hfs
    obtain ⟨args, hle, hargs⟩ := iha ts hts
    exact ⟨_, .call hf (hopening.trans ho) hargs (Nat.le_trans hle hlen) (hclosing.trans hc)⟩
  | property _ hdot hk ih =>
    intro x hx
    obtain ⟨os, x, rfl, hos, hx⟩ := hx.append
    obtain ⟨dot, x, rfl, hd, hx⟩ := hx.cons
    obtain ⟨name, rfl, hn⟩ := hx.one
    obtain ⟨o, ho⟩ := ih os hos
    exact ⟨_, .property ho (hd.trans hdot) (hn.trans hk)⟩
  | constant hc =>
    intro x hx
    obtain ⟨t, rfl, ht⟩ := hx.one
    obtain ⟨v, hv⟩ := constant_alike hc ht
    exact ⟨_, .constant hv⟩
  | name hk =>
    intro x hx
    obtain ⟨t, rfl, ht⟩ := hx.one
    exact ⟨_, .name (ht.trans hk)⟩
  | this hk =>
    intro x hx
    obtain ⟨t, rfl, ht⟩ := hx.one
    exact ⟨_, .this (ht.trans hk)⟩
  | super hk hdot hn =>
    intro x hx
    obtain ⟨t, x, rfl, ht, hx⟩ := hx.cons
    obtain ⟨dot, x, rfl, hd, hx⟩ := hx.cons
    obtain ⟨name, rfl, hname⟩ := hx.one
    exact ⟨_, .super (ht.trans hk) (hd.trans hdot) (hname.trans hn)⟩
  | group ho _ hc ih =>
    intro x hx
    obtain ⟨opening, x, rfl, hopening, hx⟩ := hx.cons
    obtain ⟨ts, closing, rfl, hts, hclosing⟩ := hx.closed
    obtain ⟨e, he⟩ := ih ts hts
    exact ⟨_, .group (hopening.trans ho) he (hclosing.trans hc)⟩
  | lastArgument _ ih =>
    intro x hx
    obtain ⟨e, he⟩ := ih x hx
    exact ⟨[e], Nat.le_refl _, .lastArgument he⟩
  | argument _ hcomma _ ih ihs =>
    intro x hx
    obtain ⟨ts, x, rfl, hts, hx⟩ := hx.append
    obtain ⟨comma, x, rfl, hk, hx⟩ := hx.cons
    obtain ⟨e, he⟩ := ih ts hts
    obtain ⟨es, hle, hes⟩ := ihs x hx
    exact ⟨e :: es, Nat.succ_le_succ hle, .argument he (hk.trans hcomma) hes⟩

theorem name_spells : Expression (.var ⟨Filler.name.token, none⟩) [Filler.name.token] :=
  Spells.expression (.name rfl)

theorem separates_of_node {tier : Tier} {node : Token → Expr → Expr → Expr}
    (h : tier.node? t.kind = some node) : separates t.kind = false := by
  obtain ⟨_, hop, -, ⟨b, rfl, -⟩ | ⟨l, rfl, -⟩⟩ := Tier.node_cases h <;>
    cases hk : t.kind <;> simp_all [Operator.ofKind?, separates]

theorem separates_of_unaryOp {u : UnaryOp} (h : unaryOp? t.kind = some u) :
    separates t.kind = false := by
  cases hk : t.kind <;> simp_all [unaryOp?, separates]

theorem separates_of_constant {v : Literal} (h : constant? t = some v) :
    separates t.kind = false := by
  unfold constant? at h
  cases hk : t.kind <;> simp_all [separates]

/-- **A stub of an expression can be completed.** What is behind the cut can be kept, unless the
whole phrase ends at the name. -/
theorem Spells.stub {p : ExprPhrase} (h : Spells p ts) :
    ∀ x ∈ stubs ts, ∃ w, Spelled (x ++ w) p := by
  induction h with
  | tighter hu _ ih =>
    intro x hx
    obtain ⟨w, e, he⟩ := ih _ hx
    exact ⟨w, e, .tighter hu he⟩
  | assignName hk heq _ ih =>
    intro x hx
    obtain ⟨y, hy, rfl⟩ := mem_stubs_behind (by rw [hk]; rfl) hx
    rcases mem_stubs_cons.1 hy with ⟨-, rfl⟩ | ⟨z, hz, rfl⟩
    · exact ⟨[], _, .assignName hk heq name_spells⟩
    · obtain ⟨w, v, hv⟩ := ih _ hz
      exact ⟨w, _, .assignName hk heq hv⟩
  | assignProperty ho hdot hk heq _ iho ihv =>
    intro x hx
    rcases mem_stubs_append.1 hx with hy | ⟨y, hy, rfl⟩
    · obtain ⟨w, o, ho⟩ := iho _ hy
      exact ⟨w, o, ho.expression⟩
    obtain ⟨z, hz, rfl⟩ := mem_stubs_behind (by rw [hdot]; rfl) hy
    obtain ⟨y₁, hy₁, rfl⟩ := mem_stubs_behind (by rw [hk]; rfl) hz
    rcases mem_stubs_cons.1 hy₁ with ⟨-, rfl⟩ | ⟨z₁, hz₁, rfl⟩
    · exact ⟨[], _, by simpa using Spells.assignProperty ho hdot hk heq name_spells⟩
    · obtain ⟨w, v, hv⟩ := ihv _ hz₁
      exact ⟨w, _, by simpa using Spells.assignProperty ho hdot hk heq hv⟩
  | operator hnode hu hl _ ihl ihr =>
    intro x hx
    rcases mem_stubs_append.1 hx with hy | ⟨y, hy, rfl⟩
    · exact ihl _ hy
    obtain ⟨z, hz, rfl⟩ := mem_stubs_behind (separates_of_node hnode) hy
    obtain ⟨w, r, hr⟩ := ihr _ hz
    exact ⟨w, _, by simpa using Spells.operator hnode hu hl hr⟩
  | unary hu _ ih =>
    intro x hx
    obtain ⟨y, hy, rfl⟩ := mem_stubs_behind (separates_of_unaryOp hu) hx
    obtain ⟨w, e, he⟩ := ih _ hy
    exact ⟨w, _, .unary hu he⟩
  | callEmpty _ ho hc ih =>
    intro x hx
    rcases mem_stubs_append.1 hx with hy | ⟨y, hy, rfl⟩
    · exact ih _ hy
    obtain ⟨z, hz, rfl⟩ := mem_stubs_behind (by rw [ho]; rfl) hy
    exact absurd hz (not_mem_stubs_one (by rw [hc]; rfl))
  | @call opening closing _ _ _ _ hf ho _ hlen hc ihf iha =>
    intro x hx
    rcases mem_stubs_append.1 hx with hy | ⟨y, hy, rfl⟩
    · exact ihf _ hy
    obtain ⟨z, hz, rfl⟩ := mem_stubs_behind (by rw [ho]; rfl) hy
    obtain ⟨w, args, hle, hargs⟩ := iha _ (mem_stubs_closed (by rw [hc]; rfl) hz)
    exact ⟨w ++ [closing], _, by
      simpa using Spells.call hf ho hargs (Nat.le_trans hle hlen) hc⟩
  | property _ hdot hk ih =>
    intro x hx
    rcases mem_stubs_append.1 hx with hy | ⟨y, hy, rfl⟩
    · exact ih _ hy
    obtain ⟨z, hz, rfl⟩ := mem_stubs_behind (by rw [hdot]; rfl) hy
    exact absurd hz (not_mem_stubs_one (by rw [hk]; rfl))
  | constant hc =>
    intro x hx
    exact absurd hx (not_mem_stubs_one (separates_of_constant hc))
  | name hk =>
    intro x hx
    exact absurd hx (not_mem_stubs_one (by rw [hk]; rfl))
  | this hk =>
    intro x hx
    exact absurd hx (not_mem_stubs_one (by rw [hk]; rfl))
  | super hk hdot hn =>
    intro x hx
    obtain ⟨y, hy, rfl⟩ := mem_stubs_behind (by rw [hk]; rfl) hx
    obtain ⟨z, hz, rfl⟩ := mem_stubs_behind (by rw [hdot]; rfl) hy
    exact absurd hz (not_mem_stubs_one (by rw [hn]; rfl))
  | @group opening closing _ _ ho _ hc ih =>
    intro x hx
    obtain ⟨y, hy, rfl⟩ := mem_stubs_behind (by rw [ho]; rfl) hx
    obtain ⟨w, e, he⟩ := ih _ (mem_stubs_closed (by rw [hc]; rfl) hy)
    exact ⟨w ++ [closing], _, by simpa using Spells.group ho he hc⟩
  | lastArgument _ ih =>
    intro x hx
    obtain ⟨w, e, he⟩ := ih _ hx
    exact ⟨w, [e], Nat.le_refl _, .lastArgument he⟩
  | argument h hcomma hrest ih ihs =>
    intro x hx
    rcases mem_stubs_append.1 hx with hy | ⟨y, hy, rfl⟩
    · obtain ⟨w, e, he⟩ := ih _ hy
      exact ⟨w, [e], by simp, .lastArgument he⟩
    rcases mem_stubs_cons.1 hy with ⟨-, rfl⟩ | ⟨z, hz, rfl⟩
    · refine ⟨[], _, ?_, by
        simpa using Spells.argument h hcomma (.lastArgument name_spells)⟩
      cases hrest <;> simp
    · obtain ⟨w, es, hle, hes⟩ := ihs _ hz
      exact ⟨w, _ :: es, Nat.succ_le_succ hle, by simpa using Spells.argument h hcomma hes⟩

/-! ## Pieces of statements -/

section
variable {e : Option Expr} {names params : List Token} {s : Stmt} {init : Option Stmt}

theorem Optional.alike (h : Optional e ts) (hx : Alike x ts) : ∃ e', Optional e' x := by
  cases h with
  | absent => exact ⟨none, List.map_eq_nil_iff.1 hx ▸ .absent⟩
  | present h =>
    obtain ⟨e', he⟩ := h.alike x hx
    exact ⟨some e', .present he⟩

theorem Optional.stub (h : Optional e ts) (hx : x ∈ stubs ts) : ∃ w e', Optional e' (x ++ w) := by
  cases h with
  | absent => cases hx
  | present h =>
    obtain ⟨w, e', he⟩ := h.stub x hx
    exact ⟨w, some e', .present he⟩

theorem Names.alike (h : Names names ts) :
    ∀ x, Alike x ts → ∃ names', names'.length = names.length ∧ Names names' x := by
  induction h with
  | last hk =>
    intro x hx
    obtain ⟨t, rfl, ht⟩ := hx.one
    exact ⟨[t], rfl, .last (ht.trans hk)⟩
  | more hk hcomma _ ih =>
    intro x hx
    obtain ⟨t, x, rfl, ht, hx⟩ := hx.cons
    obtain ⟨comma, x, rfl, hc, hx⟩ := hx.cons
    obtain ⟨names, hlen, hnames⟩ := ih x hx
    exact ⟨t :: names, by simp [hlen], .more (ht.trans hk) (hc.trans hcomma) hnames⟩

theorem Names.stub (h : Names names ts) :
    ∀ x ∈ stubs ts, ∃ w names', names'.length ≤ names.length ∧ Names names' (x ++ w) := by
  induction h with
  | last hk =>
    intro x hx
    exact absurd hx (not_mem_stubs_one (by rw [hk]; rfl))
  | @more t _ _ _ hk hcomma hrest ih =>
    intro x hx
    obtain ⟨y, hy, rfl⟩ := mem_stubs_behind (by rw [hk]; rfl) hx
    rcases mem_stubs_cons.1 hy with ⟨-, rfl⟩ | ⟨z, hz, rfl⟩
    · refine ⟨[], [t, Filler.name.token], ?_, .more hk hcomma (.last rfl)⟩
      cases hrest <;> simp
    · obtain ⟨w, names, hle, hnames⟩ := ih z hz
      exact ⟨w, t :: names, Nat.succ_le_succ hle, .more hk hcomma hnames⟩

theorem Parameters.alike (h : Parameters params ts) (hx : Alike x ts) :
    ∃ params', Parameters params' x := by
  cases h with
  | absent => exact ⟨[], List.map_eq_nil_iff.1 hx ▸ .absent⟩
  | present hn hlen =>
    obtain ⟨names, heq, hnames⟩ := hn.alike x hx
    exact ⟨names, .present hnames (by omega)⟩

theorem Parameters.stub (h : Parameters params ts) (hx : x ∈ stubs ts) :
    ∃ w params', Parameters params' (x ++ w) := by
  cases h with
  | absent => cases hx
  | present hn hlen =>
    obtain ⟨w, names, hle, hnames⟩ := hn.stub x hx
    exact ⟨w, names, .present hnames (by omega)⟩

theorem VarDecl.alike (h : VarDecl s ts) (hx : Alike x ts) : ∃ s', VarDecl s' x := by
  cases h with
  | plain hv hn hs =>
    obtain ⟨var, x, rfl, hvar, hx⟩ := hx.cons
    obtain ⟨name, x, rfl, hname, hx⟩ := hx.cons
    obtain ⟨semicolon, rfl, hsemi⟩ := hx.one
    exact ⟨_, .plain (hvar.trans hv) (hname.trans hn) (hsemi.trans hs)⟩
  | init hv hn heq h hs =>
    obtain ⟨var, x, rfl, hvar, hx⟩ := hx.cons
    obtain ⟨name, x, rfl, hname, hx⟩ := hx.cons
    obtain ⟨eq, x, rfl, hequal, hx⟩ := hx.cons
    obtain ⟨ts, semicolon, rfl, hts, hsemi⟩ := hx.closed
    obtain ⟨e, he⟩ := h.alike ts hts
    exact ⟨_, .init (hvar.trans hv) (hname.trans hn) (hequal.trans heq) he (hsemi.trans hs)⟩

theorem VarDecl.stub (h : VarDecl s ts) (hx : x ∈ stubs ts) : ∃ w s', VarDecl s' (x ++ w) := by
  cases h with
  | plain hv hn hs =>
    obtain ⟨y, hy, rfl⟩ := mem_stubs_behind (by rw [hv]; rfl) hx
    obtain ⟨z, hz, rfl⟩ := mem_stubs_behind (by rw [hn]; rfl) hy
    exact absurd hz (not_mem_stubs_one (by rw [hs]; rfl))
  | @init _ _ _ semicolon _ _ hv hn heq h hs =>
    obtain ⟨y, hy, rfl⟩ := mem_stubs_behind (by rw [hv]; rfl) hx
    obtain ⟨z, hz, rfl⟩ := mem_stubs_behind (by rw [hn]; rfl) hy
    rcases mem_stubs_cons.1 hz with ⟨-, rfl⟩ | ⟨z', hz', rfl⟩
    · exact ⟨[semicolon], _, .init hv hn heq name_spells hs⟩
    · obtain ⟨w, e', he⟩ := h.stub _ (mem_stubs_closed (by rw [hs]; rfl) hz')
      exact ⟨w ++ [semicolon], _, by simpa using VarDecl.init hv hn heq he hs⟩

theorem ExprStmt.of_expression {e : Expr} (h : Expression e ts) (ht : t.kind = .semicolon) :
    ∃ s, ExprStmt s (ts ++ [t]) := by
  cases ts with
  | nil => exact absurd rfl h.ne_nil
  | cons first ts => exact ⟨_, .mk h ht⟩

theorem ExprStmt.alike (h : ExprStmt s ts) (hx : Alike x ts) : ∃ s', ExprStmt s' x := by
  cases h with
  | mk h hs =>
    rw [← List.cons_append] at hx
    obtain ⟨ts, semicolon, rfl, hts, hsemi⟩ := hx.closed
    obtain ⟨e, he⟩ := h.alike ts hts
    exact ExprStmt.of_expression he (hsemi.trans hs)

theorem ExprStmt.stub (h : ExprStmt s ts) (hx : x ∈ stubs ts) :
    ∃ w s', ExprStmt s' (x ++ w) := by
  cases h with
  | @mk _ semicolon _ _ h hs =>
    rw [← List.cons_append] at hx
    obtain ⟨w, e', he⟩ := h.stub _ (mem_stubs_closed (by rw [hs]; rfl) hx)
    exact ⟨w ++ [semicolon], by simpa using ExprStmt.of_expression he hs⟩

theorem ForInit.alike (h : ForInit init ts) (hx : Alike x ts) : ∃ init', ForInit init' x := by
  cases h with
  | absent hs =>
    obtain ⟨semicolon, rfl, hsemi⟩ := hx.one
    exact ⟨none, .absent (hsemi.trans hs)⟩
  | var h =>
    obtain ⟨s, hs⟩ := h.alike hx
    exact ⟨some s, .var hs⟩
  | expr h =>
    obtain ⟨s, hs⟩ := h.alike hx
    exact ⟨some s, .expr hs⟩

theorem ForInit.stub (h : ForInit init ts) (hx : x ∈ stubs ts) :
    ∃ w init', ForInit init' (x ++ w) := by
  cases h with
  | absent hs => exact absurd hx (not_mem_stubs_one (by rw [hs]; rfl))
  | var h =>
    obtain ⟨w, s, hs⟩ := h.stub hx
    exact ⟨w, some s, .var hs⟩
  | expr h =>
    obtain ⟨w, s, hs⟩ := h.stub hx
    exact ⟨w, some s, .expr hs⟩

end

/-! ## Statements and declarations -/

section
variable {kw opening closing : Token} {e : Expr} {cs rest : List Token}

/-- A condition in parentheses behind its keyword, and what follows it. -/
theorem Alike.condition (h : Alike x (kw :: opening :: (cs ++ closing :: rest)))
    (he : Expression e cs) : ∃ kw' opening' closing' e' cs' rest',
      x = kw' :: opening' :: (cs' ++ closing' :: rest') ∧ kw'.kind = kw.kind ∧
        opening'.kind = opening.kind ∧ closing'.kind = closing.kind ∧ Expression e' cs' ∧
        Alike rest' rest := by
  obtain ⟨kw', x, rfl, hkw, hx⟩ := h.cons
  obtain ⟨opening', x, rfl, hopening, hx⟩ := hx.cons
  obtain ⟨cs', x, rfl, hcs, hx⟩ := hx.append
  obtain ⟨closing', rest', rfl, hclosing, hrest⟩ := hx.cons
  obtain ⟨e', he'⟩ := he.alike cs' hcs
  exact ⟨kw', opening', closing', e', cs', rest', rfl, hkw, hopening, hclosing, he', hrest⟩

/-- A stub ends in the condition, or in what follows it. -/
theorem mem_stubs_condition (hkw : separates kw.kind = false) (ho : opening.kind = .leftParen)
    (he : Expression e cs) (hc : closing.kind = .rightParen)
    (h : x ∈ stubs (kw :: opening :: (cs ++ closing :: rest))) :
    (∃ w e' cs', Expression e' cs' ∧ x ++ w = kw :: opening :: (cs' ++ closing :: rest)) ∨
      ∃ y ∈ stubs rest, x = kw :: opening :: (cs ++ closing :: y) := by
  obtain ⟨x₁, hx₁, rfl⟩ := mem_stubs_behind hkw h
  obtain ⟨x₂, hx₂, rfl⟩ := mem_stubs_behind (by rw [ho]; rfl) hx₁
  rcases mem_stubs_append.1 hx₂ with hx₂ | ⟨x₃, hx₃, rfl⟩
  · obtain ⟨w, e', he'⟩ := he.stub x₂ hx₂
    exact .inl ⟨w ++ closing :: rest, e', x₂ ++ w, he', by simp⟩
  · obtain ⟨y, hy, rfl⟩ := mem_stubs_behind (by rw [hc]; rfl) hx₃
    exact .inr ⟨y, hy, rfl⟩

end

/-- The tokens can stand where the phrase stands. -/
def Formed (ts : List Token) : Phrase → Prop
  | .stmt short _ => ∃ s, Forms (.stmt short s) ts
  | .decl _ => ∃ s, Forms (.decl s) ts
  | .decls _ => ∃ ss, Forms (.decls ss) ts
  | .function _ => ∃ f, Forms (.function f) ts
  | .methods _ => ∃ fs, Forms (.methods fs) ts

theorem forms_for {kw opening semicolon closing : Token} {init : Option Stmt}
    {cond step : Option Expr} {body : Stmt} {short : Bool} {is cs us bs : List Token}
    (hk : kw.kind = .kwFor) (ho : opening.kind = .leftParen) (hi : ForInit init is)
    (hcond : Optional cond cs) (hs : semicolon.kind = .semicolon) (hstep : Optional step us)
    (hc : closing.kind = .rightParen) (hbody : Forms (.stmt short body) bs) :
    Forms (.stmt short (.forLoop kw init cond step body))
      (kw :: opening :: (is ++ (cs ++ semicolon :: (us ++ closing :: bs)))) :=
  .forLoop hk ho hi hcond hs hstep hc hbody (whileForm_iff.2 rfl)

/-- **Programs are formed by kinds.** -/
theorem Forms.alike {p : Phrase} (h : Forms p ts) : ∀ x, Alike x ts → Formed x p := by
  induction h with
  | expr h =>
    intro x hx
    obtain ⟨s, hs⟩ := h.alike hx
    exact ⟨s, .expr hs⟩
  | print hk h hs =>
    intro x hx
    obtain ⟨kw, x, rfl, hkw, hx⟩ := hx.cons
    obtain ⟨ts, semicolon, rfl, hts, hsemi⟩ := hx.closed
    obtain ⟨e, he⟩ := h.alike ts hts
    exact ⟨_, .print (hkw.trans hk) he (hsemi.trans hs)⟩
  | ret hk h hs =>
    intro x hx
    obtain ⟨kw, x, rfl, hkw, hx⟩ := hx.cons
    obtain ⟨ts, semicolon, rfl, hts, hsemi⟩ := hx.closed
    obtain ⟨e, he⟩ := h.alike hts
    exact ⟨_, .ret (hkw.trans hk) he (hsemi.trans hs)⟩
  | block ho _ hc ih =>
    intro x hx
    obtain ⟨opening, x, rfl, hopening, hx⟩ := hx.cons
    obtain ⟨ts, closing, rfl, hts, hclosing⟩ := hx.closed
    obtain ⟨ss, hss⟩ := ih ts hts
    exact ⟨_, .block (hopening.trans ho) hss (hclosing.trans hc)⟩
  | ifShort hk ho hcond hc _ ih =>
    intro x hx
    obtain ⟨kw, opening, closing, cond, cs, ys, rfl, hkw, hopening, hclosing, hcond, hys⟩ :=
      hx.condition hcond
    obtain ⟨yes, hyes⟩ := ih ys hys
    exact ⟨_, .ifShort (hkw.trans hk) (hopening.trans ho) hcond (hclosing.trans hc) hyes⟩
  | ifElse hk ho hcond hc _ hother _ ihy ihn =>
    intro x hx
    obtain ⟨kw, opening, closing, cond, cs, x, rfl, hkw, hopening, hclosing, hcond, hx⟩ :=
      hx.condition hcond
    obtain ⟨ys, x, rfl, hys, hx⟩ := hx.append
    obtain ⟨other, ns, rfl, helse, hns⟩ := hx.cons
    obtain ⟨yes, hyes⟩ := ihy ys hys
    obtain ⟨no, hno⟩ := ihn ns hns
    exact ⟨_, .ifElse (hkw.trans hk) (hopening.trans ho) hcond (hclosing.trans hc) hyes
      (helse.trans hother) hno⟩
  | loop hk ho hcond hc _ ih =>
    intro x hx
    obtain ⟨kw, opening, closing, cond, cs, bs, rfl, hkw, hopening, hclosing, hcond, hbs⟩ :=
      hx.condition hcond
    obtain ⟨body, hbody⟩ := ih bs hbs
    exact ⟨_, .loop (hkw.trans hk) (hopening.trans ho) hcond (hclosing.trans hc) hbody⟩
  | forLoop hk ho hi hcond hs hstep hc _ _ ih =>
    intro x hx
    obtain ⟨kw, x, rfl, hkw, hx⟩ := hx.cons
    obtain ⟨opening, x, rfl, hopening, hx⟩ := hx.cons
    obtain ⟨is, x, rfl, his, hx⟩ := hx.append
    obtain ⟨cs, x, rfl, hcs, hx⟩ := hx.append
    obtain ⟨semicolon, x, rfl, hsemi, hx⟩ := hx.cons
    obtain ⟨us, x, rfl, hus, hx⟩ := hx.append
    obtain ⟨closing, bs, rfl, hclosing, hbs⟩ := hx.cons
    obtain ⟨init, hinit⟩ := hi.alike his
    obtain ⟨cond, hcond⟩ := hcond.alike hcs
    obtain ⟨step, hstep⟩ := hstep.alike hus
    obtain ⟨body, hbody⟩ := ih bs hbs
    exact ⟨_, forms_for (hkw.trans hk) (hopening.trans ho) hinit hcond (hsemi.trans hs) hstep
      (hclosing.trans hc) hbody⟩
  | stmtDecl _ ih =>
    intro x hx
    obtain ⟨s, hs⟩ := ih x hx
    exact ⟨s, .stmtDecl hs⟩
  | varDecl h =>
    intro x hx
    obtain ⟨s, hs⟩ := h.alike hx
    exact ⟨s, .varDecl hs⟩
  | funDecl hk _ ih =>
    intro x hx
    obtain ⟨kw, x, rfl, hkw, hx⟩ := hx.cons
    obtain ⟨f, hf⟩ := ih x hx
    exact ⟨_, .funDecl (hkw.trans hk) hf⟩
  | classDecl hk hn ho _ hc ih =>
    intro x hx
    obtain ⟨kw, x, rfl, hkw, hx⟩ := hx.cons
    obtain ⟨name, x, rfl, hname, hx⟩ := hx.cons
    obtain ⟨opening, x, rfl, hopening, hx⟩ := hx.cons
    obtain ⟨ts, closing, rfl, hts, hclosing⟩ := hx.closed
    obtain ⟨ms, hms⟩ := ih ts hts
    exact ⟨_, .classDecl (hkw.trans hk) (hname.trans hn) (hopening.trans ho) hms
      (hclosing.trans hc)⟩
  | subclassDecl hk hn hless hbase ho _ hc ih =>
    intro x hx
    obtain ⟨kw, x, rfl, hkw, hx⟩ := hx.cons
    obtain ⟨name, x, rfl, hname, hx⟩ := hx.cons
    obtain ⟨less, x, rfl, hl, hx⟩ := hx.cons
    obtain ⟨base, x, rfl, hb, hx⟩ := hx.cons
    obtain ⟨opening, x, rfl, hopening, hx⟩ := hx.cons
    obtain ⟨ts, closing, rfl, hts, hclosing⟩ := hx.closed
    obtain ⟨ms, hms⟩ := ih ts hts
    exact ⟨_, .subclassDecl (hkw.trans hk) (hname.trans hn) (hl.trans hless) (hb.trans hbase)
      (hopening.trans ho) hms (hclosing.trans hc)⟩
  | noDecls =>
    intro x hx
    exact ⟨[], List.map_eq_nil_iff.1 hx ▸ .noDecls⟩
  | decls _ _ ih ihs =>
    intro x hx
    obtain ⟨ts, rest, rfl, hts, hrest⟩ := hx.append
    obtain ⟨s, hs⟩ := ih ts hts
    obtain ⟨ss, hss⟩ := ihs rest hrest
    exact ⟨_, .decls hs hss⟩
  | function hn ho hps hc hbo _ hbc ih =>
    intro x hx
    obtain ⟨name, x, rfl, hname, hx⟩ := hx.cons
    obtain ⟨opening, x, rfl, hopening, hx⟩ := hx.cons
    obtain ⟨ps, x, rfl, hparams, hx⟩ := hx.append
    obtain ⟨closing, x, rfl, hclosing, hx⟩ := hx.cons
    obtain ⟨bodyOpening, x, rfl, hbopening, hx⟩ := hx.cons
    obtain ⟨ts, bodyClosing, rfl, hts, hbclosing⟩ := hx.closed
    obtain ⟨params, hps⟩ := hps.alike hparams
    obtain ⟨body, hbody⟩ := ih ts hts
    exact ⟨_, .function (hname.trans hn) (hopening.trans ho) hps (hclosing.trans hc)
      (hbopening.trans hbo) hbody (hbclosing.trans hbc)⟩
  | noMethods =>
    intro x hx
    exact ⟨[], List.map_eq_nil_iff.1 hx ▸ .noMethods⟩
  | methods _ _ ih ihs =>
    intro x hx
    obtain ⟨ts, rest, rfl, hts, hrest⟩ := hx.append
    obtain ⟨f, hf⟩ := ih ts hts
    obtain ⟨fs, hfs⟩ := ihs rest hrest
    exact ⟨_, .methods hf hfs⟩

/-- **A stub of a program can be completed.** -/
theorem Forms.stub {p : Phrase} (h : Forms p ts) : ∀ x ∈ stubs ts, ∃ w, Formed (x ++ w) p := by
  induction h with
  | expr h =>
    intro x hx
    obtain ⟨w, s, hs⟩ := h.stub hx
    exact ⟨w, s, .expr hs⟩
  | @print _ semicolon _ _ hk h hs =>
    intro x hx
    obtain ⟨y, hy, rfl⟩ := mem_stubs_behind (by rw [hk]; rfl) hx
    obtain ⟨w, e, he⟩ := h.stub _ (mem_stubs_closed (by rw [hs]; rfl) hy)
    exact ⟨w ++ [semicolon], _, by simpa using Forms.print hk he hs⟩
  | @ret _ semicolon _ _ hk h hs =>
    intro x hx
    obtain ⟨y, hy, rfl⟩ := mem_stubs_behind (by rw [hk]; rfl) hx
    obtain ⟨w, e, he⟩ := h.stub (mem_stubs_closed (by rw [hs]; rfl) hy)
    exact ⟨w ++ [semicolon], _, by simpa using Forms.ret hk he hs⟩
  | @block _ closing _ _ ho _ hc ih =>
    intro x hx
    obtain ⟨y, hy, rfl⟩ := mem_stubs_behind (by rw [ho]; rfl) hx
    obtain ⟨w, ss, hss⟩ := ih y (mem_stubs_closed (by rw [hc]; rfl) hy)
    exact ⟨w ++ [closing], _, by simpa using Forms.block ho hss hc⟩
  | ifShort hk ho hcond hc hyes ih =>
    intro x hx
    rcases mem_stubs_condition (by rw [hk]; rfl) ho hcond hc hx with
      ⟨w, cond, cs, hcond, hw⟩ | ⟨y, hy, rfl⟩
    · exact ⟨w, _, by rw [hw]; exact .ifShort hk ho hcond hc hyes⟩
    · obtain ⟨w, yes, hyes⟩ := ih y hy
      exact ⟨w, _, by simpa using Forms.ifShort hk ho hcond hc hyes⟩
  | @ifElse _ _ _ other _ _ _ _ _ _ ns hk ho hcond hc hyes hother hno ihy ihn =>
    intro x hx
    rcases mem_stubs_condition (by rw [hk]; rfl) ho hcond hc hx with
      ⟨w, cond, cs, hcond, hw⟩ | ⟨y, hy, rfl⟩
    · exact ⟨w, _, by rw [hw]; exact .ifElse hk ho hcond hc hyes hother hno⟩
    rcases mem_stubs_append.1 hy with hy | ⟨z, hz, rfl⟩
    · obtain ⟨w, yes, hyes⟩ := ihy y hy
      exact ⟨w ++ other :: ns, _, by simpa using Forms.ifElse hk ho hcond hc hyes hother hno⟩
    · obtain ⟨x₁, hx₁, rfl⟩ := mem_stubs_behind (by rw [hother]; rfl) hz
      obtain ⟨w, no, hno⟩ := ihn x₁ hx₁
      exact ⟨w, _, by simpa using Forms.ifElse hk ho hcond hc hyes hother hno⟩
  | loop hk ho hcond hc hbody ih =>
    intro x hx
    rcases mem_stubs_condition (by rw [hk]; rfl) ho hcond hc hx with
      ⟨w, cond, cs, hcond, hw⟩ | ⟨y, hy, rfl⟩
    · exact ⟨w, _, by rw [hw]; exact .loop hk ho hcond hc hbody⟩
    · obtain ⟨w, body, hbody⟩ := ih y hy
      exact ⟨w, _, by simpa using Forms.loop hk ho hcond hc hbody⟩
  | @forLoop _ _ semicolon closing _ _ _ _ _ _ _ cs us bs hk ho hi hcond hs hstep hc hbody _ ih =>
    intro x hx
    obtain ⟨y, hy, rfl⟩ := mem_stubs_behind (by rw [hk]; rfl) hx
    obtain ⟨z, hz, rfl⟩ := mem_stubs_behind (by rw [ho]; rfl) hy
    rcases mem_stubs_append.1 hz with hz | ⟨x₁, hx₁, rfl⟩
    · obtain ⟨w, init, hi⟩ := hi.stub hz
      exact ⟨w ++ (cs ++ semicolon :: (us ++ closing :: bs)), _, by
        simpa using forms_for hk ho hi hcond hs hstep hc hbody⟩
    rcases mem_stubs_append.1 hx₁ with hx₁ | ⟨x₂, hx₂, rfl⟩
    · obtain ⟨w, cond, hcond⟩ := hcond.stub hx₁
      exact ⟨w ++ semicolon :: (us ++ closing :: bs), _, by
        simpa using forms_for hk ho hi hcond hs hstep hc hbody⟩
    obtain ⟨x₃, hx₃, rfl⟩ := mem_stubs_behind (by rw [hs]; rfl) hx₂
    rcases mem_stubs_append.1 hx₃ with hx₃ | ⟨x₄, hx₄, rfl⟩
    · obtain ⟨w, step, hstep⟩ := hstep.stub hx₃
      exact ⟨w ++ closing :: bs, _, by simpa using forms_for hk ho hi hcond hs hstep hc hbody⟩
    obtain ⟨x₅, hx₅, rfl⟩ := mem_stubs_behind (by rw [hc]; rfl) hx₄
    obtain ⟨w, body, hbody⟩ := ih x₅ hx₅
    exact ⟨w, _, by simpa using forms_for hk ho hi hcond hs hstep hc hbody⟩
  | stmtDecl _ ih =>
    intro x hx
    obtain ⟨w, s, hs⟩ := ih x hx
    exact ⟨w, s, .stmtDecl hs⟩
  | varDecl h =>
    intro x hx
    obtain ⟨w, s, hs⟩ := h.stub hx
    exact ⟨w, s, .varDecl hs⟩
  | funDecl hk _ ih =>
    intro x hx
    obtain ⟨y, hy, rfl⟩ := mem_stubs_behind (by rw [hk]; rfl) hx
    obtain ⟨w, f, hf⟩ := ih y hy
    exact ⟨w, _, .funDecl hk hf⟩
  | @classDecl _ _ _ closing _ _ hk hn ho _ hc ih =>
    intro x hx
    obtain ⟨y, hy, rfl⟩ := mem_stubs_behind (by rw [hk]; rfl) hx
    obtain ⟨z, hz, rfl⟩ := mem_stubs_behind (by rw [hn]; rfl) hy
    obtain ⟨x₁, hx₁, rfl⟩ := mem_stubs_behind (by rw [ho]; rfl) hz
    obtain ⟨w, ms, hms⟩ := ih x₁ (mem_stubs_closed (by rw [hc]; rfl) hx₁)
    exact ⟨w ++ [closing], _, by simpa using Forms.classDecl hk hn ho hms hc⟩
  | @subclassDecl _ _ _ _ _ closing _ _ hk hn hless hbase ho _ hc ih =>
    intro x hx
    obtain ⟨y, hy, rfl⟩ := mem_stubs_behind (by rw [hk]; rfl) hx
    obtain ⟨z, hz, rfl⟩ := mem_stubs_behind (by rw [hn]; rfl) hy
    obtain ⟨x₁, hx₁, rfl⟩ := mem_stubs_behind (by rw [hless]; rfl) hz
    obtain ⟨x₂, hx₂, rfl⟩ := mem_stubs_behind (by rw [hbase]; rfl) hx₁
    obtain ⟨x₃, hx₃, rfl⟩ := mem_stubs_behind (by rw [ho]; rfl) hx₂
    obtain ⟨w, ms, hms⟩ := ih x₃ (mem_stubs_closed (by rw [hc]; rfl) hx₃)
    exact ⟨w ++ [closing], _, by simpa using Forms.subclassDecl hk hn hless hbase ho hms hc⟩
  | noDecls =>
    intro x hx
    cases hx
  | @decls _ _ _ rest hs hss ih ihs =>
    intro x hx
    rcases mem_stubs_append.1 hx with hx | ⟨y, hy, rfl⟩
    · obtain ⟨w, s, hs⟩ := ih x hx
      exact ⟨w ++ rest, _, by simpa using Forms.decls hs hss⟩
    · obtain ⟨w, ss, hss⟩ := ihs y hy
      exact ⟨w, _, by simpa using Forms.decls hs hss⟩
  | @function _ _ closing bodyOpening bodyClosing _ _ _ ts hn ho hps hc hbo hbody hbc ih =>
    intro x hx
    obtain ⟨y, hy, rfl⟩ := mem_stubs_behind (by rw [hn]; rfl) hx
    obtain ⟨z, hz, rfl⟩ := mem_stubs_behind (by rw [ho]; rfl) hy
    rcases mem_stubs_append.1 hz with hz | ⟨x₁, hx₁, rfl⟩
    · obtain ⟨w, params, hps⟩ := hps.stub hz
      exact ⟨w ++ closing :: bodyOpening :: (ts ++ [bodyClosing]), _, by
        simpa using Forms.function hn ho hps hc hbo hbody hbc⟩
    obtain ⟨x₂, hx₂, rfl⟩ := mem_stubs_behind (by rw [hc]; rfl) hx₁
    obtain ⟨x₃, hx₃, rfl⟩ := mem_stubs_behind (by rw [hbo]; rfl) hx₂
    obtain ⟨w, body, hbody⟩ := ih x₃ (mem_stubs_closed (by rw [hbc]; rfl) hx₃)
    exact ⟨w ++ [bodyClosing], _, by simpa using Forms.function hn ho hps hc hbo hbody hbc⟩
  | noMethods =>
    intro x hx
    cases hx
  | @methods _ _ _ rest hf hfs ih ihs =>
    intro x hx
    rcases mem_stubs_append.1 hx with hx | ⟨y, hy, rfl⟩
    · obtain ⟨w, f, hf⟩ := ih x hx
      exact ⟨w ++ rest, _, by simpa using Forms.methods hf hfs⟩
    · obtain ⟨w, fs, hfs⟩ := ihs y hy
      exact ⟨w, _, by simpa using Forms.methods hf hfs⟩

end Grammar

end Lox
