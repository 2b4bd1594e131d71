import Lox.Proofs.Scan.Tiles
/-!
# Scanning texts that are put together

Two ways to put texts together that the scanner looks through. A text below another one is scanned
as if it stood alone, unless the upper one leaves a string open (`Scan.ofBytes_below`). And the
lexemes of a text, with single spaces between them, are scanned to the same tokens again
(`Scan.ofBytes_spaced`), since a lexeme in front of a space is a tile on its own.
-/

namespace Lox

/-! ## One text below another -/

namespace Scan

theorem closed_of_faults {a : Bytes}
    (h : ScanFault.unterminatedString ∉ (ofBytes a).errors.map ScanError.fault) :
    inText (modeAfter a) = false := by
  rw [Bool.eq_false_iff]
  intro htext
  obtain ⟨line, hmem⟩ := open_text htext
  exact h (List.mem_map_of_mem hmem)

/-- **Nothing but the line is carried over a line end.** Below a text that leaves no string open,
another text has the tokens and complaints that it has alone, as many lines further down as the
upper text and the newline take. -/
theorem ofBytes_below {a : Bytes}
    (h : ScanFault.unterminatedString ∉ (ofBytes a).errors.map ScanError.fault) (b : Bytes) :
    let lines := 1 + a.count Bytes.newline
    (ofBytes (a ++ Bytes.newline :: b)).tokens =
      (ofBytes a).tokens ++ (ofBytes b).tokens.map (fun t => { t with line := t.line + lines }) ∧
    (ofBytes (a ++ Bytes.newline :: b)).errors =
      (ofBytes a).errors ++ (ofBytes b).errors.map (fun e => { e with line := e.line + lines }) ∧
    (ofBytes (a ++ Bytes.newline :: b)).endLine = (ofBytes b).endLine + lines := by
  have hend : (ofBytes a).endLine = 1 + a.count Bytes.newline :=
    (endLine_eq a).trans (Nat.add_comm ..)
  rw [ofBytes_newline (closed_of_faults h), followedBy, hend]
  exact ⟨rfl, rfl, rfl⟩

/-- The upper text ends in a comment with a quote in it, after a number with a point and a stray
byte; the lower one holds a string over two lines and one that stays open. -/
theorem ofBytes_below_comment :
    let a := utf8 "x = 1.\n@ / // \""
    let b := utf8 "= \"p\nq\" \""
    ScanFault.unterminatedString ∉ (ofBytes a).errors.map ScanError.fault ∧
    (ofBytes (a ++ Bytes.newline :: b)).tokens =
      (ofBytes a).tokens ++ (ofBytes b).tokens.map (fun t => { t with line := t.line + 2 }) ∧
    (ofBytes (a ++ Bytes.newline :: b)).errors =
      (ofBytes a).errors ++ (ofBytes b).errors.map (fun e => { e with line := e.line + 2 }) ∧
    (ofBytes (a ++ Bytes.newline :: b)).endLine = (ofBytes b).endLine + 2 := by
  have h : ScanFault.unterminatedString ∉
      (ofBytes (utf8 "x = 1.\n@ / // \"")).errors.map ScanError.fault := by decide +kernel
  exact ⟨h, ofBytes_below h _⟩

end Scan

/-! ## Lexemes with spaces between them -/

namespace Lexeme

variable {kind : Kind} {text rest : Bytes}

/-- What a lexeme in front of a space, or of nothing, is followed by. -/
def Apart (rest : Bytes) : Prop := ∀ b, rest.head? = some b → b = ' '.toUInt8

theorem longest_of_apart (h : Lexeme kind text) (hrest : Apart rest) : Longest text rest := by
  have hnext : ∀ p : UInt8 → Bool, p ' '.toUInt8 = false →
      ∀ c, rest.head? = some c → p c = false := fun p hp c hc => hrest c hc ▸ hp
  cases h with
  | word hb _ => exact longest_word hb (hnext Scan.isWordByte rfl)
  | whole hd hds =>
    refine longest_whole hd hds (hnext Bytes.isDigit rfl) fun c rest' hr => ?_
    have hpoint : '.'.toUInt8 = ' '.toUInt8 := hrest _ (by rw [hr]; rfl)
    cases hpoint
  | fraction hd hds _ _ => exact longest_fraction hd hds (hnext Bytes.isDigit rfl)
  | string _ => exact longest_string
  | symbol hk =>
    refine longest_symbol hk fun _ _ _ hhead => ?_
    have heq : '='.toUInt8 = ' '.toUInt8 := hrest _ hhead
    cases heq

/-- The only lexeme that starts with a slash is the slash. -/
theorem eq_slash (h : Lexeme kind ('/'.toUInt8 :: text)) : text = [] := by
  obtain ⟨-, hlabel⟩ := h.symbol_of_first rfl rfl (by decide)
  have hhead : (utf8 kind.label).head? = some '/'.toUInt8 := congrArg List.head? hlabel
  cases kind with
  | slash => exact (List.cons.inj hlabel).2.symm
  | _ => exact absurd hhead (by decide)

theorem not_comment_of_apart (h : Lexeme kind text) (hrest : Apart rest) :
    ¬ utf8 "//" <+: text ++ rest := by
  rintro ⟨tail, htail⟩
  have htail : '/'.toUInt8 :: '/'.toUInt8 :: tail = text ++ rest := htail
  cases text with
  | nil => exact h.ne_nil rfl
  | cons b text =>
    obtain ⟨rfl, hslash⟩ := List.cons.inj htail
    rw [h.eq_slash] at hslash
    have hslash : '/'.toUInt8 :: tail = rest := hslash
    have hspace : '/'.toUInt8 = ' '.toUInt8 := hrest _ (by rw [← hslash]; rfl)
    cases hspace

theorem fits_of_apart (h : Lexeme kind text) (hrest : Apart rest) :
    (Tile.lexeme kind text).Fits rest :=
  ⟨h, h.not_comment_of_apart hrest, h.longest_of_apart hrest⟩

end Lexeme

/-- What is wrong with a token: a number can be too large. -/
def Token.fault? (t : Token) : Option ScanFault :=
  if t.kind = .number ∧ (Token.numberValue t.lexeme).isInf then some (.numberTooLarge t.lexeme)
  else none

/-- The complaint about a token. -/
def Token.error? (t : Token) : Option ScanError := t.fault?.map (ScanError.mk t.line)

/-- The kind and the text of a token. -/
def Token.shape (t : Token) : Kind × Bytes := (t.kind, t.lexeme)

def ScanFault.isTooLarge : ScanFault → Bool
  | .numberTooLarge _ => true
  | _ => false

namespace Tile

/-- Tokens with a space between neighbours. -/
def spaced : List Token → List Tile
  | [] => []
  | [t] => [.lexeme t.kind t.lexeme]
  | t :: next :: ts => .lexeme t.kind t.lexeme :: .blank ' '.toUInt8 :: spaced (next :: ts)

theorem tiling_spaced (ts : List Token) (h : ∀ t ∈ ts, Lexeme t.kind t.lexeme) :
    Tiling (spaced ts) (Bytes.join (utf8 " ") (ts.map Token.lexeme)) := by
  fun_induction spaced ts with
  | case1 => exact .nil
  | case2 t =>
    have ht : (lexeme t.kind t.lexeme).Fits [] := (h t List.mem_cons_self).fits_of_apart nofun
    simpa [Bytes.join, bytes] using Tiling.cons ht .nil
  | case3 t next ts ih =>
    have hnext := ih fun u hu => h u (List.mem_cons_of_mem t hu)
    generalize hrest : Bytes.join (utf8 " ") ((next :: ts).map Token.lexeme) = rest at hnext
    have ht : (lexeme t.kind t.lexeme).Fits (' '.toUInt8 :: rest) :=
      (h t List.mem_cons_self).fits_of_apart fun b hb => (Option.some.inj hb).symm
    have hblank : (blank ' '.toUInt8).Fits rest := List.mem_cons_self
    have hjoin : Bytes.join (utf8 " ") ((t :: next :: ts).map Token.lexeme) =
        t.lexeme ++ (utf8 " " ++ rest) := by
      rw [← hrest]
      exact List.append_assoc ..
    rw [hjoin]
    exact .cons ht (.cons hblank hnext)

theorem shape_spaced (ts : List Token) :
    (spaced ts).filterMap (fun tile => (tile.token? 0).map Token.shape) = ts.map Token.shape := by
  fun_induction spaced ts with
  | case1 => rfl
  | case2 t => rfl
  | case3 t next ts ih => exact congrArg (t.shape :: ·) ih

theorem isTooLarge_lexeme {kind : Kind} {text : Bytes} {fault : ScanFault}
    (h : (lexeme kind text).fault? = some fault) : fault.isTooLarge = true := by
  cases kind with
  | number =>
    simp only [fault?] at h
    split at h <;> cases h
    rfl
  | _ => cases h

theorem isTooLarge_spaced {ts : List Token} {tile : Tile} {fault : ScanFault}
    (hmem : tile ∈ spaced ts) (h : tile.fault? = some fault) : fault.isTooLarge = true := by
  fun_induction spaced ts with
  | case1 => cases hmem
  | case2 t =>
    rw [List.mem_singleton.1 hmem] at h
    exact isTooLarge_lexeme h
  | case3 t next ts ih =>
    rcases List.mem_cons.1 hmem with rfl | hmem
    · exact isTooLarge_lexeme h
    rcases List.mem_cons.1 hmem with rfl | hmem
    · cases h
    · exact ih hmem

/-- What does not depend on the line can be read off the tiles alone. -/
theorem filterMap_lined {α : Type} {f : Nat × Tile → Option α} {g : Tile → Option α}
    (h : ∀ line tile, f (line, tile) = g tile) (tiles : List Tile) (read : Bytes) :
    (lined read tiles).filterMap f = tiles.filterMap g := by
  induction tiles generalizing read with
  | nil => rfl
  | cons tile tiles ih => rw [lined, List.filterMap_cons, List.filterMap_cons, h, ih]

/-- The complaint about a number that is too large is about its token. -/
theorem error?_of_token? (line : Nat) (tile : Tile) :
    (tile.token? line).bind Token.error? =
      (tile.error? line).filter (·.fault.isTooLarge) := by
  cases tile with
  | lexeme kind text =>
    cases kind with
    | number =>
      simp only [token?, error?, fault?, Token.error?, Token.fault?, Option.bind_some, true_and]
      split <;> rfl
    | _ => rfl
  | _ => rfl

end Tile

namespace Tiling

variable {tiles : List Tile} {source : Bytes}

theorem lexeme_of_mem {kind : Kind} {text : Bytes} (h : Tiling tiles source)
    (hmem : .lexeme kind text ∈ tiles) : Lexeme kind text := by
  induction h with
  | nil => cases hmem
  | cons hfits _ ih =>
    rcases List.mem_cons.1 hmem with rfl | hmem
    · exact hfits.1
    · exact ih hmem

theorem shapes (h : Tiling tiles source) :
    (Scan.ofBytes source).tokens.map Token.shape =
      tiles.filterMap fun tile => (tile.token? 0).map Token.shape := by
  rw [h.ofBytes, List.map_filterMap]
  refine Tile.filterMap_lined (fun line tile => ?_) tiles []
  cases tile <;> rfl

theorem faults (h : Tiling tiles source) :
    (Scan.ofBytes source).errors.map ScanError.fault = tiles.filterMap Tile.fault? := by
  rw [h.ofBytes, List.map_filterMap]
  refine Tile.filterMap_lined (fun line tile => ?_) tiles []
  simp [Tile.error?, Function.comp_def]

end Tiling

namespace Scan

variable {source : Bytes}

theorem lexeme_of_mem {t : Token} (h : t ∈ (ofBytes source).tokens) : Lexeme t.kind t.lexeme := by
  obtain ⟨tiles, htiles⟩ := exists_tiling source
  have hmem : t.shape ∈ (ofBytes source).tokens.map Token.shape := List.mem_map_of_mem h
  rw [htiles.shapes] at hmem
  obtain ⟨tile, htile, hshape⟩ := List.mem_filterMap.1 hmem
  cases tile with
  | lexeme kind text =>
    obtain ⟨rfl, rfl⟩ := Prod.mk.inj (Option.some.inj hshape)
    exact htiles.lexeme_of_mem htile
  | _ => cases hshape

/-- The numbers that are too large are complained about, each where its token stands. -/
theorem errors_tooLarge (source : Bytes) :
    (ofBytes source).errors.filter (·.fault.isTooLarge) =
      (ofBytes source).tokens.filterMap Token.error? := by
  obtain ⟨tiles, htiles⟩ := exists_tiling source
  rw [htiles.ofBytes, List.filterMap_filterMap, List.filter_filterMap]
  congr
  funext p
  exact (p.2.error?_of_token? p.1).symm

/-- The lexemes of a text, with single spaces between them. -/
def spaced (source : Bytes) : Bytes :=
  Bytes.join (utf8 " ") ((ofBytes source).tokens.map Token.lexeme)

theorem tiling_spaced (source : Bytes) :
    Tiling (Tile.spaced (ofBytes source).tokens) (spaced source) :=
  Tile.tiling_spaced _ fun _ => lexeme_of_mem

theorem shapes_spaced (source : Bytes) :
    (ofBytes (spaced source)).tokens.map Token.shape = (ofBytes source).tokens.map Token.shape :=
  (tiling_spaced source).shapes.trans (Tile.shape_spaced _)

/-- Lexemes leave nothing to complain about but their size. -/
theorem errors_spaced (source : Bytes) :
    (ofBytes (spaced source)).errors = (ofBytes (spaced source)).tokens.filterMap Token.error? := by
  rw [← errors_tooLarge, eq_comm, List.filter_eq_self]
  intro e he
  have hmem : e.fault ∈ (ofBytes (spaced source)).errors.map ScanError.fault :=
    List.mem_map_of_mem he
  rw [(tiling_spaced source).faults] at hmem
  obtain ⟨tile, htile, hfault⟩ := List.mem_filterMap.1 hmem
  exact Tile.isTooLarge_spaced htile hfault

theorem faults_eq (ts : List Token) :
    (ts.filterMap Token.error?).map ScanError.fault =
      (ts.map Token.shape).filterMap fun shape => (Token.mk shape.1 shape.2 0).fault? := by
  rw [List.map_filterMap, List.filterMap_map]
  congr
  funext t
  have hfault : (Token.mk t.shape.1 t.shape.2 0).fault? = t.fault? := rfl
  simp [Token.error?, Function.comp_def, hfault]

/-- **Lexemes are scanned to themselves.** With single spaces between them, the lexemes of a text
are scanned to tokens of the same kinds, with the same texts and values. Nothing is complained
about but numbers that are too large: each such token is, and the text itself had the same
complaints about them. -/
theorem ofBytes_spaced (source : Bytes) :
    let again := ofBytes (spaced source)
    again.tokens.map (fun t => (t.kind, t.lexeme, t.literal?)) =
      (ofBytes source).tokens.map (fun t => (t.kind, t.lexeme, t.literal?)) ∧
    again.errors = again.tokens.filterMap Token.error? ∧
    again.errors.map ScanError.fault =
      ((ofBytes source).errors.filter (·.fault.isTooLarge)).map ScanError.fault := by
  refine ⟨?_, errors_spaced source, ?_⟩
  · have hvalues := congrArg
      (List.map fun shape => (shape.1, shape.2, (Token.mk shape.1 shape.2 0).literal?))
      (shapes_spaced source)
    rw [List.map_map, List.map_map] at hvalues
    exact hvalues
  · rw [errors_spaced, errors_tooLarge, faults_eq, faults_eq, shapes_spaced]

end Scan

end Lox
