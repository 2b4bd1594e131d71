import Lox.Token.Scan
/-!
# Lexemes and gaps

Every text is a row of tiles: lexemes, each the longest that starts at its place, and what stands
between them, which is blanks, comments and bytes that no lexeme starts with; at the very end
there can be a string that is never closed. `Lexeme` and `Tile.Fits` say which pieces these are
without a word about the scanner, and `exists_tiling` that each text is made up of them.
-/

namespace Lox

/-! ## Lexemes -/

/-- The kinds of token with a fixed spelling of special characters, which is also their label. -/
def Kind.isSymbol : Kind → Bool
  | .assign | .plus | .minus | .bang | .star | .slash | .less | .greater | .equal | .notEqual
  | .lessEqual | .greaterEqual | .comma | .semicolon | .leftParen | .rightParen | .leftBrace
  | .rightBrace | .dot => true
  | _ => false

/-- The texts of the tokens of a kind. -/
inductive Lexeme : Kind → Bytes → Prop
  | word {b : UInt8} {text : Bytes} : Bytes.isLetter b = true →
    (∀ c ∈ text, Scan.isWordByte c = true) → Lexeme (Kind.ofWord (b :: text)) (b :: text)
  | whole {d : UInt8} {ds : Bytes} : Bytes.isDigit d = true → (∀ c ∈ ds, Bytes.isDigit c = true) →
    Lexeme .number (d :: ds)
  | fraction {d e : UInt8} {ds es : Bytes} : Bytes.isDigit d = true →
    (∀ c ∈ ds, Bytes.isDigit c = true) → Bytes.isDigit e = true →
    (∀ c ∈ es, Bytes.isDigit c = true) → Lexeme .number (d :: (ds ++ '.'.toUInt8 :: e :: es))
  | string {text : Bytes} : '"'.toUInt8 ∉ text →
    Lexeme .string ('"'.toUInt8 :: (text ++ ['"'.toUInt8]))
  | symbol {kind : Kind} : kind.isSymbol = true → Lexeme kind (utf8 kind.label)

/-- Symbols are one byte long, or one byte with `=` after it. -/
theorem Kind.spelling {kind : Kind} (h : kind.isSymbol = true) :
    ∃ b, utf8 kind.label = [b] ∨ utf8 kind.label = [b, '='.toUInt8] := by
  cases kind <;> first | exact ⟨_, .inl rfl⟩ | exact ⟨_, .inr rfl⟩ | cases h

/-- Bytes that a symbol starts with start no word, number or string. -/
theorem Kind.label_head {kind : Kind} {b : UInt8} {text : Bytes} (h : kind.isSymbol = true)
    (hl : utf8 kind.label = b :: text) :
    Bytes.isLetter b = false ∧ Bytes.isDigit b = false ∧ b ≠ '"'.toUInt8 := by
  cases kind <;> first | (obtain ⟨rfl, -⟩ := List.cons.inj hl; decide) | cases h

/-- What a symbol starts with is a symbol too. -/
theorem Kind.exists_single {kind : Kind} {b : UInt8} {text : Bytes} (h : kind.isSymbol = true)
    (hl : utf8 kind.label = b :: text) :
    ∃ single : Kind, single.isSymbol = true ∧ utf8 single.label = [b] := by
  cases kind with
  | equal => exact ⟨.assign, rfl, by rw [← (List.cons.inj hl).1]; rfl⟩
  | notEqual => exact ⟨.bang, rfl, by rw [← (List.cons.inj hl).1]; rfl⟩
  | lessEqual => exact ⟨.less, rfl, by rw [← (List.cons.inj hl).1]; rfl⟩
  | greaterEqual => exact ⟨.greater, rfl, by rw [← (List.cons.inj hl).1]; rfl⟩
  | _ => first | exact ⟨_, h, by rw [← (List.cons.inj hl).1]; rfl⟩ | cases h

theorem Bytes.isLetter_of_isDigit {b : UInt8} (h : Bytes.isDigit b = true) :
    Bytes.isLetter b = false := by
  simp only [isDigit, isLetter, Bool.and_eq_true, decide_eq_true_eq, Bool.or_eq_false_iff,
    Bool.and_eq_false_iff, decide_eq_false_iff_not, UInt8.le_iff_toNat_le, beq_eq_false_iff_ne,
    ne_eq, ← UInt8.toNat_inj, Nat.not_le] at h ⊢
  have h0 : ('0'.toUInt8).toNat = 48 := rfl
  have h9 : ('9'.toUInt8).toNat = 57 := rfl
  have ha : ('a'.toUInt8).toNat = 97 := rfl
  have hA : ('A'.toUInt8).toNat = 65 := rfl
  have hu : ('_'.toUInt8).toNat = 95 := rfl
  omega

namespace Lexeme

variable {kind : Kind} {b : UInt8} {text : Bytes}

theorem ne_nil (h : Lexeme kind text) : text ≠ [] := by
  cases h with
  | symbol hk =>
    obtain ⟨b, hl | hl⟩ := Kind.spelling hk <;> simp [hl]
  | _ => exact List.cons_ne_nil _ _

/-! ### The first byte tells the class -/

theorem rest_of_letter (h : Lexeme kind (b :: text)) (hb : Bytes.isLetter b = true) :
    ∀ c ∈ text, Scan.isWordByte c = true := by
  generalize hs : b :: text = source at h
  cases h with
  | word _ ht =>
    cases hs
    exact ht
  | whole hd _ =>
    cases hs
    rw [Bytes.isLetter_of_isDigit hd] at hb
    cases hb
  | fraction hd _ _ _ =>
    cases hs
    rw [Bytes.isLetter_of_isDigit hd] at hb
    cases hb
  | string _ =>
    cases hs
    cases hb
  | symbol hk =>
    rw [(Kind.label_head hk hs.symm).1] at hb
    cases hb

theorem rest_of_digit (h : Lexeme kind (b :: text)) (hb : Bytes.isDigit b = true) :
    (∀ c ∈ text, Bytes.isDigit c = true) ∨
      ∃ ds e es, text = ds ++ '.'.toUInt8 :: e :: es ∧ (∀ c ∈ ds, Bytes.isDigit c = true) ∧
        ∀ c ∈ e :: es, Bytes.isDigit c = true := by
  generalize hs : b :: text = source at h
  cases h with
  | word hl _ =>
    cases hs
    rw [Bytes.isLetter_of_isDigit hb] at hl
    cases hl
  | whole _ hds =>
    cases hs
    exact .inl hds
  | fraction _ hds he hes =>
    cases hs
    exact .inr ⟨_, _, _, rfl, hds, List.forall_mem_cons.2 ⟨he, hes⟩⟩
  | string _ =>
    cases hs
    cases hb
  | symbol hk =>
    rw [(Kind.label_head hk hs.symm).2.1] at hb
    cases hb

theorem rest_of_quote (h : Lexeme kind ('"'.toUInt8 :: text)) :
    ∃ body, '"'.toUInt8 ∉ body ∧ text = body ++ ['"'.toUInt8] := by
  generalize hs : '"'.toUInt8 :: text = source at h
  cases h with
  | word hl _ =>
    cases hs
    cases hl
  | whole hd _ =>
    cases hs
    cases hd
  | fraction hd _ _ _ =>
    cases hs
    cases hd
  | string hq =>
    cases hs
    exact ⟨_, hq, rfl⟩
  | symbol hk => exact absurd rfl (Kind.label_head hk hs.symm).2.2

theorem symbol_of_first (h : Lexeme kind (b :: text)) (hl : Bytes.isLetter b = false)
    (hd : Bytes.isDigit b = false) (hq : b ≠ '"'.toUInt8) :
    kind.isSymbol = true ∧ utf8 kind.label = b :: text := by
  generalize hs : b :: text = source at h
  cases h with
  | word hl' _ =>
    cases hs
    rw [hl] at hl'
    cases hl'
  | whole hd' _ =>
    cases hs
    rw [hd] at hd'
    cases hd'
  | fraction hd' _ _ _ =>
    cases hs
    rw [hd] at hd'
    cases hd'
  | string _ =>
    cases hs
    exact absurd rfl hq
  | symbol hk => exact ⟨hk, rfl⟩

/-! ### The longest lexeme at a place -/

/-- No longer lexeme starts where the text does. -/
def Longest (text rest : Bytes) : Prop :=
  ∀ more kind, more ≠ [] → more <+: rest → ¬ Lexeme kind (text ++ more)

/-- What can make a text longer starts with the byte that follows it. -/
theorem longest_of_next {rest : Bytes}
    (h : ∀ c rest' more kind, rest = c :: rest' → more <+: rest' →
      ¬ Lexeme kind (text ++ c :: more)) :
    Longest text rest := by
  intro more kind hne hmore
  cases more with
  | nil => exact absurd rfl hne
  | cons c more =>
    obtain ⟨rest', rfl⟩ := hmore
    exact h c (more ++ rest') more kind rfl (List.prefix_append _ _)

theorem longest_word {rest : Bytes} (hb : Bytes.isLetter b = true)
    (hrest : ∀ c, rest.head? = some c → Scan.isWordByte c = false) : Longest (b :: text) rest := by
  refine longest_of_next fun c rest' more kind hc _ hlex => ?_
  have hword := rest_of_letter hlex hb c (by simp)
  rw [hrest c (by simp [hc])] at hword
  cases hword

theorem isDigit_point : Bytes.isDigit '.'.toUInt8 = false := rfl

/-- Two ways to cut a text at the first byte that is no digit are the same. -/
theorem cut_at_digits {ds ds' xs ys : Bytes} {x y : UInt8} (h : ds ++ x :: xs = ds' ++ y :: ys)
    (hds : ∀ c ∈ ds, Bytes.isDigit c = true) (hx : Bytes.isDigit x = false)
    (hds' : ∀ c ∈ ds', Bytes.isDigit c = true) (hy : Bytes.isDigit y = false) :
    x = y ∧ xs = ys := by
  have hdrop := congrArg (List.dropWhile Bytes.isDigit) h
  rw [List.dropWhile_append_of_pos hds, List.dropWhile_append_of_pos hds',
    List.dropWhile_cons_of_neg (by simp [hx]), List.dropWhile_cons_of_neg (by simp [hy])] at hdrop
  exact List.cons.inj hdrop

theorem longest_whole {ds rest : Bytes} (hb : Bytes.isDigit b = true)
    (hds : ∀ c ∈ ds, Bytes.isDigit c = true)
    (hnext : ∀ c, rest.head? = some c → Bytes.isDigit c = false)
    (hpoint : ∀ c rest', rest = '.'.toUInt8 :: c :: rest' → Bytes.isDigit c = false) :
    Longest (b :: ds) rest := by
  refine longest_of_next fun c rest' more kind hc hmore hlex => ?_
  have hcd : Bytes.isDigit c = false := hnext c (by simp [hc])
  rcases rest_of_digit hlex hb with hall | ⟨ds', e, es, heq, hds', hes⟩
  · have := hall c (by simp)
    rw [hcd] at this
    cases this
  · obtain ⟨rfl, rfl⟩ := cut_at_digits heq hds hcd hds' isDigit_point
    obtain ⟨tail, rfl⟩ := hmore
    have hfalse := hpoint e (es ++ tail) hc
    rw [hes e List.mem_cons_self] at hfalse
    cases hfalse

theorem longest_fraction {ds es rest : Bytes} (hb : Bytes.isDigit b = true)
    (hds : ∀ c ∈ ds, Bytes.isDigit c = true)
    (hnext : ∀ c, rest.head? = some c → Bytes.isDigit c = false) :
    Longest (b :: (ds ++ '.'.toUInt8 :: es)) rest := by
  refine longest_of_next fun c rest' more kind hc _ hlex => ?_
  have hcd : Bytes.isDigit c = false := hnext c (by simp [hc])
  rw [List.cons_append, List.append_assoc, List.cons_append] at hlex
  rcases rest_of_digit hlex hb with hall | ⟨ds', e, es', heq, hds', hes'⟩
  · have := hall '.'.toUInt8 (by simp)
    cases this
  · obtain ⟨-, heq⟩ := cut_at_digits heq hds isDigit_point hds' isDigit_point
    have := hes' c (by simp [← heq])
    rw [hcd] at this
    cases this

theorem longest_string {rest : Bytes} :
    Longest ('"'.toUInt8 :: (text ++ ['"'.toUInt8])) rest := by
  refine longest_of_next fun c rest' more kind _ _ hlex => ?_
  rw [List.cons_append, List.append_assoc] at hlex
  obtain ⟨body, hq, heq⟩ := rest_of_quote hlex
  have hbody := congrArg List.dropLast heq
  rw [List.dropLast_concat] at hbody
  simp [← hbody] at hq

/-- A symbol is made longer by `=` only, and then it is another symbol. -/
theorem longest_symbol {rest : Bytes} (hk : kind.isSymbol = true)
    (hnext : ∀ kind' : Kind, kind'.isSymbol = true →
      utf8 kind'.label = utf8 kind.label ++ ['='.toUInt8] → rest.head? ≠ some '='.toUInt8) :
    Longest (utf8 kind.label) rest := by
  refine longest_of_next fun c rest' more kind' hc _ hlex => ?_
  obtain ⟨b, hb⟩ := Kind.spelling hk
  obtain ⟨text, htext⟩ : ∃ text, utf8 kind.label = b :: text := by
    rcases hb with hb | hb <;> exact ⟨_, hb⟩
  obtain ⟨hl, hd, hq⟩ := Kind.label_head hk htext
  rw [htext] at hlex
  obtain ⟨hk', hlabel⟩ := symbol_of_first hlex hl hd hq
  obtain ⟨b', hb' | hb'⟩ := Kind.spelling hk'
  · rw [hb'] at hlabel
    simp at hlabel
  · rw [hb'] at hlabel
    obtain ⟨rfl, htail⟩ := List.cons.inj hlabel
    cases text with
    | cons _ text => simp at htail
    | nil =>
      obtain ⟨rfl, -⟩ := List.cons.inj htail
      exact hnext kind' hk' (by rw [hb', htext]; rfl) (by rw [hc]; rfl)

end Lexeme

/-! ## Tiles -/

/-- A piece of a text. -/
inductive Tile where
  | blank (b : UInt8)
  /-- A comment with its slashes, up to the end of the line. -/
  | comment (text : Bytes)
  /-- A byte that no lexeme starts with. -/
  | stray (b : UInt8)
  | lexeme (kind : Kind) (text : Bytes)
  /-- A string that is not closed. -/
  | openString (text : Bytes)

namespace Tile

def bytes : Tile → Bytes
  | blank b | stray b => [b]
  | comment text | lexeme _ text | openString text => text

/-- Whether a tile is what it says, in front of the rest of the text. -/
def Fits : Tile → Bytes → Prop
  | blank b, _ => b ∈ utf8 " \t\r\n"
  | comment text, rest => utf8 "//" <+: text ∧ Bytes.newline ∉ text ∧
      ∀ b, rest.head? = some b → b = Bytes.newline
  | stray b, _ => b ∉ utf8 " \t\r\n" ∧ ∀ kind text, ¬ Lexeme kind (b :: text)
  | lexeme kind text, rest => Lexeme kind text ∧ ¬ utf8 "//" <+: text ++ rest ∧
      Lexeme.Longest text rest
  | openString text, rest => rest = [] ∧ ∃ body, text = '"'.toUInt8 :: body ∧ '"'.toUInt8 ∉ body

end Tile

/-- The tiles, one after the other, are the text. -/
inductive Tiling : List Tile → Bytes → Prop
  | nil : Tiling [] []
  | cons {tile : Tile} {tiles : List Tile} {rest : Bytes} :
    tile.Fits rest → Tiling tiles rest → Tiling (tile :: tiles) (tile.bytes ++ rest)

/-! ### Every text has a tiling -/

/-- The longest start of a text with a property, and what follows. -/
theorem exists_span (p : UInt8 → Bool) (source : Bytes) :
    ∃ start rest, source = start ++ rest ∧ (∀ c ∈ start, p c = true) ∧
      ∀ c, rest.head? = some c → p c = false := by
  refine ⟨source.takeWhile p, source.dropWhile p, List.takeWhile_append_dropWhile.symm,
    List.all_eq_true.1 List.all_takeWhile, fun c hc => ?_⟩
  have := List.head?_dropWhile_not p source
  rw [hc] at this
  simpa using this

/-- A text begins with a tile. -/
def Begins (source : Bytes) : Prop :=
  ∃ tile rest, tile.bytes ≠ [] ∧ source = Tile.bytes tile ++ rest ∧ tile.Fits rest

theorem begins_comment {source : Bytes} (h : utf8 "//" <+: source) : Begins source := by
  obtain ⟨rest, rfl⟩ := h
  obtain ⟨start, rest, rfl, hstart, hrest⟩ := exists_span (· != Bytes.newline) rest
  refine ⟨.comment (utf8 "//" ++ start), rest, List.cons_ne_nil _ _,
    (List.append_assoc _ _ _).symm, List.prefix_append _ _, fun hmem => ?_, fun b hb => ?_⟩
  · rcases List.mem_append.1 hmem with hmem | hmem
    · revert hmem
      decide
    · simpa using hstart _ hmem
  · simpa using hrest b hb

section
variable {b : UInt8} {rest : Bytes} (hc : ¬ utf8 "//" <+: b :: rest)
include hc

theorem begins_word (hb : Bytes.isLetter b = true) : Begins (b :: rest) := by
  obtain ⟨text, rest, rfl, htext, hrest⟩ := exists_span Scan.isWordByte rest
  exact ⟨.lexeme _ (b :: text), rest, List.cons_ne_nil _ _, rfl, .word hb htext, hc,
    Lexeme.longest_word hb hrest⟩

theorem begins_number (hb : Bytes.isDigit b = true) : Begins (b :: rest) := by
  obtain ⟨ds, rest, rfl, hds, hrest⟩ := exists_span Bytes.isDigit rest
  by_cases hpoint : ∃ e rest', rest = '.'.toUInt8 :: e :: rest' ∧ Bytes.isDigit e = true
  · obtain ⟨e, rest', rfl, he⟩ := hpoint
    obtain ⟨es, rest, rfl, hes, hrest⟩ := exists_span Bytes.isDigit rest'
    refine ⟨.lexeme .number (b :: (ds ++ '.'.toUInt8 :: e :: es)), rest, List.cons_ne_nil _ _, ?_,
      .fraction hb hds he hes, ?_, Lexeme.longest_fraction hb hds hrest⟩
    · simp [Tile.bytes]
    · simpa using hc
  · refine ⟨.lexeme .number (b :: ds), rest, List.cons_ne_nil _ _, rfl, .whole hb hds, hc,
      Lexeme.longest_whole hb hds hrest fun c rest' hr => ?_⟩
    cases hd : Bytes.isDigit c with
    | false => rfl
    | true => exact absurd ⟨c, rest', hr, hd⟩ hpoint

theorem begins_string (hb : b = '"'.toUInt8) : Begins (b :: rest) := by
  subst hb
  obtain ⟨text, rest, rfl, htext, hrest⟩ := exists_span (· != '"'.toUInt8) rest
  have hq : '"'.toUInt8 ∉ text := fun h => by simpa using htext _ h
  cases rest with
  | nil =>
    exact ⟨.openString ('"'.toUInt8 :: text), [], List.cons_ne_nil _ _, rfl, rfl, text, rfl, hq⟩
  | cons c rest =>
    obtain rfl : c = '"'.toUInt8 := by simpa using hrest c rfl
    refine ⟨.lexeme .string ('"'.toUInt8 :: (text ++ ['"'.toUInt8])), rest,
      List.cons_ne_nil _ _, ?_, .string hq, ?_, Lexeme.longest_string⟩
    · simp [Tile.bytes]
    · simpa using hc

/-- A symbol is taken with the `=` after it, if there is such a symbol. -/
theorem begins_symbol {kind : Kind} (hk : kind.isSymbol = true) (hl : utf8 kind.label = [b]) :
    Begins (b :: rest) := by
  by_cases hlong : ∃ (kind' : Kind) (rest' : Bytes), kind'.isSymbol = true ∧
      utf8 kind'.label = [b, '='.toUInt8] ∧ rest = '='.toUInt8 :: rest'
  · obtain ⟨kind', rest', hk', hl', rfl⟩ := hlong
    refine ⟨.lexeme kind' (utf8 kind'.label), rest', ?_, ?_, .symbol hk', ?_,
      Lexeme.longest_symbol hk' fun longer hlonger heq => ?_⟩
    · exact Lexeme.ne_nil (.symbol hk')
    · rw [Tile.bytes, hl']
      rfl
    · rw [hl']
      exact hc
    · obtain ⟨c, hc | hc⟩ := Kind.spelling hlonger <;> simp [hc, hl'] at heq
  · refine ⟨.lexeme kind (utf8 kind.label), rest, ?_, ?_, .symbol hk, ?_,
      Lexeme.longest_symbol hk fun longer hlonger heq hhead => ?_⟩
    · exact Lexeme.ne_nil (.symbol hk)
    · rw [Tile.bytes, hl]
      rfl
    · rw [hl]
      exact hc
    · obtain ⟨rest', rfl⟩ := List.head?_eq_some_iff.1 hhead
      exact hlong ⟨longer, rest', hlonger, by rw [heq, hl]; rfl, rfl⟩

end

theorem begins_of_ne_nil {source : Bytes} (h : source ≠ []) : Begins source := by
  by_cases hc : utf8 "//" <+: source
  · exact begins_comment hc
  cases source with
  | nil => exact absurd rfl h
  | cons b rest =>
    by_cases hblank : b ∈ utf8 " \t\r\n"
    · exact ⟨.blank b, rest, List.cons_ne_nil _ _, rfl, hblank⟩
    by_cases hl : Bytes.isLetter b = true
    · exact begins_word hc hl
    by_cases hd : Bytes.isDigit b = true
    · exact begins_number hc hd
    by_cases hq : b = '"'.toUInt8
    · exact begins_string hc hq
    by_cases hs : ∃ kind : Kind, kind.isSymbol = true ∧ utf8 kind.label = [b]
    · obtain ⟨kind, hk, hlabel⟩ := hs
      exact begins_symbol hc hk hlabel
    · refine ⟨.stray b, rest, List.cons_ne_nil _ _, rfl, hblank, fun kind text hlex => hs ?_⟩
      obtain ⟨hk, hlabel⟩ := hlex.symbol_of_first (by simpa using hl) (by simpa using hd) hq
      exact Kind.exists_single hk hlabel

theorem exists_tiling (source : Bytes) : ∃ tiles, Tiling tiles source := by
  by_cases h : source = []
  · exact ⟨[], h ▸ .nil⟩
  · obtain ⟨tile, rest, hne, heq, hfits⟩ := begins_of_ne_nil h
    have hshorter : rest.length < source.length := by
      rw [heq, List.length_append]
      exact Nat.lt_add_of_pos_left (List.length_pos_iff.2 hne)
    obtain ⟨tiles, htiles⟩ := exists_tiling rest
    exact ⟨tile :: tiles, heq ▸ .cons hfits htiles⟩
termination_by source.length

end Lox
