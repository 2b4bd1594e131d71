import Lox.Parse.Program
import Lox.Proofs.Lines.Scan
import Lox.Proofs.Scan.Lexemes
import Mathlib.Data.List.Basic
/-!
# The scanner finds the tiles

A tile that fits is found by the scanner, and what follows it is scanned as if it stood alone
(`Scan.peels_of_fits`). So the scan of a text can be read off any tiling of it (`Tiling.ofBytes`):
its tokens are the lexemes, its complaints are about stray bytes, an open string and numbers that
are too large, and each has the line on which its text ends. Main statement: `Scan.ofBytes_tiled`.
-/

namespace Lox

/-! ## What is found in a text -/

namespace Scan

/-- What a scan brings forth from the given line and mode on. -/
def items (line : Nat) (mode : Mode) : Bytes → List Scanned
  | [] => complete line mode
  | b :: rest => (feed line mode b).2 ++ items (lineAfter line b) (feed line mode b).1 rest

theorem finish_eq_items (source : Bytes) (s : Scanner) :
    (source.foldl Scanner.feed s).finish = s.found.reverse ++ items s.line s.mode source := by
  induction source generalizing s with
  | nil => rfl
  | cons b source ih =>
    rw [List.foldl_cons, ih]
    simp [Scanner.feed, items]

variable {line : Nat} {rest : Bytes}

/-- A mode that the next byte does not continue is done with. -/
theorem items_stop {mode : Mode}
    (h : ∀ b, rest.head? = some b → extend line mode b = none) :
    items line mode rest = complete line mode ++ items line .start rest := by
  cases rest with
  | nil => exact (List.append_nil _).symm
  | cons b rest =>
    have hfeed : feed line mode b = ((enter line b).1, complete line mode ++ (enter line b).2) := by
      simp [feed, h b rfl]
    have hstart : feed line .start b = enter line b := rfl
    simp only [items, hfeed, hstart, List.append_assoc]

/-- A row of bytes that each continue the mode. -/
theorem items_continue (mode : Bytes → Mode) {text : Bytes}
    (h : ∀ b ∈ text, ∀ line read, extend line (mode read) b = some (mode (b :: read), []))
    (read : Bytes) : items line (mode read) (text ++ rest) =
      items (line + text.count Bytes.newline) (mode (text.reverse ++ read)) rest := by
  induction text generalizing line read with
  | nil => rfl
  | cons b text ih =>
    have hfeed : feed line (mode read) b = (mode (b :: read), []) := by
      simp [feed, h b List.mem_cons_self]
    have hline : lineAfter line b + text.count Bytes.newline =
        line + (b :: text).count Bytes.newline := by
      rw [List.count_cons, lineAfter]
      split <;> omega
    rw [List.cons_append, items, hfeed, List.nil_append,
      ih (fun c hc => h c (List.mem_cons_of_mem b hc)), hline]
    simp

theorem items_start {b : UInt8} {mode : Mode} (h : enter line b = (mode, []))
    (hb : b ≠ Bytes.newline) : items line .start (b :: rest) = items line mode rest := by
  have hfeed : feed line .start b = (mode, []) := h
  simp [items, hfeed, lineAfter, hb]

end Scan

namespace Tile

/-- The token that a tile is, if its text ends on the given line. -/
def token? (line : Nat) : Tile → Option Token
  | lexeme kind text => some ⟨kind, text, line⟩
  | _ => none

/-- What is wrong with a tile. -/
def fault? : Tile → Option ScanFault
  | stray b => some (.unexpected b)
  | openString _ => some .unterminatedString
  | lexeme .number text =>
    if (Token.numberValue text).isInf then some (.numberTooLarge text) else none
  | _ => none

/-- What scanning brings forth for a tile. -/
def found (line : Nat) (tile : Tile) : List Scanned :=
  (tile.fault?.map fun fault => .error ⟨line, fault⟩).toList ++
    ((tile.token? line).map .token).toList

end Tile

namespace Scan

variable {line : Nat} {rest : Bytes}

/-- A byte of a class is none that is outside of it. -/
theorem ne_of_class {p : UInt8 → Bool} {b c : UInt8} (hb : p b = true) (hc : p c = false) :
    b ≠ c := by
  rintro rfl
  rw [hb] at hc
  cases hc

/-- Letters and digits stand on one line. -/
theorem count_newline {p : UInt8 → Bool} (hp : p Bytes.newline = false) {text : Bytes}
    (h : ∀ c ∈ text, p c = true) : text.count Bytes.newline = 0 := by
  refine List.count_eq_zero.2 fun hmem => ?_
  rw [h _ hmem] at hp
  cases hp

theorem isBlank_of_mem {b : UInt8} (h : b ∈ utf8 " \t\r\n") : isBlank b = true := by
  have h : b ∈ [' '.toUInt8, '\t'.toUInt8, '\r'.toUInt8, Bytes.newline] := h
  simp only [List.mem_cons, List.not_mem_nil, or_false] at h
  rcases h with rfl | rfl | rfl | rfl <;> rfl

theorem mem_of_isBlank {b : UInt8} (h : isBlank b = true) : b ∈ utf8 " \t\r\n" := by
  show b ∈ [' '.toUInt8, '\t'.toUInt8, '\r'.toUInt8, Bytes.newline]
  simpa [isBlank, or_assoc] using h

/-! ### The bytes that tokens start with -/

theorem enter_letter {b : UInt8} (h : Bytes.isLetter b = true) :
    enter line b = (.word [b], []) := by
  have hne : ∀ c, Bytes.isLetter c = false → (b == c) = false := fun c hc =>
    beq_eq_false_iff_ne.2 (ne_of_class h hc)
  simp [enter, isBlank, hne ' '.toUInt8 rfl, hne '\t'.toUInt8 rfl, hne '\r'.toUInt8 rfl,
    hne Bytes.newline rfl, hne '/'.toUInt8 rfl, hne '"'.toUInt8 rfl, h]

theorem enter_digit {b : UInt8} (h : Bytes.isDigit b = true) :
    enter line b = (.whole [b], []) := by
  have hne : ∀ c, Bytes.isDigit c = false → (b == c) = false := fun c hc =>
    beq_eq_false_iff_ne.2 (ne_of_class h hc)
  simp [enter, isBlank, hne ' '.toUInt8 rfl, hne '\t'.toUInt8 rfl, hne '\r'.toUInt8 rfl,
    hne Bytes.newline rfl, hne '/'.toUInt8 rfl, hne '"'.toUInt8 rfl, Bytes.isLetter_of_isDigit h, h]

theorem char_of_byte {b : UInt8} {c : Char} (h : Char.ofUInt8 b = c) : b = c.toUInt8 := by
  subst h
  exact (UInt8.toUInt8_toUInt32 b).symm

theorem symbol_of_punctuation {b : UInt8} {kind : Kind} (h : punctuation? b = some kind) :
    kind.isSymbol = true ∧ utf8 kind.label = [b] := by
  unfold punctuation? at h
  split at h <;> cases h
  all_goals
    rename_i hb
    rw [char_of_byte hb]
    exact ⟨rfl, rfl⟩

theorem symbol_of_operator {b : UInt8} {single double : Kind}
    (h : operator? b = some (single, double)) :
    single.isSymbol = true ∧ utf8 single.label = [b] := by
  unfold operator? at h
  split at h <;> cases h
  all_goals
    rename_i hb
    rw [char_of_byte hb]
    exact ⟨rfl, rfl⟩

/-- A byte that no lexeme starts with is complained about. -/
theorem enter_stray {b : UInt8} (hblank : b ∉ utf8 " \t\r\n")
    (h : ∀ kind text, ¬ Lexeme kind (b :: text)) :
    enter line b = (.start, [.error ⟨line, .unexpected b⟩]) := by
  have hb : isBlank b = false := by
    rw [Bool.eq_false_iff]
    exact fun hb => hblank (mem_of_isBlank hb)
  have hslash : (b == '/'.toUInt8) = false := by
    refine beq_eq_false_iff_ne.2 fun heq => h .slash [] ?_
    rw [heq]
    exact @Lexeme.symbol .slash rfl
  have hquote : (b == '"'.toUInt8) = false := by
    refine beq_eq_false_iff_ne.2 fun heq => h .string ['"'.toUInt8] ?_
    rw [heq]
    exact @Lexeme.string [] List.not_mem_nil
  have hletter : Bytes.isLetter b = false := by
    rw [Bool.eq_false_iff]
    exact fun hl => h _ [] (.word hl fun _ hc => absurd hc List.not_mem_nil)
  have hdigit : Bytes.isDigit b = false := by
    rw [Bool.eq_false_iff]
    exact fun hd => h _ [] (.whole hd fun _ hc => absurd hc List.not_mem_nil)
  have hoperator : operator? b = none := by
    cases ho : operator? b with
    | none => rfl
    | some kinds =>
      obtain ⟨hk, hl⟩ := symbol_of_operator ho
      exact absurd (hl ▸ Lexeme.symbol hk) (h _ [])
  have hpunctuation : punctuation? b = none := by
    cases hp : punctuation? b with
    | none => rfl
    | some kind =>
      obtain ⟨hk, hl⟩ := symbol_of_punctuation hp
      exact absurd (hl ▸ Lexeme.symbol hk) (h _ [])
  simp [enter, hb, hslash, hquote, hletter, hdigit, hoperator, hpunctuation]

/-! ### Tiles are scanned one by one -/

/-- The tile at the start is found, and the rest of the text is scanned as if it stood alone, only
further down. -/
def Peels (line : Nat) (tile : Tile) (rest : Bytes) : Prop :=
  items line .start (tile.bytes ++ rest) =
    tile.found (line + tile.bytes.count Bytes.newline) ++
      items (line + tile.bytes.count Bytes.newline) .start rest

theorem peels_blank {b : UInt8} (h : b ∈ utf8 " \t\r\n") : Peels line (.blank b) rest := by
  have hfeed : feed line .start b = (.start, []) := by
    simp [feed, extend, enter, isBlank_of_mem h, complete]
  have hline : lineAfter line b = line + [b].count Bytes.newline := by
    simp only [lineAfter, List.count_singleton]
    split <;> rfl
  simp [Peels, Tile.bytes, items, hfeed, hline, Tile.found, Tile.fault?, Tile.token?]

theorem peels_comment {text : Bytes} (h : Tile.Fits (.comment text) rest) :
    Peels line (.comment text) rest := by
  obtain ⟨⟨body, rfl⟩, hline, hrest⟩ := h
  have hbody : ∀ b ∈ body, ∀ line read, extend line ((fun _ => Mode.comment) read) b =
      some ((fun _ => Mode.comment) (b :: read), []) := by
    intro b hb _ _
    have hne : b ≠ Bytes.newline := fun heq => hline (List.mem_append_right _ (heq ▸ hb))
    simp [extend, hne]
  have hstop : items line .comment rest = items line .start rest :=
    items_stop fun b hb => by simp [extend, hrest b hb]
  have hcount : body.count Bytes.newline = 0 :=
    List.count_eq_zero.2 fun hmem => hline (List.mem_append_right _ hmem)
  have hscan : items line .start (utf8 "//" ++ body ++ rest) = items line .comment (body ++ rest) :=
    rfl
  have hall : (utf8 "//" ++ body).count Bytes.newline = 0 := List.count_eq_zero.2 hline
  rw [Peels, Tile.bytes, hall, hscan, items_continue (fun _ => .comment) hbody [], hcount]
  exact hstop

theorem peels_stray {b : UInt8} (h : Tile.Fits (.stray b) rest) : Peels line (.stray b) rest := by
  obtain ⟨hblank, hlex⟩ := h
  have hfeed : feed line .start b = (.start, [.error ⟨line, .unexpected b⟩]) :=
    enter_stray hblank hlex
  have hne : b ≠ Bytes.newline := by
    rintro rfl
    exact hblank (by decide)
  simp [Peels, Tile.bytes, items, hfeed, lineAfter, hne, Tile.found, Tile.fault?, Tile.token?]

/-- The bytes of a string, up to its closing quote. -/
theorem items_text {body : Bytes} (h : '"'.toUInt8 ∉ body) :
    items line .start ('"'.toUInt8 :: (body ++ rest)) =
      items (line + body.count Bytes.newline) (.text (body.reverse ++ ['"'.toUInt8])) rest := by
  have hbody : ∀ b ∈ body, ∀ line read,
      extend line (.text read) b = some (.text (b :: read), []) := by
    intro b hb _ _
    have hne : b ≠ '"'.toUInt8 := fun heq => h (heq ▸ hb)
    simp [extend, hne]
  exact items_continue .text hbody ['"'.toUInt8]

theorem peels_openString {text : Bytes} (h : Tile.Fits (.openString text) rest) :
    Peels line (.openString text) rest := by
  obtain ⟨rfl, body, rfl, hq⟩ := h
  have hcount : ('"'.toUInt8 :: body).count Bytes.newline = body.count Bytes.newline := by
    rw [List.count_cons_of_ne (by decide)]
  rw [Peels, Tile.bytes, hcount, List.cons_append, items_text hq]
  rfl

section
variable {text : Bytes} {kind : Kind}

theorem peels_string (h : '"'.toUInt8 ∉ text) :
    Peels line (.lexeme .string ('"'.toUInt8 :: (text ++ ['"'.toUInt8]))) rest := by
  have hcount : ('"'.toUInt8 :: (text ++ ['"'.toUInt8])).count Bytes.newline =
      text.count Bytes.newline := by
    rw [List.count_cons_of_ne (by decide), List.count_append]
    rfl
  have hclose : items (line + text.count Bytes.newline) (.text (text.reverse ++ ['"'.toUInt8]))
      ('"'.toUInt8 :: rest) = .token ⟨.string, '"'.toUInt8 :: (text ++ ['"'.toUInt8]),
        line + text.count Bytes.newline⟩ ::
          items (line + text.count Bytes.newline) .start rest := by
    simp [items, feed, extend, lineAfter, show '"'.toUInt8 ≠ Bytes.newline by decide]
  rw [Peels, Tile.bytes, hcount, List.cons_append, List.append_assoc, items_text h]
  exact hclose

/-- Only numbers can be wrong although they are tokens. -/
theorem found_lexeme (h : kind ≠ .number) :
    Tile.found line (.lexeme kind text) = [.token ⟨kind, text, line⟩] := by
  have hfault : Tile.fault? (.lexeme kind text) = none := by
    unfold Tile.fault?
    split <;> simp_all
  rw [Tile.found, hfault]
  rfl

theorem found_number : Tile.found line (.lexeme .number text) = number line text := by
  simp only [Tile.found, Tile.fault?, number]
  split <;> rfl

theorem ofWord_ne_number (word : Bytes) : Kind.ofWord word ≠ .number := by
  unfold Kind.ofWord
  split
  · rename_i hfind
    have hmem := List.mem_of_find?_eq_some hfind
    rintro rfl
    simp [Kind.keywords] at hmem
  · nofun

theorem peels_word {b : UInt8} (hb : Bytes.isLetter b = true)
    (htext : ∀ c ∈ text, isWordByte c = true) (hlongest : Lexeme.Longest (b :: text) rest) :
    Peels line (.lexeme (Kind.ofWord (b :: text)) (b :: text)) rest := by
  have hword : ∀ c ∈ text, ∀ line read,
      extend line (.word read) c = some (.word (c :: read), []) := by
    intro c hc _ _
    simp [extend, htext c hc]
  have hstop : ∀ c, rest.head? = some c → extend line (.word (text.reverse ++ [b])) c = none := by
    intro c hc
    have hnot : isWordByte c = false := by
      rw [Bool.eq_false_iff]
      intro hw
      obtain ⟨rest', rfl⟩ := List.head?_eq_some_iff.1 hc
      refine hlongest [c] _ (List.cons_ne_nil _ _) (List.prefix_append [c] rest') (.word hb ?_)
      simpa [or_imp, forall_and] using ⟨htext, hw⟩
    simp [extend, hnot]
  have hne : b ≠ Bytes.newline := ne_of_class hb rfl
  have hcount : text.count Bytes.newline = 0 := count_newline (p := isWordByte) rfl htext
  have hall : (b :: text).count Bytes.newline = 0 := by
    rw [List.count_cons_of_ne hne, hcount]
  rw [Peels, Tile.bytes, hall, List.cons_append, items_start (enter_letter hb) hne,
    items_continue .word hword, hcount, Nat.add_zero, items_stop hstop,
    found_lexeme (ofWord_ne_number _)]
  simp [complete]

/-- Digits before a point. -/
theorem items_whole {d : UInt8} {ds : Bytes} (hd : Bytes.isDigit d = true)
    (hds : ∀ c ∈ ds, Bytes.isDigit c = true) :
    items line .start (d :: (ds ++ rest)) = items line (.whole (ds.reverse ++ [d])) rest := by
  have hwhole : ∀ c ∈ ds, ∀ line read,
      extend line (.whole read) c = some (.whole (c :: read), []) := by
    intro c hc _ _
    simp [extend, hds c hc]
  rw [items_start (enter_digit hd) (ne_of_class hd rfl), items_continue .whole hwhole,
    count_newline (p := Bytes.isDigit) rfl hds, Nat.add_zero]

/-- Digits after a point. -/
theorem items_fraction {read es : Bytes} (hes : ∀ c ∈ es, Bytes.isDigit c = true) :
    items line (.fraction read) (es ++ rest) =
      items line (.fraction (es.reverse ++ read)) rest := by
  have hfraction : ∀ c ∈ es, ∀ line read,
      extend line (.fraction read) c = some (.fraction (c :: read), []) := by
    intro c hc _ _
    simp [extend, hes c hc]
  rw [items_continue .fraction hfraction, count_newline (p := Bytes.isDigit) rfl hes, Nat.add_zero]

/-- A point that no digit follows is a token of its own. -/
theorem items_point {read : Bytes} (h : ∀ c, rest.head? = some c → Bytes.isDigit c = false) :
    items line (.whole read) ('.'.toUInt8 :: rest) =
      number line read.reverse ++ items line .start ('.'.toUInt8 :: rest) := by
  have hpoint : items line (.whole read) ('.'.toUInt8 :: rest) =
      items line (.point ('.'.toUInt8 :: read)) rest := rfl
  have hdot : items line .start ('.'.toUInt8 :: rest) =
      .token ⟨.dot, utf8 ".", line⟩ :: items line .start rest := rfl
  rw [hpoint, items_stop fun c hc => by simp [extend, h c hc], hdot]
  simp [complete]

theorem peels_whole {d : UInt8} {ds : Bytes} (hd : Bytes.isDigit d = true)
    (hds : ∀ c ∈ ds, Bytes.isDigit c = true) (hlongest : Lexeme.Longest (d :: ds) rest) :
    Peels line (.lexeme .number (d :: ds)) rest := by
  have hnext : ∀ c, rest.head? = some c → Bytes.isDigit c = false := by
    intro c hc
    rw [Bool.eq_false_iff]
    intro hcd
    obtain ⟨rest', rfl⟩ := List.head?_eq_some_iff.1 hc
    refine hlongest [c] _ (List.cons_ne_nil _ _) (List.prefix_append [c] rest') (.whole hd ?_)
    simpa [or_imp, forall_and] using ⟨hds, hcd⟩
  have hpoint : ∀ c rest', rest = '.'.toUInt8 :: c :: rest' → Bytes.isDigit c = false := by
    rintro c rest' rfl
    rw [Bool.eq_false_iff]
    intro hcd
    exact hlongest ['.'.toUInt8, c] _ (List.cons_ne_nil _ _)
      (List.prefix_append ['.'.toUInt8, c] rest') (.fraction hd hds hcd fun _ h => by cases h)
  have hall : (d :: ds).count Bytes.newline = 0 :=
    count_newline (p := Bytes.isDigit) rfl (List.forall_mem_cons.2 ⟨hd, hds⟩)
  have hread : (ds.reverse ++ [d]).reverse = d :: ds := by simp
  rw [Peels, Tile.bytes, hall, List.cons_append, items_whole hd hds, found_number, Nat.add_zero]
  by_cases hdot : rest.head? = some '.'.toUInt8
  · obtain ⟨rest', rfl⟩ := List.head?_eq_some_iff.1 hdot
    rw [items_point, hread]
    intro c hc
    obtain ⟨rest'', rfl⟩ := List.head?_eq_some_iff.1 hc
    exact hpoint c rest'' rfl
  · rw [items_stop, complete, hread]
    intro c hc
    have hne : c ≠ '.'.toUInt8 := fun heq => hdot (heq ▸ hc)
    simp [extend, hnext c hc, hne]

theorem peels_fraction {d e : UInt8} {ds es : Bytes} (hd : Bytes.isDigit d = true)
    (hds : ∀ c ∈ ds, Bytes.isDigit c = true) (he : Bytes.isDigit e = true)
    (hes : ∀ c ∈ es, Bytes.isDigit c = true)
    (hlongest : Lexeme.Longest (d :: (ds ++ '.'.toUInt8 :: e :: es)) rest) :
    Peels line (.lexeme .number (d :: (ds ++ '.'.toUInt8 :: e :: es))) rest := by
  have hnext : ∀ c, rest.head? = some c → Bytes.isDigit c = false := by
    intro c hc
    rw [Bool.eq_false_iff]
    intro hcd
    obtain ⟨rest', rfl⟩ := List.head?_eq_some_iff.1 hc
    refine hlongest [c] .number (List.cons_ne_nil _ _) (List.prefix_append [c] rest') ?_
    have hlex : Lexeme .number (d :: (ds ++ '.'.toUInt8 :: e :: (es ++ [c]))) :=
      .fraction hd hds he (by simpa [or_imp, forall_and] using ⟨hes, hcd⟩)
    simpa using hlex
  have hall : (d :: (ds ++ '.'.toUInt8 :: e :: es)).count Bytes.newline = 0 := by
    refine List.count_eq_zero.2 fun hmem => ?_
    simp only [List.mem_cons, List.mem_append] at hmem
    rcases hmem with rfl | hmem | hmem | rfl | hmem
    · cases hd
    · cases hds _ hmem
    · revert hmem
      decide
    · cases he
    · cases hes _ hmem
  have hpoint : ∀ read, items line (.whole read) ('.'.toUInt8 :: e :: (es ++ rest)) =
      items line (.fraction (e :: '.'.toUInt8 :: read)) (es ++ rest) := by
    intro read
    have hfirst : items line (.whole read) ('.'.toUInt8 :: e :: (es ++ rest)) =
        items line (.point ('.'.toUInt8 :: read)) (e :: (es ++ rest)) := rfl
    rw [hfirst]
    simp [items, feed, extend, he, lineAfter, ne_of_class (c := Bytes.newline) he rfl]
  rw [Peels, Tile.bytes, hall, List.cons_append, List.append_assoc, items_whole hd hds,
    found_number, Nat.add_zero]
  simp only [List.cons_append]
  rw [hpoint, items_fraction hes, items_stop fun c hc => by simp [extend, hnext c hc], complete]
  simp

/-- An operator byte that no `=` follows. -/
theorem peels_operator {b : UInt8} {double : Kind} (hk : kind ≠ .number)
    (hl : utf8 kind.label = [b]) (ho : operator? b = some (kind, double))
    (hstart : ∀ line, enter line b = (.operator b, [])) (hb : b ≠ Bytes.newline)
    (hrest : rest.head? ≠ some '='.toUInt8) : Peels line (.lexeme kind (utf8 kind.label)) rest := by
  have hstop : ∀ c, rest.head? = some c → extend line (.operator b) c = none := by
    intro c hc
    have hne : c ≠ '='.toUInt8 := fun heq => hrest (heq ▸ hc)
    simp [extend, hne]
  have hcount : [b].count Bytes.newline = 0 := by
    rw [List.count_cons_of_ne hb]
    rfl
  rw [Peels, Tile.bytes, hl, hcount, Nat.add_zero, List.cons_append, List.nil_append,
    items_start (hstart line) hb, items_stop hstop, found_lexeme hk]
  simp [complete, ho]

theorem peels_slash (hrest : ¬ utf8 "//" <+: utf8 "/" ++ rest) :
    Peels line (.lexeme .slash (utf8 "/")) rest := by
  have hstop : ∀ c, rest.head? = some c → extend line .slash c = none := by
    intro c hc
    have hne : c ≠ '/'.toUInt8 := by
      rintro rfl
      obtain ⟨rest', rfl⟩ := List.head?_eq_some_iff.1 hc
      exact hrest ⟨rest', rfl⟩
    simp [extend, hne]
  exact items_stop hstop

theorem peels_symbol (hk : kind.isSymbol = true) (hc : ¬ utf8 "//" <+: utf8 kind.label ++ rest)
    (hlongest : Lexeme.Longest (utf8 kind.label) rest) :
    Peels line (.lexeme kind (utf8 kind.label)) rest := by
  have hnext : ∀ double : Kind, double.isSymbol = true →
      utf8 double.label = utf8 kind.label ++ ['='.toUInt8] → rest.head? ≠ some '='.toUInt8 := by
    intro double hd hlabel hhead
    obtain ⟨rest', rfl⟩ := List.head?_eq_some_iff.1 hhead
    refine hlongest ['='.toUInt8] double (List.cons_ne_nil _ _)
      (List.prefix_append ['='.toUInt8] rest') ?_
    rw [← hlabel]
    exact .symbol hd
  cases kind with
  | slash => exact peels_slash hc
  | assign => exact peels_operator nofun rfl rfl (fun _ => rfl) (by decide) (hnext .equal rfl rfl)
  | bang => exact peels_operator nofun rfl rfl (fun _ => rfl) (by decide) (hnext .notEqual rfl rfl)
  | less => exact peels_operator nofun rfl rfl (fun _ => rfl) (by decide) (hnext .lessEqual rfl rfl)
  | greater =>
    exact peels_operator nofun rfl rfl (fun _ => rfl) (by decide) (hnext .greaterEqual rfl rfl)
  | _ => first | rfl | cases hk

end

/-- **A tile that fits is found**, and then the rest. -/
theorem peels_of_fits {tile : Tile} (h : tile.Fits rest) (line : Nat) : Peels line tile rest := by
  cases tile with
  | blank b => exact peels_blank h
  | comment text => exact peels_comment h
  | stray b => exact peels_stray h
  | openString text => exact peels_openString h
  | lexeme kind text =>
    obtain ⟨hlex, hc, hlongest⟩ := h
    cases hlex with
    | word hb htext => exact peels_word hb htext hlongest
    | whole hd hds => exact peels_whole hd hds hlongest
    | fraction hd hds he hes => exact peels_fraction hd hds he hes hlongest
    | string hq => exact peels_string hq
    | symbol hk => exact peels_symbol hk hc hlongest

/-- The line that is reached when a text has been read. -/
def lineAt (read : Bytes) : Nat := 1 + read.count Bytes.newline

end Scan

namespace Tile

/-- The complaint about a tile, if its text ends on the given line. -/
def error? (line : Nat) (tile : Tile) : Option ScanError :=
  tile.fault?.map fun fault => ⟨line, fault⟩

/-- Each tile with the line on which it ends, given the text before the tiles. -/
def lined (read : Bytes) : List Tile → List (Nat × Tile)
  | [] => []
  | tile :: tiles =>
    (Scan.lineAt (read ++ tile.bytes), tile) :: lined (read ++ tile.bytes) tiles

theorem token?_found (line : Nat) (tile : Tile) :
    (tile.found line).filterMap Scanned.token? = (tile.token? line).toList := by
  unfold found
  cases tile.fault? <;> cases tile.token? line <;> rfl

theorem error?_found (line : Nat) (tile : Tile) :
    (tile.found line).filterMap Scanned.error? = (tile.error? line).toList := by
  unfold found error?
  cases tile.fault? <;> cases tile.token? line <;> rfl

end Tile

namespace Tiling

variable {tiles : List Tile} {source : Bytes}

/-- The tiles are found one after the other. -/
theorem items_eq (h : Tiling tiles source) (read : Bytes) :
    Scan.items (Scan.lineAt read) .start source =
      (Tile.lined read tiles).flatMap fun p => p.2.found p.1 := by
  induction h generalizing read with
  | nil => rfl
  | @cons tile tiles rest hfits _ ih =>
    have hline : Scan.lineAt read + tile.bytes.count Bytes.newline =
        Scan.lineAt (read ++ tile.bytes) := by
      simp only [Scan.lineAt, List.count_append]
      omega
    rw [Scan.peels_of_fits hfits, hline, ih]
    rfl

/-- **The scan of a text is read off its tiles.** -/
theorem ofBytes (h : Tiling tiles source) :
    Scan.ofBytes source =
      ⟨(Tile.lined [] tiles).filterMap fun p => p.2.token? p.1,
        (Tile.lined [] tiles).filterMap fun p => p.2.error? p.1, Scan.lineAt source⟩ := by
  have hfinish : (source.foldl Scanner.feed .start).finish =
      (Tile.lined [] tiles).flatMap fun p => p.2.found p.1 :=
    (Scan.finish_eq_items source .start).trans (h.items_eq [])
  have hline : (source.foldl Scanner.feed .start).line = Scan.lineAt source :=
    Scan.line_eq source .start
  have htokens : (source.foldl Scanner.feed .start).finish.filterMap Scanned.token? =
      (Tile.lined [] tiles).filterMap fun p => p.2.token? p.1 := by
    simp only [hfinish, List.filterMap_flatMap, Tile.token?_found]
    exact (List.filterMap_eq_flatMap_toList _ _).symm
  have herrors : (source.foldl Scanner.feed .start).finish.filterMap Scanned.error? =
      (Tile.lined [] tiles).filterMap fun p => p.2.error? p.1 := by
    simp only [hfinish, List.filterMap_flatMap, Tile.error?_found]
    exact (List.filterMap_eq_flatMap_toList _ _).symm
  rw [Scan.ofBytes_eq, htokens, herrors, hline]

end Tiling

/-- The cursor after so many tokens have been asked for. -/
def Cursor.advanceBy : Nat → Cursor → Cursor
  | 0, c => c
  | n + 1, c => c.advance.advanceBy n

theorem Cursor.advanceBy_eq (n : Nat) (c : Cursor) :
    c.advanceBy n = { c with rest := c.rest.drop n } := by
  induction n generalizing c with
  | zero => rfl
  | succ n ih =>
    rw [advanceBy, ih]
    simp [advance]

/-- No token is listed as the end of the input. -/
theorem Token.toBytes_ne_endListing (t : Token) (line : Nat) : t.toBytes ≠ endListing line := by
  intro h
  have hstart := congrArg (List.take 8) h
  have hend : (endListing line).take 8 = utf8 "Token(EO" := rfl
  have htoken : t.toBytes.take 8 = utf8 "Token(" ++ (utf8 t.kind.label ++ utf8 ", ").take 2 := by
    obtain ⟨kind, lexeme, tokenLine⟩ := t
    cases kind <;> rfl
  rw [hend, htoken] at hstart
  revert hstart
  cases t.kind <;> decide

/-- **A text is tiled by its tokens and gaps.** The lexemes of the tokens, in order, are the lexeme
tiles of the text; what is complained about are its stray bytes, the string that is open at its
end and the numbers that are too large; each is on the line that is reached at its end. The
listing has one entry for the end of the input, the last one, and whoever asks for more tokens
stays at that end, on the last line of the text. -/
theorem Scan.ofBytes_tiled (source : Bytes) :
    (∃ tiles, Tiling tiles source ∧
      (ofBytes source).tokens = ((Tile.lined [] tiles).filterMap fun p => p.2.token? p.1) ∧
      (ofBytes source).errors = (Tile.lined [] tiles).filterMap fun p => p.2.error? p.1) ∧
    (ofBytes source).endLine = lineAt source ∧
    (∃ entries, (ofBytes source).listing = entries ++ [endListing (lineAt source)] ∧
      ∀ line, endListing line ∉ entries) ∧
    ∀ n, let c := (Program.start (ofBytes source).tokens (ofBytes source).endLine).advanceBy n
      c.current? = (ofBytes source).tokens[n]? ∧ c.errors = [] ∧
        ((ofBytes source).tokens.length ≤ n →
          c.siteOf c.current? = .endOfInput (lineAt source)) := by
  obtain ⟨tiles, htiles⟩ := exists_tiling source
  have hscan := htiles.ofBytes
  have hend : (ofBytes source).endLine = lineAt source := by rw [hscan]
  refine ⟨⟨tiles, htiles, by rw [hscan], by rw [hscan]⟩, hend,
    ⟨(ofBytes source).tokens.map Token.toBytes, by rw [listing, hend], fun line hmem => ?_⟩,
    fun n => ?_⟩
  · obtain ⟨t, -, ht⟩ := List.mem_map.1 hmem
    exact t.toBytes_ne_endListing line ht
  · have hcurrent : ((Program.start (ofBytes source).tokens (ofBytes source).endLine).advanceBy
        n).current? = (ofBytes source).tokens[n]? := by
      rw [Cursor.advanceBy_eq, Cursor.current?, List.head?_drop]
      rfl
    refine ⟨hcurrent, by rw [Cursor.advanceBy_eq]; rfl, fun hn => ?_⟩
    rw [hcurrent, List.getElem?_eq_none hn, Cursor.advanceBy_eq, ← hend]
    rfl

end Lox
