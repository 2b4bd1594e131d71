import Lox.Proofs.Parse.ViableProgram
import Lox.Proofs.Repl.Continuation
/-!
# When more lines help

More lines are asked for when a source seems unfinished. They can make a program of it exactly
when nothing is wrong with it before its end (`Completeness.canGoOn`), and that is not what is
looked at: a source with an open string counts as unfinished whatever stands before the string,
one with an error at its end whatever the errors before, and an assignment to something that
cannot be assigned to is not complained about before its value is there. In all these cases the
lines are asked for in vain (`Completeness.AskedInVain`).
-/

namespace Lox

/-! ## Strings over several lines -/

namespace Scanner

theorem found_suffix (source : Bytes) (s : Scanner) :
    s.found <:+ (source.foldl feed s).found := by
  induction source generalizing s with
  | nil => exact List.suffix_refl _
  | cons b source ih => exact (List.suffix_append _ _).trans (ih (s.feed b))

section

variable {s : Scanner} {read : Bytes}

theorem feed_text (h : s.mode = .text read) {b : UInt8} (hb : (b == '"'.toUInt8) = false) :
    s.feed b = ⟨.text (b :: read), Scan.lineAfter s.line b, s.found⟩ := by
  simp only [feed, Scan.feed, Scan.extend, h, hb]
  rfl

theorem feed_quote (h : s.mode = .text read) :
    s.feed '"'.toUInt8 =
      ⟨.start, s.line, .token ⟨.string, ('"'.toUInt8 :: read).reverse, s.line⟩ :: s.found⟩ := by
  simp only [feed, Scan.feed, Scan.extend, h, beq_self_eq_true]
  rfl

/-- An open string stays open, or it becomes a token. -/
theorem text_ends (source : Bytes) (h : s.mode = .text read) :
    Scan.inText (source.foldl feed s).mode = true ∨
      ∃ lexeme line, (Scanned.token ⟨.string, lexeme, line⟩ :: s.found) <:+
        (source.foldl feed s).found := by
  induction source generalizing s read with
  | nil => exact .inl (by rw [List.foldl_nil, h]; rfl)
  | cons b source ih =>
    rw [List.foldl_cons]
    cases hb : b == '"'.toUInt8 with
    | true =>
      have hfound := found_suffix source (s.feed '"'.toUInt8)
      rw [feed_quote h] at hfound
      rw [eq_of_beq hb, feed_quote h]
      exact .inr ⟨_, _, hfound⟩
    | false =>
      rw [feed_text h hb]
      exact ih rfl

end

end Scanner

namespace Scan

/-- What has been found stays found. -/
theorem ofBytes_of_found {source : Bytes} {found : List Scanned}
    (h : found <:+ (source.foldl Scanner.feed .start).found) :
    found.reverse.filterMap Scanned.token? <+: (ofBytes source).tokens ∧
      found.reverse.filterMap Scanned.error? <+: (ofBytes source).errors := by
  have hfirst : found.reverse <+: (source.foldl Scanner.feed .start).finish :=
    (List.reverse_prefix.2 h).trans (List.prefix_append _ _)
  exact ⟨hfirst.filterMap _, hfirst.filterMap _⟩

theorem text_of_inText {mode : Mode} (h : inText mode = true) : ∃ read, mode = .text read := by
  cases mode with
  | text read => exact ⟨read, rfl⟩
  | _ => cases h

theorem alike_followedBy {s next : Scan} {ts : List Token} (h : Grammar.Alike next.tokens ts) :
    Grammar.Alike (s.followedBy next).tokens (s.tokens ++ ts) := by
  have hkinds : (next.tokens.map (Token.reline (· + s.endLine))).map Token.kind =
      next.tokens.map Token.kind := by
    rw [List.map_map]
    rfl
  rw [Grammar.Alike, followedBy, List.map_append, List.map_append, hkinds, h]

end Scan

/-! ## Tokens to complete a program with, as text -/

namespace Filler

/-- Fillers are written one on a line. -/
def text : List Filler → Bytes
  | [] => []
  | f :: fs => f.byte :: Bytes.newline :: text fs

theorem scan_byte (f : Filler) : Scan.ofBytes [f.byte] = ⟨[f.token], [], 1⟩ := by
  cases f <;> rfl

theorem scan_text (fs : List Filler) :
    (Scan.ofBytes (text fs)).errors = [] ∧
      Grammar.Alike (Scan.ofBytes (text fs)).tokens (fs.map token) := by
  induction fs with
  | nil => exact ⟨rfl, rfl⟩
  | cons f fs ih =>
    have hbyte := scan_byte f
    have hclosed := Scan.closed_of_errors (a := [f.byte]) (by rw [hbyte])
    have hscan : Scan.ofBytes (text (f :: fs)) = _ := Scan.ofBytes_newline hclosed (text fs)
    rw [hscan, hbyte]
    exact ⟨by simp [Scan.followedBy, ih.1], Scan.alike_followedBy ih.2⟩

end Filler

/-! ## Sources that can be completed -/

namespace Completeness

open Grammar (stubs)

/-- The source, where an open string is closed on the next line. -/
def closed (source : Bytes) : Bytes :=
  if Scan.inText (Scan.modeAfter source) then source ++ [Bytes.newline, '"'.toUInt8] else source

/-- Nothing is wrong with a source before its end. What is scanned of it is clean, and of its
tokens and of each of their stubs the parser complains only that they end. -/
def canGoOn (source : Bytes) : Bool :=
  let scan := Scan.ofBytes (closed source)
  scan.errors.isEmpty &&
    (scan.tokens :: stubs scan.tokens).all fun tokens =>
      onlyEnded (Program.ofTokens tokens scan.endLine).errors

variable {a b : Bytes}

theorem canGoOn_iff :
    canGoOn a = true ↔ (Scan.ofBytes (closed a)).errors = [] ∧
      ∀ x, x = (Scan.ofBytes (closed a)).tokens ∨ x ∈ stubs (Scan.ofBytes (closed a)).tokens →
        onlyEnded (Program.ofTokens x (Scan.ofBytes (closed a)).endLine).errors = true := by
  simp only [canGoOn, Bool.and_eq_true, List.isEmpty_iff, List.all_eq_true, List.mem_cons]

theorem closed_of_text (h : Scan.inText (Scan.modeAfter a) = true) :
    closed a = a ++ [Bytes.newline, '"'.toUInt8] := if_pos h

theorem closed_of_not_text (h : Scan.inText (Scan.modeAfter a) = false) : closed a = a :=
  if_neg (by simp [h])

/-- The scan of a source with an open string, when the string is closed. -/
theorem scan_closed {read : Bytes} (h : Scan.modeAfter a = .text read) :
    ∃ lexeme line, (Scan.ofBytes (closed a)).tokens =
        (a.foldl Scanner.feed .start).found.reverse.filterMap Scanned.token? ++
          [⟨.string, lexeme, line⟩] ∧
      (Scan.ofBytes (closed a)).errors =
        (a.foldl Scanner.feed .start).found.reverse.filterMap Scanned.error? := by
  have hmode : (a.foldl Scanner.feed .start).mode = .text read := h
  have hfinish : ((closed a).foldl Scanner.feed .start).finish =
      (a.foldl Scanner.feed .start).found.reverse ++
        [.token ⟨.string, ('"'.toUInt8 :: Bytes.newline :: read).reverse,
          (a.foldl Scanner.feed .start).line + 1⟩] := by
    rw [closed_of_text (by rw [h]; rfl), List.foldl_append]
    rw [List.foldl_cons, List.foldl_cons, List.foldl_nil, Scanner.feed_text hmode rfl,
      Scanner.feed_quote rfl]
    simp only [Scanner.finish, List.reverse_cons, Scan.complete, List.append_nil]
    rfl
  simp only [Scan.ofBytes_eq, hfinish, List.filterMap_append]
  exact ⟨_, _, rfl, List.append_nil _⟩

/-- The tokens of a source begin a program if lines can be added that make it one. An open
string is some string in that program. -/
theorem Accepted.begins_closed (h : Accepted (a ++ Bytes.newline :: b)) :
    (Scan.ofBytes (closed a)).errors = [] ∧
      ∃ ss v, Grammar.Program ss ((Scan.ofBytes (closed a)).tokens ++ v) := by
  cases ha : Scan.inText (Scan.modeAfter a) with
  | false =>
    obtain ⟨hscan, ss, _, hprogram, v, rfl⟩ := h.begins ha
    rw [closed_of_not_text ha]
    exact ⟨hscan, ss, v, hprogram⟩
  | true =>
    obtain ⟨read, hmode⟩ := Scan.text_of_inText ha
    obtain ⟨hscan, hparse⟩ := h
    obtain ⟨lexeme, line, htokens, herrors⟩ := scan_closed hmode
    rcases Scanner.text_ends (Bytes.newline :: b) hmode with hopen | ⟨lexeme', line', hfound⟩
    · have hclosed := Scan.closed_of_errors hscan
      rw [Scan.modeAfter, List.foldl_append, hopen] at hclosed
      cases hclosed
    · -- the string ends somewhere in `b`: its token is of the kind of the one that ends here
      rw [← List.foldl_append] at hfound
      obtain ⟨⟨v, htoks⟩, herrs⟩ := Scan.ofBytes_of_found hfound
      have hprogram := Program.grammatical_of_accepted hparse
      rw [← htoks] at hprogram
      rw [hscan, List.prefix_nil] at herrs
      have halike : Grammar.Alike ((Scan.ofBytes (closed a)).tokens ++ v)
          ((.token ⟨.string, lexeme', line'⟩ ::
            (a.foldl Scanner.feed .start).found).reverse.filterMap Scanned.token? ++ v) := by
        simp [Grammar.Alike, htokens, Scanned.token?]
      obtain ⟨ss, hss⟩ := hprogram.alike _ halike
      refine ⟨?_, ss, v, hss⟩
      rw [herrors]
      simpa [Scanned.error?] using herrs

/-- Fillers on the lines after a source stand behind its tokens. -/
theorem accepted_filled {source : Bytes} {fs : List Filler} {ss : List Stmt}
    (hscan : (Scan.ofBytes source).errors = [])
    (h : Grammar.Program ss ((Scan.ofBytes source).tokens ++ fs.map Filler.token)) :
    Accepted (source ++ Bytes.newline :: Filler.text fs) := by
  obtain ⟨hclean, halike⟩ := Filler.scan_text fs
  have hline := Scan.ofBytes_newline (Scan.closed_of_errors hscan) (Filler.text fs)
  obtain ⟨ss', hss⟩ := h.alike _ (Scan.alike_followedBy halike)
  constructor
  · rw [hline]
    simp [Scan.followedBy, hscan, hclean]
  · rw [hline, Program.accepted_of_grammatical hss]

theorem Accepted.canGoOn (h : Accepted (a ++ Bytes.newline :: b)) : canGoOn a = true := by
  obtain ⟨hscan, ss, v, hprogram⟩ := h.begins_closed
  exact canGoOn_iff.2 ⟨hscan, fun x hx => Program.onlyEnded_of_begins hprogram hx _⟩

theorem accepted_of_canGoOn (h : canGoOn a = true) :
    ∃ b, Accepted (a ++ Bytes.newline :: b) := by
  obtain ⟨hscan, h⟩ := canGoOn_iff.1 h
  obtain ⟨fs, ss, hprogram⟩ := Program.completes (h _ (.inl rfl)) fun x hx => h x (.inr hx)
  have haccepted := accepted_filled hscan hprogram
  cases ha : Scan.inText (Scan.modeAfter a) with
  | false => exact ⟨_, closed_of_not_text ha ▸ haccepted⟩
  | true =>
    refine ⟨'"'.toUInt8 :: Bytes.newline :: Filler.text fs, ?_⟩
    rw [closed_of_text ha] at haccepted
    simpa using haccepted

theorem ofSource_of_canGoOn (h : canGoOn a = true) :
    ofSource a = .complete ∨ ofSource a = .incomplete := by
  obtain ⟨hscan, hended⟩ := canGoOn_iff.1 h
  refine ofSource_of_ended fun ha => ?_
  have hended := hended _ (.inl rfl)
  rw [closed_of_not_text ha] at hscan hended
  exact ⟨hscan, hended⟩

theorem judge_complete_iff {scanErrors : List ScanError} {syntaxErrors : List SyntaxError} :
    judge scanErrors syntaxErrors = .complete ↔ scanErrors = [] ∧ syntaxErrors = [] := by
  constructor
  · intro h
    unfold judge at h
    split at h
    · cases h
    · cases scanErrors with
      | cons e es => cases h
      | nil =>
        cases syntaxErrors with
        | nil => exact ⟨rfl, rfl⟩
        | cons e es =>
          simp only at h
          split at h <;> cases h
  · rintro ⟨rfl, rfl⟩
    rfl

theorem ofSource_complete_iff : ofSource a = .complete ↔ Accepted a :=
  judge_complete_iff.trans ⟨fun h => ⟨h.1, h.2⟩, fun h => ⟨h.scan, h.parse⟩⟩

/-- **When more lines help.** They are asked for and can make a program of the source exactly if
it is none yet and nothing is wrong with it before its end. A source that counts as wrong begins
no program. -/
theorem more_lines_help_iff (a : Bytes) :
    (ofSource a = .incomplete ∧ (∃ b, Accepted (a ++ Bytes.newline :: b)) ↔
      canGoOn a = true ∧ ¬ Accepted a) ∧
    ∀ message, ofSource a = .wrong message → ∀ b, ¬ Accepted (a ++ Bytes.newline :: b) := by
  refine ⟨⟨?_, ?_⟩, ?_⟩
  · rintro ⟨hasked, b, hb⟩
    refine ⟨hb.canGoOn, fun ha => ?_⟩
    rw [ofSource_complete_iff.2 ha] at hasked
    cases hasked
  · rintro ⟨hgo, hnone⟩
    refine ⟨?_, accepted_of_canGoOn hgo⟩
    exact (ofSource_of_canGoOn hgo).resolve_left fun h => hnone (ofSource_complete_iff.1 h)
  · intro message hwrong b hb
    rcases ofSource_of_canGoOn hb.canGoOn with h | h <;> rw [hwrong] at h <;> cases h

/-- A sum in a call in a list of arguments, cut before its second operand. -/
def halfSummed : Bytes := utf8 "var total = fold(list, join(\"a\", 1 +"

/-- A statement with one value too many. -/
def overfull : Bytes := utf8 "print 1 2;"

def complaint : Bytes := utf8 "[line 1] Error at '2': Expect ';' after value."

theorem more_lines_help_iff_summed :
    (canGoOn halfSummed = true ∧ ¬ Accepted halfSummed) ∧
      (ofSource halfSummed = .incomplete ∧ ∃ b, Accepted (halfSummed ++ Bytes.newline :: b)) ∧
      (ofSource overfull = .wrong complaint ∧
        ∀ b, ¬ Accepted (overfull ++ Bytes.newline :: b)) := by
  have hgo : canGoOn halfSummed = true := by decide +kernel
  have hnone : ¬ Accepted halfSummed := fun h => absurd h.parse (by decide +kernel)
  have hwrong : ofSource overfull = .wrong complaint := by decide +kernel
  exact ⟨⟨hgo, hnone⟩, (more_lines_help_iff _).1.2 ⟨hgo, hnone⟩, hwrong,
    (more_lines_help_iff _).2 _ hwrong⟩

/-- More lines are asked for, and no lines help. -/
def AskedInVain (a : Bytes) : Prop :=
  ofSource a = .incomplete ∧ ∀ b, ¬ Accepted (a ++ Bytes.newline :: b)

theorem askedInVain_of_canGoOn (hasked : ofSource a = .incomplete) (hgo : canGoOn a = false) :
    AskedInVain a := by
  refine ⟨hasked, fun b hb => ?_⟩
  rw [hb.canGoOn] at hgo
  cases hgo

/-- There is a wrong character before an open string, a wrong token before an open block, or an
assignment to a number. -/
theorem incomplete_in_vain :
    AskedInVain (utf8 "@\"") ∧ AskedInVain (utf8 "print 1 2; \x7b") ∧
      AskedInVain (utf8 "1 =") :=
  ⟨askedInVain_of_canGoOn (by decide +kernel) (by decide +kernel),
    askedInVain_of_canGoOn (by decide +kernel) (by decide +kernel),
    askedInVain_of_canGoOn (by decide +kernel) (by decide +kernel)⟩

end Completeness

end Lox
