import Lox.Proofs.Lines.Tree
import Lox.Token.Scan
/-!
# Scanning restarts at a line end

The scanner writes its line into what it finds and does nothing else with it. After a newline
outside a string it remembers nothing, so a text is scanned line by line: what follows such a
newline is scanned as if it stood alone, only further down (`Scan.ofBytes_newline`).
-/

namespace Lox

def ScanError.reline (g : Nat → Nat) (e : ScanError) : ScanError := { e with line := g e.line }

def Scanned.reline (g : Nat → Nat) : Scanned → Scanned
  | .token t => .token (t.reline g)
  | .error e => .error (e.reline g)

def Scanned.token? : Scanned → Option Token
  | .token t => some t
  | .error _ => none

def Scanned.error? : Scanned → Option ScanError
  | .error e => some e
  | .token _ => none

namespace Scan

variable {mode : Mode} {b : UInt8}

/-! ## Lines are only written down -/

section
variable (g : Nat → Nat) (line : Nat)

theorem number_reline (lexeme : Bytes) :
    number (g line) lexeme = (number line lexeme).map (Scanned.reline g) := by
  unfold number
  split <;> rfl

theorem complete_reline (mode : Mode) :
    complete (g line) mode = (complete line mode).map (Scanned.reline g) := by
  cases mode with
  | operator c =>
    simp only [complete]
    split <;> rfl
  | whole read => exact number_reline g line _
  | fraction read => exact number_reline g line _
  | point read =>
    simp only [complete, List.map_append, number_reline]
    rfl
  | _ => rfl

theorem enter_reline (b : UInt8) :
    enter (g line) b = ((enter line b).1, (enter line b).2.map (Scanned.reline g)) := by
  unfold enter
  repeat' split
  all_goals rfl

theorem extend_reline (mode : Mode) (b : UInt8) :
    extend (g line) mode b =
      (extend line mode b).map (Prod.map id (List.map (Scanned.reline g))) := by
  unfold extend
  repeat' split
  all_goals rfl

theorem feed_reline (mode : Mode) (b : UInt8) :
    feed (g line) mode b = ((feed line mode b).1, (feed line mode b).2.map (Scanned.reline g)) := by
  unfold feed
  rw [extend_reline]
  cases extend line mode b with
  | some result => rfl
  | none =>
    simp only [Option.map_none, enter_reline, complete_reline, List.map_append]

end

/-! ## A newline outside a string -/

/-- Whether a string is open. -/
def inText : Mode → Bool
  | .text _ => true
  | _ => false

theorem enter_newline (line : Nat) : enter line Bytes.newline = (.start, []) := rfl

theorem extend_newline {line : Nat} (h : inText mode = false) :
    extend line mode Bytes.newline = none := by
  cases mode with
  | text read => cases h
  | _ => rfl

theorem feed_newline {line : Nat} (h : inText mode = false) :
    feed line mode Bytes.newline = (.start, complete line mode) := by
  unfold feed
  rw [extend_newline h, enter_newline]
  simp

end Scan

namespace Scanner

/-- The scan further down in a text, after something else has been found. -/
def after (s : Scanner) (lines : Nat) (found : List Scanned) : Scanner :=
  ⟨s.mode, s.line + lines, s.found.map (Scanned.reline (· + lines)) ++ found⟩

variable {lines : Nat} {found : List Scanned}

theorem feed_after (s : Scanner) (b : UInt8) :
    (s.after lines found).feed b = (s.feed b).after lines found := by
  have hfeed := Scan.feed_reline (· + lines) s.line s.mode b
  have hline : Scan.lineAfter (s.line + lines) b = Scan.lineAfter s.line b + lines := by
    unfold Scan.lineAfter
    split
    · exact Nat.add_right_comm ..
    · rfl
  simp only [feed, after, hfeed, hline, List.map_append, List.map_reverse, List.append_assoc]

theorem feedAll_after (source : Bytes) (s : Scanner) :
    source.foldl feed (s.after lines found) = (source.foldl feed s).after lines found := by
  induction source generalizing s with
  | nil => rfl
  | cons b source ih => rw [List.foldl_cons, List.foldl_cons, feed_after, ih]

theorem finish_after (s : Scanner) :
    (s.after lines found).finish =
      found.reverse ++ s.finish.map (Scanned.reline (· + lines)) := by
  simp only [finish, after, Scan.complete_reline (· + lines), List.reverse_append,
    List.map_append, List.map_reverse, List.append_assoc]

/-- After a newline outside a string the scan begins again. -/
theorem feed_newline {s : Scanner} (h : Scan.inText s.mode = false) :
    s.feed Bytes.newline = start.after s.line s.finish.reverse := by
  unfold feed
  rw [Scan.feed_newline h]
  simp [after, start, finish, Scan.lineAfter, Nat.add_comm]

end Scanner

namespace Scan

/-- What a text brings forth when another one follows on the next line. -/
def followedBy (s next : Scan) : Scan where
  tokens := s.tokens ++ next.tokens.map (Token.reline (· + s.endLine))
  errors := s.errors ++ next.errors.map (ScanError.reline (· + s.endLine))
  endLine := next.endLine + s.endLine

/-- The mode in which a text ends. -/
def modeAfter (source : Bytes) : Mode := (source.foldl Scanner.feed .start).mode

theorem ofBytes_eq (source : Bytes) :
    let scanner := source.foldl Scanner.feed .start
    ofBytes source =
      ⟨scanner.finish.filterMap Scanned.token?, scanner.finish.filterMap Scanned.error?,
        scanner.line⟩ := rfl

theorem tokens_reline (g : Nat → Nat) (found : List Scanned) :
    (found.map (Scanned.reline g)).filterMap Scanned.token? =
      (found.filterMap Scanned.token?).map (Token.reline g) := by
  rw [List.filterMap_map, List.map_filterMap]
  congr
  funext x
  cases x <;> rfl

theorem errors_reline (g : Nat → Nat) (found : List Scanned) :
    (found.map (Scanned.reline g)).filterMap Scanned.error? =
      (found.filterMap Scanned.error?).map (ScanError.reline g) := by
  rw [List.filterMap_map, List.map_filterMap]
  congr
  funext x
  cases x <;> rfl

/-- **A text is scanned line by line**, but for newlines in strings. -/
theorem ofBytes_newline {a : Bytes} (h : inText (modeAfter a) = false) (b : Bytes) :
    ofBytes (a ++ Bytes.newline :: b) = (ofBytes a).followedBy (ofBytes b) := by
  have hfeed : (a ++ Bytes.newline :: b).foldl Scanner.feed .start =
      (b.foldl Scanner.feed .start).after (a.foldl Scanner.feed .start).line
        (a.foldl Scanner.feed .start).finish.reverse := by
    rw [List.foldl_append, List.foldl_cons, Scanner.feed_newline h, Scanner.feedAll_after]
  simp only [ofBytes_eq, hfeed, Scanner.finish_after, List.reverse_reverse,
    List.filterMap_append, tokens_reline, errors_reline]
  rfl

theorem open_text {a : Bytes} (h : inText (modeAfter a) = true) :
    ∃ line, ⟨line, .unterminatedString⟩ ∈ (ofBytes a).errors := by
  refine ⟨(a.foldl Scanner.feed .start).line, ?_⟩
  have hmode : inText (a.foldl Scanner.feed .start).mode = true := h
  simp only [ofBytes_eq, Scanner.finish, List.filterMap_append, List.mem_append]
  right
  cases hm : (a.foldl Scanner.feed .start).mode with
  | text read => exact List.mem_singleton_self _
  | _ => rw [hm] at hmode; cases hmode

/-- A text without complaints ends outside a string. -/
theorem closed_of_errors {a : Bytes} (h : (ofBytes a).errors = []) :
    inText (modeAfter a) = false := by
  rw [Bool.eq_false_iff]
  intro ht
  obtain ⟨line, hl⟩ := open_text ht
  rw [h] at hl
  cases hl

theorem line_eq (source : Bytes) (s : Scanner) :
    (source.foldl Scanner.feed s).line = s.line + source.count Bytes.newline := by
  induction source generalizing s with
  | nil => rfl
  | cons b source ih =>
    rw [List.foldl_cons, ih, List.count_cons]
    simp only [Scanner.feed, lineAfter]
    split <;> omega

/-- A text ends on the line after its last newline. -/
theorem endLine_eq (source : Bytes) :
    (ofBytes source).endLine = source.count Bytes.newline + 1 :=
  (line_eq source .start).trans (Nat.add_comm ..)

end Scan

end Lox
