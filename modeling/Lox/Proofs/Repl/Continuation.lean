import Lox.Proofs.Lines.Scan
import Lox.Proofs.Parse.Beginnings
/-!
# Typing a program line by line

A program that is typed line by line is never refused before it is finished: what has been typed
of it is at every line end either a program itself or found to be unfinished
(`Completeness.ofSource_beginning`). A line end may stand inside a string; then the string is
open. Otherwise the tokens up to there begin the tokens of the program.
-/

namespace Lox.Completeness

/-- The source is scanned and parsed without errors. -/
structure Accepted (source : Bytes) : Prop where
  scan : (Scan.ofBytes source).errors = []
  parse : (Program.ofTokens (Scan.ofBytes source).tokens (Scan.ofBytes source).endLine).errors = []

variable {a b : Bytes}

theorem judge_open {scanErrors : List ScanError} {line : Nat}
    (h : ⟨line, .unterminatedString⟩ ∈ scanErrors) (syntaxErrors : List SyntaxError) :
    judge scanErrors syntaxErrors = .incomplete := by
  have hany : scanErrors.any (·.fault == .unterminatedString) = true :=
    List.any_eq_true.2 ⟨_, h, rfl⟩
  unfold judge
  rw [hany]
  rfl

/-- Nothing is wrong with a source but its end. -/
theorem judge_onlyEnded {errors : List SyntaxError} (h : onlyEnded errors = true) :
    judge [] errors = .complete ∨ judge [] errors = .incomplete := by
  cases errors with
  | nil => exact .inl rfl
  | cons e errors =>
    have he : isUnfinished e = true := h
    exact .inr (by simp [judge, he])

/-- Outside of strings it is enough that nothing is wrong but the end. -/
theorem ofSource_of_ended (h : Scan.inText (Scan.modeAfter a) = false →
    (Scan.ofBytes a).errors = [] ∧
      onlyEnded (Program.ofTokens (Scan.ofBytes a).tokens (Scan.ofBytes a).endLine).errors = true) :
    ofSource a = .complete ∨ ofSource a = .incomplete := by
  cases ha : Scan.inText (Scan.modeAfter a) with
  | true =>
    obtain ⟨line, hopen⟩ := Scan.open_text ha
    exact .inr (judge_open hopen _)
  | false =>
    obtain ⟨hscan, hended⟩ := h ha
    rw [ofSource, hscan]
    exact judge_onlyEnded hended

/-- What the tokens before a line end are part of. -/
theorem Accepted.begins (h : Accepted (a ++ Bytes.newline :: b))
    (ha : Scan.inText (Scan.modeAfter a) = false) :
    (Scan.ofBytes a).errors = [] ∧
      ∃ ss ts, Grammar.Program ss ts ∧ (Scan.ofBytes a).tokens <+: ts := by
  obtain ⟨hscan, hparse⟩ := h
  rw [Scan.ofBytes_newline ha] at hscan hparse
  exact ⟨(List.append_eq_nil_iff.1 hscan).1, _, _, Program.grammatical_of_accepted hparse,
    List.prefix_append _ _⟩

/-- **A program is never refused while it is typed.** -/
theorem ofSource_beginning (a b : Bytes) (h : Accepted (a ++ Bytes.newline :: b)) :
    ofSource a = .complete ∨ ofSource a = .incomplete := by
  refine ofSource_of_ended fun ha => ?_
  obtain ⟨hscan, ss, ts, hprogram, hbegins⟩ := h.begins ha
  exact ⟨hscan, Program.ofTokens_begins hprogram hbegins (Scan.ofBytes a).endLine⟩

/-- A program up to a line end inside a string, which stands in a loop in a class. -/
def halfTyped : Bytes := utf8 "class Box < Base \x7b
  fill(item,
       times) \x7b
    for (var i = 0; i < times;
         i = i + 1) print \"put"

/-- The rest of the program. -/
def restTyped : Bytes := utf8 " it in\";
  \x7d
\x7d"

theorem ofSource_beginning_box :
    Accepted (halfTyped ++ Bytes.newline :: restTyped) ∧ ofSource halfTyped = .incomplete := by
  have h : Accepted (halfTyped ++ Bytes.newline :: restTyped) :=
    ⟨by decide +kernel, by decide +kernel⟩
  have hopen : ofSource halfTyped ≠ .complete := by decide +kernel
  exact ⟨h, (ofSource_beginning _ _ h).resolve_left hopen⟩

end Lox.Completeness
