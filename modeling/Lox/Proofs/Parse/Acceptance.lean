import Lox.Proofs.Parse.Completeness
import Lox.Proofs.Parse.Progress
/-!
# The parser accepts exactly the grammar

Main theorem: `accepts_iff_grammatical`. A program is parsed without errors into some statements
exactly when its tokens derive those statements, all of them and each once. Every sequence of
tokens is parsed to its end, so a program is never accepted because the parser gave up on it.
-/

namespace Lox.Program

variable {tokens : List Token} {endLine : Nat} {statements : List Stmt}

theorem grammatical_of_accepted (h : (ofTokens tokens endLine).errors = []) :
    Grammar.Program (ofTokens tokens endLine).statements tokens := by
  have hends := ofTokens_ends tokens endLine
  have hclean := Parser.program_clean (fuelFor tokens.length) (start tokens endLine)
  unfold ofTokens at h ⊢
  cases hr : Parser.program (fuelFor tokens.length) (start tokens endLine) with
  | ok ss c =>
    rw [hr] at h
    exact Parser.program_sound _ _ _ _ hr (by simpa using h) rfl
  | failed c =>
    rw [hr] at h hclean
    exact absurd (by simpa using h) hclean.2
  | exhausted => exact absurd hr hends

/-- A grammatical program is accepted, and what stands behind it is parsed as if it stood alone. -/
theorem accepted_then (h : Grammar.Program statements tokens) {rest : List Token}
    (hrest : Parser.NoElse rest) :
    ofTokens (tokens ++ rest) endLine =
      ⟨statements ++ (ofTokens rest endLine).statements, (ofTokens rest endLine).errors⟩ := by
  have hends := ofTokens_ends (tokens ++ rest) endLine
  rw [ofTokens]
  rcases Parser.program_delivers statements h hrest (fuelFor (tokens ++ rest).length)
    (start (tokens ++ rest) endLine) ⟨rfl, rfl, rfl⟩ with hr | ⟨c, hr, he⟩
  · exact absurd hr hends
  · rw [hr]
    simp only [he, List.reverse_reverse]
    rfl

theorem accepted_of_grammatical (h : Grammar.Program statements tokens) :
    ofTokens tokens endLine = ⟨statements, []⟩ := by
  have hnil : ofTokens [] endLine = ⟨[], []⟩ := rfl
  have hthen : ofTokens (tokens ++ []) endLine = _ := accepted_then h fun t ht => by cases ht
  simpa [hnil] using hthen

/-- **The parser accepts exactly the grammar.** -/
theorem accepts_iff_grammatical (tokens : List Token) (endLine : Nat) (statements : List Stmt) :
    ((ofTokens tokens endLine).errors = [] ∧ (ofTokens tokens endLine).statements = statements) ↔
      Grammar.Program statements tokens := by
  constructor
  · rintro ⟨he, rfl⟩
    exact grammatical_of_accepted he
  · intro h
    rw [accepted_of_grammatical h]
    exact ⟨rfl, rfl⟩

end Lox.Program
