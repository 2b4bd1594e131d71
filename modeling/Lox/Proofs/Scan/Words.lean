import Lox.Token.Scan
/-!
# Words keep their kind

A token that is spelled as a word has the kind of that word. So no identifier is spelled `this` or
`super`, and the keyword `this` is spelled that way.
-/

namespace Lox

/-- The kinds of token that are spelled as words. -/
def Kind.isWord : Kind → Bool
  | .ident | .kwAnd | .kwClass | .kwElse | .kwFalse | .kwFor | .kwFun | .kwIf | .kwNil | .kwOr
  | .kwPrint | .kwReturn | .kwSuper | .kwThis | .kwTrue | .kwVar | .kwWhile => true
  | _ => false

/-- A word that the token's kind belongs to. -/
def Token.Faithful (t : Token) : Prop := t.kind.isWord = true → Kind.ofWord t.lexeme = t.kind

namespace Scan

variable {line : Nat} {mode : Mode} {b : UInt8} {t : Token}

theorem punctuation_not_word {kind : Kind} (h : punctuation? b = some kind) :
    kind.isWord = false := by
  unfold punctuation? at h
  split at h <;> cases h <;> rfl

theorem operator_not_word {single double : Kind} (h : operator? b = some (single, double)) :
    single.isWord = false ∧ double.isWord = false := by
  unfold operator? at h
  split at h <;> cases h <;> exact ⟨rfl, rfl⟩

theorem number_faithful {lexeme : Bytes} (h : .token t ∈ number line lexeme) : t.Faithful := by
  have : t.kind = .number := by
    unfold number at h
    split at h
    · simp only [List.mem_cons, Scanned.token.injEq, reduceCtorEq, List.not_mem_nil, or_false,
        false_or] at h
      rw [h]
    · simp only [List.mem_cons, Scanned.token.injEq, List.not_mem_nil, or_false] at h
      rw [h]
  intro hw
  rw [this] at hw
  cases hw

theorem complete_faithful (h : .token t ∈ complete line mode) : t.Faithful := by
  intro hw
  cases mode with
  | start => simp [complete] at h
  | comment => simp [complete] at h
  | slash =>
    simp only [complete, List.mem_cons, Scanned.token.injEq, List.not_mem_nil, or_false] at h
    subst h
    cases hw
  | operator c =>
    simp only [complete] at h
    split at h
    · rename_i single double ho
      simp only [List.mem_cons, Scanned.token.injEq, List.not_mem_nil, or_false] at h
      subst h
      have : single.isWord = true := hw
      rw [(operator_not_word ho).1] at this
      cases this
    · simp at h
  | word read =>
    simp only [complete, List.mem_cons, Scanned.token.injEq, List.not_mem_nil, or_false] at h
    subst h
    rfl
  | whole read => exact number_faithful h hw
  | point read =>
    simp only [complete, List.mem_append, List.mem_cons, Scanned.token.injEq, List.not_mem_nil,
      or_false] at h
    rcases h with h | rfl
    · exact number_faithful h hw
    · cases hw
  | fraction read => exact number_faithful h hw
  | text read => simp [complete] at h

theorem enter_faithful (h : .token t ∈ (enter line b).2) : t.Faithful := by
  intro hw
  unfold enter at h
  repeat' split at h
  all_goals try (simp at h; done)
  rename_i kind hk
  simp only [List.mem_cons, Scanned.token.injEq, List.not_mem_nil, or_false] at h
  subst h
  have : kind.isWord = true := hw
  rw [punctuation_not_word hk] at this
  cases this

theorem extend_faithful (next : Mode) {found : List Scanned}
    (h : extend line mode b = some (next, found)) (ht : .token t ∈ found) : t.Faithful := by
  intro hw
  unfold extend at h
  repeat' split at h
  all_goals cases h
  all_goals try (simp at ht; done)
  · rename_i single double ho
    simp only [List.mem_cons, Scanned.token.injEq, List.not_mem_nil, or_false] at ht
    subst ht
    have : double.isWord = true := hw
    rw [(operator_not_word ho).2] at this
    cases this
  · simp only [List.mem_cons, Scanned.token.injEq, List.not_mem_nil, or_false] at ht
    subst ht
    cases hw

theorem feed_faithful (h : .token t ∈ (feed line mode b).2) : t.Faithful := by
  unfold feed at h
  split at h
  · rename_i result hr
    exact extend_faithful result.1 hr h
  · simp only [List.mem_append] at h
    exact h.elim complete_faithful enter_faithful

theorem scanner_faithful : ∀ (source : Bytes) (s : Scanner),
    (∀ t, .token t ∈ s.found → t.Faithful) →
    ∀ t, .token t ∈ (source.foldl Scanner.feed s).found → t.Faithful
  | [], _, hs, t, ht => hs t ht
  | b :: source, s, hs, t, ht => by
    refine scanner_faithful source (s.feed b) (fun u hu => ?_) t ht
    simp only [Scanner.feed, List.mem_append, List.mem_reverse] at hu
    exact hu.elim feed_faithful (hs u)

/-- Every token of a source that is spelled as a word has the kind of that word. -/
theorem ofBytes_faithful (source : Bytes) : ∀ t ∈ (ofBytes source).tokens, t.Faithful := by
  intro t ht
  obtain ⟨found, hf, heq⟩ := List.mem_filterMap.1 ht
  cases found with
  | error e => cases heq
  | token u =>
    cases heq
    unfold Scanner.finish at hf
    rw [List.mem_append, List.mem_reverse] at hf
    exact hf.elim (scanner_faithful source .start (by simp [Scanner.start]) t) complete_faithful

end Scan

namespace Token.Faithful

variable {t : Token}

theorem ident_ne {word : Bytes} (h : t.Faithful) (hk : t.kind = .ident)
    (hw : Kind.ofWord word ≠ .ident) : t.lexeme ≠ word := by
  intro hl
  have hof := h (by rw [hk]; rfl)
  rw [hl, hk] at hof
  exact hw hof

theorem this_lexeme (h : t.Faithful) (hk : t.kind = .kwThis) : t.lexeme = utf8 "this" := by
  have hw := h (by rw [hk]; rfl)
  rw [hk] at hw
  unfold Kind.ofWord at hw
  split at hw
  · rename_i text kind hfind
    have hmem := List.mem_of_find?_eq_some hfind
    have hlex := List.find?_some hfind
    subst hw
    have : text = "this" := by
      simp [Kind.keywords] at hmem
      exact hmem
    subst this
    exact (eq_of_beq hlex).symm
  · cases hw

end Token.Faithful

end Lox
