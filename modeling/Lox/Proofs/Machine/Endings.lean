import Lox.Proofs.Machine.Restoring
/-!
# Pieces of a program that end

A statement or an expression that starts in some state ends with a result, in another state
(`Machine.Ends`); what waits for it does not matter (`Machine.ends_iff`), and there is one such end
at most (`Machine.Ends.unique`). A statement ends normally, by `return` or by an error, an
expression with a value or an error.
-/

namespace Lox.Machine

/-- A piece of a program that starts in the state `s` ends with a result, in the state `s'`. -/
def Ends (piece : Focus) (s : State) (result : Focus) (s' : State) : Prop :=
  ∃ n, (Machine.mk piece [] s).Completes n ∧ (Machine.mk piece [] s).run n = ⟨result, [], s'⟩

variable {piece r r' : Focus} {s s' s'' : State} {ts : List Task}

/-- Whether a piece ends does not depend on what waits for it. -/
theorem ends_iff : Ends piece s r s' ↔ ∃ n, (Machine.mk piece ts s).Completes n ∧
    (Machine.mk piece ts s).run n = ⟨r, ts, s'⟩ := by
  constructor
  · rintro ⟨n, hc, hrun⟩
    have hhalted : ((Machine.mk piece [] s).run n).halted = true :=
      halted_iff.2 ⟨hc.result, hc.tasks⟩
    have hc' : (Machine.mk piece ts s).Completes n :=
      completes_of_first (m := ⟨piece, ts, s⟩) hc.opens hhalted fun k hk => hc.busy hk
    refine ⟨n, hc', hc'.alone.2.trans ?_⟩
    show ((Machine.mk piece [] s).run n).above ts = _
    rw [hrun]
    rfl
  · rintro ⟨n, hc, hrun⟩
    obtain ⟨hhalted, habove⟩ := hc.alone
    have hc' : (Machine.mk piece [] s).Completes n :=
      completes_of_first (m := ⟨piece, [], s⟩) hc.opens hhalted fun k hk => hc.busy hk
    refine ⟨n, hc', ?_⟩
    have htasks : ((Machine.mk piece [] s).run n).tasks = [] := hc'.tasks
    rw [habove] at hrun
    generalize hm : (Machine.mk piece ts s).alone.run n = m at hrun
    have hm' : (Machine.mk piece [] s).run n = m := hm
    rw [hm'] at htasks ⊢
    obtain ⟨focus, tasks, state⟩ := m
    cases htasks
    cases hrun
    rfl

/-- What is done has ended. -/
theorem Completes.ends {m : Machine} {n : Nat} (h : m.Completes n) :
    Ends m.focus m.state (m.run n).focus (m.run n).state :=
  ends_iff.2 ⟨n, h, congrArg (Machine.mk _ · _) h.tasks⟩

theorem Completes.pos {m : Machine} {n : Nat} (h : m.Completes n) : 0 < n := by
  rcases Nat.eq_zero_or_pos n with rfl | hn
  · have hresult : m.hasResult = true := h.result
    rw [h.opens] at hresult
    cases hresult
  · exact hn

/-- Every piece of a run that comes to its end ends. -/
theorem exists_ends {n : Nat} (ho : (Machine.mk piece ts s).hasResult = false)
    (h : ((Machine.mk piece ts s).run n).halted = true) : ∃ r s', Ends piece s r s' := by
  obtain ⟨k, hk⟩ := completes_of_halted ho h
  have htasks : ((Machine.mk piece ts s).run k).tasks = ts := hk.tasks
  generalize hm : (Machine.mk piece ts s).run k = m at htasks
  obtain ⟨r, _, s'⟩ := m
  cases htasks
  exact ⟨r, s', ends_iff.2 ⟨k, hk, hm⟩⟩

/-- From any moment of a run that comes to its end, that end is reached. -/
theorem run_rest {m : Machine} {n : Nat} (h : (m.run n).halted = true) (j : Nat) :
    (m.run j).run (n - j) = m.run n := by
  rcases Nat.le_total j n with hj | hj
  · rw [← run_add, Nat.add_sub_cancel' hj]
  · obtain ⟨d, rfl⟩ := Nat.exists_eq_add_of_le hj
    rw [Nat.sub_eq_zero_of_le hj, run_add, run_of_halted h]
    rfl

theorem Ends.runs (h : Ends piece s r s') (ts : List Task) :
    ∃ n, 0 < n ∧ (Machine.mk piece ts s).run n = ⟨r, ts, s'⟩ := by
  obtain ⟨n, hc, hrun⟩ := ends_iff.1 h
  exact ⟨n, hc.pos, hrun⟩

theorem Ends.place (h : Ends piece s r s') : s'.place = s.place := by
  obtain ⟨n, hc, hrun⟩ := h
  have hplace := hc.restores.1
  rw [hrun] at hplace
  exact hplace

theorem Ends.env (h : Ends piece s r s') : s'.env = s.env := congrArg Place.env h.place

theorem Ends.hasResult (h : Ends piece s r s') :
    (Machine.mk piece [] s).hasResult = false ∧ (Machine.mk r [] s').hasResult = true := by
  obtain ⟨n, hc, hrun⟩ := h
  exact ⟨hc.opens, hrun ▸ hc.result⟩

theorem Ends.halted (h : Ends piece s r s') : (Machine.mk r [] s').halted = true :=
  halted_iff.2 ⟨h.hasResult.2, rfl⟩

/-- A machine comes to another one. -/
def Reaches (m m' : Machine) : Prop := ∃ j, m.run j = m'

theorem Reaches.trans {m₁ m₂ m₃ : Machine} : m₁.Reaches m₂ → m₂.Reaches m₃ → m₁.Reaches m₃
  | ⟨i, hi⟩, ⟨j, hj⟩ => ⟨i + j, by rw [run_add, hi, hj]⟩

/-- A machine comes to one end only. -/
theorem Reaches.unique {m m₁ m₂ : Machine} (h₁ : m.Reaches m₁) (h₂ : m.Reaches m₂)
    (hm₁ : m₁.halted = true) (hm₂ : m₂.halted = true) : m₁ = m₂ := by
  obtain ⟨i, rfl⟩ := h₁
  obtain ⟨j, rfl⟩ := h₂
  calc m.run i = (m.run i).run j := (run_of_halted hm₁ j).symm
    _ = (m.run j).run i := by rw [← run_add, Nat.add_comm, run_add]
    _ = m.run j := run_of_halted hm₂ i

theorem Ends.reaches (h : Ends piece s r s') (ts : List Task) :
    (Machine.mk piece ts s).Reaches ⟨r, ts, s'⟩ := by
  obtain ⟨n, -, hrun⟩ := h.runs ts
  exact ⟨n, hrun⟩

/-- From wherever a piece comes to, it comes to its end. -/
theorem Ends.reaches_from {m : Machine} (h : Ends piece s r s')
    (hm : (Machine.mk piece [] s).Reaches m) : m.Reaches ⟨r, [], s'⟩ := by
  obtain ⟨j, rfl⟩ := hm
  obtain ⟨n, hrun⟩ := h.reaches []
  exact ⟨n - j, (run_rest (hrun ▸ h.halted) j).trans hrun⟩

theorem Ends.unique (h : Ends piece s r s') (h' : Ends piece s r' s'') : r = r' ∧ s' = s'' := by
  have heq := (h.reaches []).unique (h'.reaches []) h.halted h'.halted
  cases heq
  exact ⟨rfl, rfl⟩

/-- A piece that comes to its end has ended there. -/
theorem Ends.of_reaches (ho : (Machine.mk piece [] s).hasResult = false)
    (h : (Machine.mk piece [] s).Reaches ⟨r, [], s'⟩)
    (hr : (Machine.mk r [] s').halted = true) : Ends piece s r s' := by
  obtain ⟨n, hn⟩ := h
  obtain ⟨r₁, s₁, hends⟩ := exists_ends ho (hn ▸ hr)
  have heq := (hends.reaches []).unique ⟨n, hn⟩ hends.halted hr
  cases heq
  exact hends

/-- A way out that is not the end of a statement: a `return` or an error. -/
def Exits (r : Focus) : Prop := (∃ v, r = .returned v) ∨ ∃ e, r = .raised e

theorem Exits.reaches {ts' : List Task} (hr : Exits r) (j : Nat)
    (hreturn : ∀ v, (Machine.mk (.returned v) ts s).run j = ⟨.returned v, ts', s'⟩)
    (herror : ∀ e, (Machine.mk (.raised e) ts s).run j = ⟨.raised e, ts', s'⟩) :
    (Machine.mk r ts s).Reaches ⟨r, ts', s'⟩ := by
  rcases hr with ⟨v, rfl⟩ | ⟨e, rfl⟩
  · exact ⟨j, hreturn v⟩
  · exact ⟨j, herror e⟩

/-- What comes of a piece fits the task that waits for it. -/
theorem Ends.linked (h : Ends piece s r s') (task : Task)
    (hl : Linked ⟨piece, [task], s⟩) (he : Task.exits [task] = []) :
    Linked ⟨r, [task], s'⟩ := by
  obtain ⟨n, -, hrun⟩ := h.runs [task]
  rw [← hrun]
  exact ((Returns.start hl he).run n).linked

theorem Ends.of_stmt {stmt : Stmt} (h : Ends (.exec stmt) s r s') : r = .done ∨ Exits r := by
  have hl := h.linked (.sequence []) (linked_exec ⟨rfl, trivial⟩) rfl
  have hresult := h.hasResult.2
  cases r with
  | done => exact .inl rfl
  | returned v => exact .inr (.inl ⟨v, rfl⟩)
  | raised e => exact .inr (.inr ⟨e, rfl⟩)
  | value v => cases (hl _ rfl).1
  | _ => cases hresult

theorem Ends.of_expr {e : Expr} (h : Ends (.eval e) s r s') :
    (∃ v, r = .value v) ∨ ∃ err, r = .raised err := by
  have hl := h.linked .discard (linked_eval ⟨rfl, trivial⟩) rfl
  have hresult := h.hasResult.2
  cases r with
  | value v => exact .inl ⟨v, rfl⟩
  | raised err => exact .inr ⟨err, rfl⟩
  | done => cases (hl _ rfl).1
  | returned v => cases (hl _ rfl).1
  | _ => cases hresult

end Lox.Machine
