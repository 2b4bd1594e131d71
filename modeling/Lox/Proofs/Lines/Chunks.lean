import Lox.Proofs.Lines.Machine
import Lox.Proofs.Lines.Resolver
import Lox.Proofs.Lines.Scan
import Lox.Proofs.Machine.Restoring
/-!
# A source in two pieces

A source that is given to a session in two pieces, cut at a line end between two statements, does
what it does as a whole (`Session.run_in_pieces`). Only the lines of what stands in the second piece
are counted from another start. To say on which side of the cut a failing token stands, tokens are
marked: a run is repeated with the piece's own tokens on odd lines and those of all functions and
classes from before on even ones, and as the machine does not look at lines, that run is the same.
-/

namespace Lox

/-! ## Accepted sources -/

/-- A source is accepted if its tokens scan, derive some statements, and these resolve, each
without a complaint. At its end no scope is open. -/
theorem analyse_ok_iff {source : Bytes} {program : List Stmt} :
    analyse source = .ok program ↔
      (Scan.ofBytes source).errors = [] ∧
        ∃ tree, Grammar.Program tree (Scan.ofBytes source).tokens ∧
          Resolver.statements .none .none tree ⟨[], []⟩ = (program, ⟨[], []⟩) := by
  constructor
  · intro h
    obtain ⟨⟨hproper, hclean⟩, hprogram⟩ := analyse_ok h
    have hscopes := Resolver.statements_scopes .none .none _ hproper ⟨[], []⟩
    rw [Resolver.afterStmts_nil] at hscopes
    unfold analyse at h
    simp only at h
    split at h
    · rename_i hnone
      obtain ⟨hscan, hparse⟩ := List.append_eq_nil_iff.1 hnone
      refine ⟨List.map_eq_nil_iff.1 hscan, sourceTree source, ?_, ?_⟩
      · exact Program.grammatical_of_accepted (List.map_eq_nil_iff.1 hparse)
      · refine Prod.ext hprogram.symm ?_
        generalize Resolver.statements .none .none (sourceTree source) ⟨[], []⟩ = r at *
        obtain ⟨_, scopes, errors⟩ := r
        simp only at hscopes hclean
        rw [hscopes, hclean]
    · cases h
  · rintro ⟨hscan, tree, htree, hresolve⟩
    simp only [analyse, hscan, Program.accepted_of_grammatical htree, Resolution.ofStatements,
      hresolve]
    rfl

/-- **Two sources that are accepted are accepted one after the other**, and resolved apart. -/
theorem analyse_newline {a b : Bytes} {p q : List Stmt} (ha : analyse a = .ok p)
    (hb : analyse b = .ok q) :
    analyse (a ++ Bytes.newline :: b) =
      .ok (p ++ Stmt.relineAll (· + (a.count Bytes.newline + 1)) q) := by
  obtain ⟨hscan, tree, htree, hresolve⟩ := analyse_ok_iff.1 ha
  obtain ⟨hscan', tree', htree', hresolve'⟩ := analyse_ok_iff.1 hb
  have hcut := Scan.ofBytes_newline (Scan.closed_of_errors hscan) b
  have hline := Scan.endLine_eq a
  have hmoved := Resolver.moved_statements (g := (· + (a.count Bytes.newline + 1)))
    .none .none tree' ⟨[], []⟩
  refine analyse_ok_iff.2 ⟨?_, tree ++ Stmt.relineAll (· + (a.count Bytes.newline + 1)) tree',
    ?_, ?_⟩
  · rw [hcut]
    simp [Scan.followedBy, hscan, hscan']
  · rw [hcut, Scan.followedBy, hline, Stmt.relineAll_eq]
    exact htree.append htree'.reline
  · rw [Resolver.statements_append, hresolve]
    rw [hresolve'] at hmoved
    rw [show Resolver.statements .none .none (Stmt.relineAll _ tree') ⟨[], []⟩ = _ from hmoved]
    rfl

/-! ## One program after another -/

namespace Machine

/-- What follows at the top level has no part in a program that ends without an error: with more
statements after it, the program comes to the point where those start, in the same state. -/
theorem run_to_end {q : List Stmt} (n : Nat) (piece : Machine) {rest : List Stmt}
    (hl : (piece.above [.program rest]).Linked)
    (h : ((piece.above [.program rest]).run n).ending.1 = .finished) :
    ∃ k ≤ n, (piece.above [.program (rest ++ q)]).run k =
      start q ((piece.above [.program rest]).run n).state := by
  -- the two stacks differ in the outermost task, which is looked at between two statements only
  induction n generalizing piece rest with
  | zero =>
    obtain ⟨focus, tasks, s⟩ := piece
    cases focus <;> cases tasks <;> cases h
  | succ n ih =>
    have more : ∀ (next : Machine) (rest' : List Stmt),
        (piece.above [.program rest]).step = next.above [.program rest'] →
        (piece.above [.program (rest ++ q)]).step = next.above [.program (rest' ++ q)] →
        (piece.above [.program rest]).halted = false →
        (piece.above [.program (rest ++ q)]).halted = false →
        ∃ k ≤ n + 1, (piece.above [.program (rest ++ q)]).run k =
          start q ((piece.above [.program rest]).run (n + 1)).state := by
      intro next rest' hstep hstep' hbusy hbusy'
      have hnext : (next.above [.program rest']).Linked := hstep ▸ hl.moves.linked
      rw [run_succ hbusy, hstep] at h ⊢
      obtain ⟨k, hk, hrun⟩ := ih next hnext h
      exact ⟨k + 1, Nat.succ_le_succ hk, by rw [run_succ hbusy', hstep', hrun]⟩
    cases hpiece : piece.halted with
    | false =>
      exact more _ rest (step_above _ hpiece) (step_above _ hpiece) (halted_above _ hpiece)
        (halted_above _ hpiece)
    | true =>
      obtain ⟨focus, tasks, s⟩ := piece
      obtain ⟨hresult, rfl⟩ := halted_iff.1 hpiece
      cases focus with
      | eval e => cases hresult
      | exec stmt => cases hresult
      | value v => cases (hl .value rfl).1
      | returned v => exact more ⟨.done, [], s⟩ rest rfl rfl rfl rfl
      | raised e =>
        rw [run_succ rfl, run_of_halted rfl] at h
        cases h
      | done =>
        cases rest with
        | nil =>
          have hend : ((above ⟨.done, [], s⟩ [.program []]).run (n + 1)).state = s := by
            rw [run_succ rfl, run_of_halted rfl]
            rfl
          exact ⟨0, Nat.zero_le _, by rw [hend]; rfl⟩
        | cons stmt rest => exact more ⟨.exec stmt, [], s⟩ rest rfl rfl rfl rfl

theorem run_start_append {p q : List Stmt} {s : State} {n : Nat}
    (h : ((start p s).run n).ending.1 = .finished) :
    ∃ k ≤ n, (start (p ++ q) s).run k = start q ((start p s).run n).state :=
  run_to_end n ⟨.done, [], s⟩ (linked_done ⟨rfl, trivial⟩) h

end Machine

/-! ## Own tokens and others -/

deriving instance DecidableEq for Outcome

/-- The line that a runtime error is blamed on. -/
def Outcome.line? : Outcome → Option Nat
  | .failed e => some e.line
  | _ => none

/-- Marked tokens, when those on odd lines go `k` lines down. -/
theorem Outcome.reline_marked (k : Nat) (outcome : Outcome) :
    outcome.reline (fun line => line / 2 + line % 2 * k) =
      (outcome.reline (· / 2)).reline
        (· + if outcome.line?.any (· % 2 == 1) then k else 0) := by
  cases outcome with
  | failed e =>
    have hline : e.line / 2 + e.line % 2 * k =
        e.line / 2 + if e.line % 2 == 1 then k else 0 := by
      rcases Nat.mod_two_eq_zero_or_one e.line with h | h <;> simp [h]
    exact congrArg (fun line => Outcome.failed ⟨{ e.token with line }, e.fault⟩) hline
  | _ => rfl

namespace Session

variable {session : Session} {program : List Stmt} {n : Nat}

/-- The machine on which a session runs a program, with the tokens of the program on odd lines and
all those that the session has brought along on even ones. -/
def markedMachine (session : Session) (program : List Stmt) : Machine :=
  Machine.start (Stmt.relineAll (2 * · + 1) program)
    ({ session.state with output := #[], trace := #[] }.recast (.toLines (2 * ·)))

/-- The marks are taken off: own tokens go to one place and all others back to where they were. -/
theorem markedMachine_recast (session : Session) (program : List Stmt) (ρ : Recast) (g : Nat → Nat)
    (hown : ∀ line, ρ.lines (2 * line + 1) = g line) (hold : ∀ line, ρ.lines (2 * line) = line) :
    (session.markedMachine program).recast ρ =
      Machine.start (Stmt.relineAll g program)
        { session.state with output := ρ.output, trace := ρ.trace } := by
  have hown : ρ.lines ∘ (2 * · + 1) = g := funext hown
  have hold : ρ.lines ∘ (2 * ·) = id := funext hold
  have hstate := State.recast_recast ρ { session.state with output := #[], trace := #[] }
    (.toLines (2 * ·))
  have hstmts := Stmt.relineAll_relineAll ρ.lines (2 * · + 1) program
  rw [hown] at hstmts
  rw [show ρ.lines ∘ (Recast.toLines (2 * ·)).lines = id from hold] at hstate
  unfold markedMachine Machine.start Machine.recast
  simp only [hstate, List.map_cons, List.map_nil, Task.reline, hstmts]
  simp only [State.recast, Frames.reline_id, Recast.toLines, Array.append_empty]
  rfl

/-- Without the marks it is the session's own run. -/
theorem run_markedMachine (n : Nat) :
    ((session.markedMachine program).run n).recast (.toLines (· / 2)) =
      (session.machine program).run n := by
  have h := markedMachine_recast session program (.toLines (· / 2)) id
    (fun line => by show (2 * line + 1) / 2 = line; omega)
    (fun line => by show 2 * line / 2 = line; omega)
  rw [Stmt.relineAll_id] at h
  rw [← Machine.run_recast, h]
  rfl

/-- With the source's own tokens `k` lines down, it is the run of statements that go on from
where the session stands. -/
theorem run_markedMachine_down (k n : Nat) :
    ((session.markedMachine program).run n).recast
        ⟨fun line => line / 2 + line % 2 * k, session.state.output, session.state.trace⟩ =
      (Machine.start (Stmt.relineAll (· + k) program) session.state).run n := by
  rw [← Machine.run_recast, markedMachine_recast session program _ (· + k)]
  · intro line
    show (2 * line + 1) / 2 + (2 * line + 1) % 2 * k = line + k
    rw [show (2 * line + 1) / 2 = line by omega, show (2 * line + 1) % 2 = 1 by omega, Nat.one_mul]
  · intro line
    show 2 * line / 2 + 2 * line % 2 * k = line
    rw [show 2 * line / 2 = line by omega, show 2 * line % 2 = 0 by omega, Nat.zero_mul]
    rfl

/-- A program that goes on after one that ended without an error. -/
theorem run_append {p q : List Stmt} {next : Session} {n₁ : Nat}
    (hend : ((session.machine p).run n₁).ending.1 = .finished)
    (hnext : next.state = ((session.machine p).run n₁).state) (lines : Nat) :
    ∃ k ≤ n₁, ∀ n₂,
      (session.machine (p ++ Stmt.relineAll (· + lines) q)).run (k + n₂) =
        ((next.markedMachine q).run n₂).recast
          ⟨fun line => line / 2 + line % 2 * lines, next.state.output, next.state.trace⟩ := by
  obtain ⟨k, hk, hrun⟩ := Machine.run_start_append (q := Stmt.relineAll (· + lines) q) hend
  refine ⟨k, hk, fun n₂ => ?_⟩
  rw [run_markedMachine_down, hnext, Machine.run_add]
  exact congrArg (Machine.run n₂) hrun

/-- Whether the token that makes a source fail is one of its own. -/
def failsInside (fuel : Nat) (source : Bytes) (session : Session) : Bool :=
  match analyse source with
  | .error _ => false
  | .ok program => ((session.markedMachine program).run fuel).ending.1.line?.any (· % 2 == 1)

/-- The global variables with their kinds and texts. -/
def shown (session : Session) : List (Bytes × ValueKind × Bytes) :=
  session.state.globals.map fun p => (p.1, p.2.kind, p.2.inspect)

theorem shown_of_recast {session' : Session} {s : State} {ρ ρ' : Recast}
    (h : session.state = s.recast ρ) (h' : session'.state = s.recast ρ') :
    session.shown = session'.shown := by
  simp only [shown, h, h', State.globals_recast, Bindings.mapValues, List.map_map,
    Function.comp_def, Value.kind_reline, Value.inspect_reline]

/-- What a source reports and leaves behind, in terms of the machine. -/
theorem run_parts (session : Session) {source : Bytes} (ha : analyse source = .ok program)
    (fuel : Nat) :
    (session.run fuel source).1.outcome = ((session.machine program).run fuel).ending.1 ∧
      (session.run fuel source).1.output =
        ((session.machine program).run fuel).state.output.toList ∧
      (session.run fuel source).1.trace =
        ((session.machine program).run fuel).state.trace.toList ∧
      (session.run fuel source).2.state = ((session.machine program).run fuel).state := by
  rw [run_eq_runOn]
  simp only [runOn, ha, Machine.ending_state]
  exact ⟨trivial, trivial, trivial, trivial⟩

/-- **Cutting a source in two does not change it.** If the first piece ends without an error and
the second one is accepted, then the whole is accepted too. It prints and logs what the first
piece does and then what the second one does after it, it ends in the same way, and it leaves the
same global variables. The line of a runtime error is counted from the start of the whole when the
failing token stands in the second piece, and is the same when it stands in anything before. -/
theorem run_in_pieces {session : Session} {n₁ : Nat} {a b : Bytes}
    (ha : (session.run n₁ a).1.outcome = .finished) (hb : (analyse b).toBool = true) :
    (analyse (a ++ Bytes.newline :: b)).toBool = true ∧
      ∃ k ≤ n₁, ∀ n₂,
        let first := session.run n₁ a
        let second := first.2.run n₂ b
        let whole := session.run (k + n₂) (a ++ Bytes.newline :: b)
        whole.1.output = first.1.output ++ second.1.output ∧
          whole.1.trace = first.1.trace ++ second.1.trace ∧
          whole.1.outcome = second.1.outcome.reline
            (· + if first.2.failsInside n₂ b then a.count Bytes.newline + 1 else 0) ∧
          whole.2.shown = second.2.shown := by
  obtain ⟨q, hq⟩ := analyse_of_toBool hb
  cases hp : analyse a with
  | error problems =>
    simp only [Session.run, hp] at ha
    cases ha
  | ok p =>
    have hwhole := analyse_newline hp hq
    obtain ⟨hend, hout, htrace, hstate⟩ := run_parts session hp n₁
    rw [hend] at ha
    obtain ⟨k, hk, hrun⟩ := run_append ha hstate (a.count Bytes.newline + 1)
    refine ⟨by rw [hwhole]; rfl, k, hk, fun n₂ => ?_⟩
    intro first second whole
    obtain ⟨hend₂, hout₂, htrace₂, hstate₂⟩ := run_parts (session.run n₁ a).2 hq n₂
    obtain ⟨hend₃, hout₃, htrace₃, hstate₃⟩ := run_parts session hwhole (k + n₂)
    -- both runs are the marked one with its marks taken off
    rw [← run_markedMachine] at hend₂ hout₂ htrace₂ hstate₂
    rw [hrun] at hend₃ hout₃ htrace₃ hstate₃
    rw [Machine.ending_recast] at hend₂ hend₃
    refine ⟨?_, ?_, ?_, shown_of_recast hstate₃ hstate₂⟩
    · rw [hout₃, hout₂, hout, ← hstate]
      simp [Machine.recast, State.recast, Recast.toLines]
    · rw [htrace₃, htrace₂, htrace, ← hstate]
      simp [Machine.recast, State.recast, Recast.toLines]
    · rw [hend₃, hend₂]
      simp only [failsInside, hq]
      exact Outcome.reline_marked _ _

/-- A function that fails for everything but numbers, and a line printed. -/
def negating : Bytes := utf8 "fun f(x) \x7b
return -x; \x7d
print \"one\";"

/-- Fails within the function. -/
def negates : Bytes := utf8 "print \"two\";
f(nil);"

/-- Fails by itself. -/
def negatesHere : Bytes := utf8 "print \"two\";
-nil;"

theorem run_in_pieces_negating :
    (∃ k ≤ 60, (new.run (k + 60) (negating ++ Bytes.newline :: negates)).1.output =
        [utf8 "one\n", utf8 "two\n"] ∧
      (new.run (k + 60) (negating ++ Bytes.newline :: negates)).1.outcome.line? = some 2) ∧
    ∃ k ≤ 60, (new.run (k + 60) (negating ++ Bytes.newline :: negatesHere)).1.output =
        [utf8 "one\n", utf8 "two\n"] ∧
      (new.run (k + 60) (negating ++ Bytes.newline :: negatesHere)).1.outcome.line? = some 5 := by
  have ha : (new.run 60 negating).1.outcome = .finished := by decide +kernel
  constructor
  · obtain ⟨-, k, hk, h⟩ := run_in_pieces ha (b := negates) (by decide +kernel)
    obtain ⟨hout, -, hend, -⟩ := h 60
    refine ⟨k, hk, ?_, ?_⟩
    · rw [hout]; decide +kernel
    · rw [hend]; decide +kernel
  · obtain ⟨-, k, hk, h⟩ := run_in_pieces ha (b := negatesHere) (by decide +kernel)
    obtain ⟨hout, -, hend, -⟩ := h 60
    refine ⟨k, hk, ?_, ?_⟩
    · rw [hout]; decide +kernel
    · rw [hend]; decide +kernel

end Session

end Lox
