import Lox.Proofs.Machine.Preservation
/-!
# Sessions that can come about

A session is reached from a new one by running sources, each to its end. `Session.Reached` also
keeps the sources and the class declarations that they have carried out. The main result,
`Session.Reached.invariant`, puts the invariant of runs at the disposal of every run that starts
in such a session.
-/

namespace Lox

/-- Whether a source was run to its end, or not at all. -/
def Outcome.ended : Outcome → Bool
  | .unfinished => false
  | _ => true

theorem Machine.ending_state (m : Machine) : m.ending.2 = m.state := by
  unfold ending
  split <;> split <;> rfl

theorem Machine.ended_ending (m : Machine) : m.ending.1.ended = m.halted := by
  unfold ending
  split <;> split <;> simp_all [Outcome.ended]

namespace Session

/-- The class declarations that running a source carries out. -/
def declared (fuel : Nat) (source : Bytes) (session : Session) : List Declaration :=
  match analyse source with
  | .error _ => []
  | .ok program => (session.machine program).declared fuel

/-- The sessions that can come about, with the sources that they have run and the classes that
these have declared, newest first. -/
inductive Reached : List Bytes → List Declaration → Session → Prop
  | new (tracing : Bool) : Reached [] [] ⟨.clear, { State.initial with tracing }⟩
  | run {sources : List Bytes} {log : List Declaration} {session : Session} {fuel : Nat}
      {source : Bytes} : Reached sources log session →
    (session.run fuel source).1.outcome.ended = true →
    Reached (source :: sources) (session.declared fuel source ++ log) (session.run fuel source).2
  | reset {sources : List Bytes} {log : List Declaration} {session : Session} :
    Reached sources log session → Reached sources log session.reset
  /-- Time passes between two sources. -/
  | wait {sources : List Bytes} {log : List Declaration} {session : Session} (now : Clock) :
    Reached sources log session →
    Reached sources log { session with state := { session.state with now } }

end Session

/-- The programs among the sources that are accepted. -/
def accepted (sources : List Bytes) (program : List Stmt) : Prop :=
  ∃ source ∈ sources, (∃ resolved, analyse source = .ok resolved) ∧ program = sourceTree source

theorem analyse_of_toBool {source : Bytes} (h : (analyse source).toBool = true) :
    ∃ program, analyse source = .ok program := by
  cases ha : analyse source with
  | ok program => exact ⟨program, rfl⟩
  | error _ => rw [ha] at h; cases h

theorem accepted_admissible {sources : List Bytes} :
    ∀ program, accepted sources program → Admissible program := by
  rintro _ ⟨source, -, ⟨resolved, h⟩, rfl⟩
  exact (analyse_ok h).1

/-- Before anything has run, nothing is bound but the clock. -/
theorem State.lookup_initial {f : FrameId} {x : Bytes} {v : Value}
    (h : State.initial.frames.lookup f x = some v) : v = .builtin .clock := by
  have h : Frames.lookup #[[(utf8 "clock", Value.builtin .clock)]] f x = some v := h
  cases f with
  | zero => exact (Bindings.get?_singleton h).2
  | succ f => simp [Frames.lookup] at h

variable {programs : List Stmt → Prop} {w : World} {s : State}

namespace World

/-- Between two programs only the globals can be seen. -/
structure Rests (programs : List Stmt → Prop) (w : World) (s : State) : Prop where
  store : w.StoreOk programs s
  env : s.env = globalChain

/-- The world before anything has run. -/
def empty : World := ⟨State.initial.frames, fun _ => none, []⟩

theorem empty_rests (tracing : Bool) :
    empty.Rests programs { State.initial with tracing } := by
  refine ⟨⟨rfl, ?_, rfl, ?_, ?_, ?_, ?_, ?_, ?_⟩, rfl⟩
  · exact Nat.zero_lt_one
  · intro f l hl
    cases hl
  · intro f x v hv
    rw [State.lookup_initial hv]
    trivial
  · intro f x l hl
    cases hl
  · intro o x v hv
    simp [State.field?, State.initial] at hv
  · intro d hd
    cases hd
  · intro d hd
    cases hd

theorem Rests.congr (h : w.Rests programs s) {s' : State} (hf : s'.frames = s.frames)
    (hfields : s'.fields = s.fields) (hid : s'.nextId = s.nextId) (he : s'.env = s.env) :
    w.Rests programs s' :=
  ⟨h.store.congr hf hfields (Nat.le_of_eq hid.symm), he.trans h.env⟩

/-- A source is about to run. -/
theorem Rests.machine {session : Session} (h : w.Rests programs session.state) {source : Bytes}
    {program : List Stmt} (ha : analyse source = .ok program)
    (hp : programs (sourceTree source)) : w.Invariant programs (session.machine program) := by
  have hs : StmtsAt programs [] [] _ program :=
    ⟨.none, .none, _, ⟨[], []⟩, .root hp, rfl, (analyse_ok ha).2.symm, rfl⟩
  refine ⟨h.store.congr rfl rfl (Nat.le_refl _), [], [], ?_⟩
  show w.Matches session.state.env [] [] ∧ w.Waits programs .done session.state.env [] [] _
  rw [h.env]
  exact ⟨.globals, .program hs⟩

/-- A machine that has come to its end can see only the globals. -/
theorem Invariant.rests {m : Machine} (h : w.Invariant programs m) (hm : m.halted = true) :
    w.Rests programs m.state := by
  obtain ⟨focus, tasks, s⟩ := m
  have hend : ∀ {a ls ss env}, w.Waits programs a env ls ss [] → env = globalChain := by
    intro a ls ss env hw
    cases hw
    rfl
  refine ⟨h.store, ?_⟩
  have hf := h.focus
  cases focus with
  | eval _ => cases hm
  | exec _ => cases hm
  | value v =>
    obtain rfl := List.isEmpty_iff.1 hm
    obtain ⟨-, _, _, -, hw⟩ := hf
    exact hend hw
  | done =>
    obtain rfl := List.isEmpty_iff.1 hm
    obtain ⟨_, _, -, hw⟩ := hf
    exact hend hw
  | returned v =>
    obtain rfl := List.isEmpty_iff.1 hm
    obtain ⟨-, _, _, _, hw⟩ := hf
    exact hend hw
  | raised e =>
    obtain rfl := List.isEmpty_iff.1 hm
    obtain ⟨_, _, _, hw⟩ := hf
    exact hend hw

end World

namespace Session

/-- Runs a source, given how the machine makes its steps. -/
def runOn (go : Nat → Machine → Machine) (fuel : Nat) (source : Bytes) (session : Session) :
    Report × Session :=
  match analyse source with
  | .error problems =>
    (⟨.rejected, [], problems, []⟩,
      { session with reporter := problems.foldl Reporter.note session.reporter })
  | .ok program =>
    let (outcome, state) := (go fuel (session.machine program)).ending
    let diagnostics := match outcome with
      | .failed e => [.ofRuntimeError e]
      | _ => []
    (⟨outcome, state.output.toList, diagnostics, state.trace.toList⟩,
      ⟨diagnostics.foldl Reporter.note session.reporter, state⟩)

theorem run_eq_runOn : Session.run = runOn Machine.run := rfl

/-- A source that was run to its end has left a machine that has come to its end. -/
theorem run_halted {fuel : Nat} {source : Bytes} {session : Session} {program : List Stmt}
    (ha : analyse source = .ok program)
    (ho : (session.run fuel source).1.outcome.ended = true) :
    ((session.machine program).run fuel).halted = true ∧
      (session.run fuel source).2.state = ((session.machine program).run fuel).state := by
  rw [run_eq_runOn] at ho ⊢
  simp only [runOn, ha] at ho ⊢
  rw [Machine.ended_ending] at ho
  exact ⟨ho, Machine.ending_state _⟩

/-- Running a source to its end, in a world that grows by it. -/
theorem rests_run {fuel : Nat} {source : Bytes} {session : Session}
    (hprograms : ∀ program, programs program → Admissible program)
    (hw : w.Rests programs session.state)
    (hp : ∀ program, analyse source = .ok program → programs (sourceTree source))
    (ho : (session.run fuel source).1.outcome.ended = true) :
    ∃ w' : World, w.Grows w' ∧ w'.log = session.declared fuel source ++ w.log ∧
      w'.Rests programs (session.run fuel source).2.state := by
  cases ha : analyse source with
  | error problems =>
    simp only [declared, Session.run, ha]
    exact ⟨w, .refl w, rfl, hw⟩
  | ok program =>
    obtain ⟨hhalted, hstate⟩ := run_halted ha ho
    obtain ⟨w', hg, hlog, hm⟩ := (hw.machine ha (hp program ha)).run hprograms fuel
    refine ⟨w', hg, ?_, hstate ▸ hm.rests hhalted⟩
    simp only [declared, ha]
    exact hlog

namespace Reached

variable {sources : List Bytes} {log : List Declaration} {session : Session}

theorem rests (h : Reached sources log session)
    (hprograms : ∀ program, programs program → Admissible program)
    (hall : ∀ program, accepted sources program → programs program) :
    ∃ w : World, w.log = log ∧ w.Rests programs session.state := by
  induction h with
  | new tracing => exact ⟨.empty, rfl, World.empty_rests tracing⟩
  | @run sources log session fuel source _ ho ih =>
    obtain ⟨w, hlog, hw⟩ := ih fun program ⟨src, hs, hp⟩ =>
      hall program ⟨src, List.mem_cons_of_mem _ hs, hp⟩
    obtain ⟨w', -, hlog', hw'⟩ := rests_run hprograms hw
      (fun program ha => hall _ ⟨source, List.mem_cons_self, ⟨program, ha⟩, rfl⟩) ho
    exact ⟨w', by rw [hlog', hlog], hw'⟩
  | reset _ ih => exact ih hall
  | wait now _ ih =>
    obtain ⟨w, hlog, hw⟩ := ih hall
    exact ⟨w, hlog, hw.congr rfl rfl rfl rfl⟩

/-- **Every moment of every run is at a position of a source.** -/
theorem invariant (h : Reached sources log session)
    (hprograms : ∀ program, programs program → Admissible program)
    {source : Bytes} (hall : ∀ program, accepted (source :: sources) program → programs program)
    {program : List Stmt} (ha : analyse source = .ok program) (n : Nat) :
    ∃ w : World, w.log = (session.machine program).declared n ++ log ∧
      w.Invariant programs ((session.machine program).run n) := by
  obtain ⟨w, hlog, hw⟩ := h.rests hprograms fun program ⟨src, hs, hp⟩ =>
    hall program ⟨src, List.mem_cons_of_mem _ hs, hp⟩
  have hp := hall _ ⟨source, List.mem_cons_self, ⟨program, ha⟩, rfl⟩
  obtain ⟨w', -, hlog', hm⟩ := (hw.machine ha hp).run hprograms n
  exact ⟨w', by rw [hlog', hlog], hm⟩

end Reached

end Session

end Lox
