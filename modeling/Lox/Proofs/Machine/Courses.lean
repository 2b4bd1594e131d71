import Lox.Proofs.Machine.Endings
import Lox.Proofs.Scope.ForLoops
/-!
# The course of a `for` loop

What a loop does, part by part: the initializer once, in a frame of its own; then the condition,
the body and the increment in turn, until the condition is false or a part does not end normally
(`ForLoop.Course`). The machine runs the blocks and the `while` loop that the parser makes of it
in the same way: it comes to every part that the course comes to, in the same state
(`ForLoop.Course.reached`), and the loop is done exactly when its course is finished
(`ForLoop.ends_iff_finished`).
-/

namespace Lox

/-! ## What a loop does next -/

/-- The state inside a new block. -/
def State.inBlock (s : State) : State := (s.newFrame s.env []).2.enter (s.newFrame s.env []).1

theorem State.env_inBlock (s : State) : s.inBlock.env = s.frames.size :: s.env :=
  State.env_enter _ _

namespace ForLoop

/-- Where a loop stands: at one of its parts, or at its end. -/
inductive Stage where
  | init (stmt : Stmt)
  | test
  | body
  | increment (e : Expr)
  | finished (result : Focus)

variable (l : ForLoop)

/-- What is run at a stage. -/
def part : Stage → Focus
  | .init stmt => .exec stmt
  | .test => .eval l.test
  | .body => .exec l.body
  | .increment e => .eval e
  | .finished result => result

/-- The scope chain of the condition of a loop that is entered in the state `s`. -/
def home (s : State) : Chain := if l.init.isSome then s.frames.size :: s.env else s.env

/-- Into the block around body and increment. -/
def openRound (s : State) : State := if l.increment.isSome then s.inBlock else s

/-- Out of the block around body and increment. -/
def closeRound (s₀ s : State) : State := if l.increment.isSome then s.leave (l.home s₀) else s

/-- Out of the block around the loop. -/
def close (s₀ s : State) : State := if l.init.isSome then s.leave s₀.env else s

/-- The way out of a loop from one of its parts. -/
def exit (s₀ : State) : Stage → State → State
  | .init _, s | .test, s => l.close s₀ s
  | .body, s | .increment _, s => l.close s₀ (l.closeRound s₀ s)
  | .finished _, s => s

/-- A loop begins with its initializer, in a new frame, or else with its condition. -/
def first (s : State) : Stage × State :=
  match l.init with
  | some stmt => (.init stmt, s.inBlock)
  | none => (.test, s)

/-- What follows a part that has ended with a result, in a loop that was entered in the state
`s₀`. What is neither normal nor the value of an expression ends the loop at once. -/
def next (s₀ : State) (stage : Stage) (result : Focus) (s : State) : Stage × State :=
  match stage, result with
  | .init _, .done => (.test, s)
  | .test, .value v =>
    if v.isTruthy then (.body, l.openRound s) else (.finished .done, l.exit s₀ .test s)
  | .body, .done =>
    match l.increment with
    | some e => (.increment e, s)
    | none => (.test, s)
  | .increment _, .value _ => (.test, l.closeRound s₀ s)
  | stage, r => (.finished r, l.exit s₀ stage s)

/-- The `n`-th stage of a loop that is entered in the state `s₀`, with the state in which the loop
comes to it. -/
inductive Course (s₀ : State) : Nat → Stage × State → Prop
  | start : Course s₀ 0 (l.first s₀)
  | next {n : Nat} {stage : Stage} {s s' : State} {r : Focus} : Course s₀ n (stage, s) →
    Machine.Ends (l.part stage) s r s' → Course s₀ (n + 1) (l.next s₀ stage r s')

/-- What is known of a stage: the clause that it stands at, and the scope chain. -/
def Fits (s₀ : State) : Stage → State → Prop
  | .init stmt, s => l.init = some stmt ∧ s.env = l.home s₀
  | .test, s => s.env = l.home s₀
  | .body, s => l.increment = none → s.env = l.home s₀
  | .increment e, _ => l.increment = some e
  | .finished r, s => (r = .done ∨ Machine.Exits r) ∧ s.env = s₀.env

section

variable {l} {s₀ s s' : State} {stage : Stage} {r : Focus} {ts : List Task}

theorem home_of_none (h : l.init = none) : l.home s₀ = s₀.env := by
  rw [home, h]
  rfl

theorem home_of_some {stmt : Stmt} (h : l.init = some stmt) :
    l.home s₀ = s₀.frames.size :: s₀.env := by
  rw [home, h]
  rfl

theorem closeRound_of_none (h : l.increment = none) : l.closeRound s₀ s = s := by
  rw [closeRound, h]
  rfl

theorem closeRound_of_some {e : Expr} (h : l.increment = some e) :
    l.closeRound s₀ s = s.leave (l.home s₀) := by
  rw [closeRound, h]
  rfl

theorem env_close (h : s.env = l.home s₀) : (l.close s₀ s).env = s₀.env := by
  unfold close
  split
  · rfl
  · rename_i hinit
    rw [h, home, if_neg hinit]

theorem env_closeRound_of_some {e : Expr} (h : l.increment = some e) :
    (l.closeRound s₀ s).env = l.home s₀ := by
  rw [closeRound_of_some h]
  rfl

theorem env_closeRound (h : l.increment = none → s.env = l.home s₀) :
    (l.closeRound s₀ s).env = l.home s₀ := by
  cases he : l.increment with
  | none => rw [closeRound_of_none he, h he]
  | some e => exact env_closeRound_of_some he

/-- Every way out of a loop comes back to the scope chain around it. -/
theorem env_exit (h : l.Fits s₀ stage s) (henv : s'.env = s.env) :
    (l.exit s₀ stage s').env = s₀.env := by
  cases stage with
  | init stmt => exact env_close (henv.trans h.2)
  | test => exact env_close (henv.trans h)
  | body => exact env_close (env_closeRound fun he => henv.trans (h he))
  | increment e => exact env_close (env_closeRound_of_some h)
  | finished r => exact henv.trans h.2

theorem Fits.hasResult (h : l.Fits s₀ (.finished r) s) : (Machine.mk r ts s').hasResult = true := by
  rcases h.1 with rfl | ⟨v, rfl⟩ | ⟨err, rfl⟩ <;> rfl

/-- What ends is a part of the loop. -/
theorem Fits.ne_finished (h : l.Fits s₀ stage s) (hends : Machine.Ends (l.part stage) s r s')
    (r₀ : Focus) : stage ≠ .finished r₀ := by
  rintro rfl
  exact Bool.false_ne_true (hends.hasResult.1.symm.trans h.hasResult)

/-- A `return` or an error in any part is the result of the loop at once. -/
theorem next_of_exits (h : Machine.Exits r) :
    l.next s₀ stage r s = (.finished r, l.exit s₀ stage s) := by
  rcases h with ⟨v, rfl⟩ | ⟨err, rfl⟩ <;> cases stage <;> rfl

theorem fits_first : l.Fits s₀ (l.first s₀).1 (l.first s₀).2 := by
  cases hinit : l.init with
  | none =>
    rw [first, hinit]
    exact (home_of_none hinit).symm
  | some stmt =>
    rw [first, hinit]
    exact ⟨hinit, (State.env_inBlock s₀).trans (home_of_some hinit).symm⟩

theorem fits_next (h : l.Fits s₀ stage s) (hends : Machine.Ends (l.part stage) s r s') :
    l.Fits s₀ (l.next s₀ stage r s').1 (l.next s₀ stage r s').2 := by
  have hexit : ∀ r, r = .done ∨ Machine.Exits r →
      l.Fits s₀ (.finished r) (l.exit s₀ stage s') := fun r hr => ⟨hr, env_exit h hends.env⟩
  have hexits : Machine.Exits r →
      l.Fits s₀ (l.next s₀ stage r s').1 (l.next s₀ stage r s').2 := fun hr => by
    rw [next_of_exits hr]
    exact hexit r (.inr hr)
  cases stage with
  | init stmt =>
    rcases hends.of_stmt with rfl | hr
    · exact hends.env.trans h.2
    · exact hexits hr
  | test =>
    rcases hends.of_expr with ⟨v, rfl⟩ | ⟨err, rfl⟩
    · rw [next]
      split
      · intro he
        rw [openRound, he]
        exact hends.env.trans h
      · exact hexit _ (.inl rfl)
    · exact hexits (.inr ⟨err, rfl⟩)
  | body =>
    rcases hends.of_stmt with rfl | hr
    · cases he : l.increment with
      | none =>
        rw [next, he]
        exact hends.env.trans (h he)
      | some e =>
        rw [next, he]
        exact he
    · exact hexits hr
  | increment e =>
    rcases hends.of_expr with ⟨v, rfl⟩ | ⟨err, rfl⟩
    · exact env_closeRound_of_some h
    · exact hexits (.inr ⟨err, rfl⟩)
  | finished r₀ => exact absurd rfl (h.ne_finished hends r₀)

theorem Course.fits {n : Nat} {p : Stage × State} (h : l.Course s₀ n p) : l.Fits s₀ p.1 p.2 := by
  induction h with
  | start => exact fits_first
  | next _ hends ih => exact fits_next ih hends

end

/-! ## The machine follows the course -/

/-- What waits for the `while` loop. -/
def below (s₀ : State) (ts : List Task) : List Task :=
  if l.init.isSome then .sequence [] :: .leave s₀.env :: ts else ts

/-- What waits for the body, in its block if it has one. -/
def belowBody (s₀ : State) (ts : List Task) : List Task :=
  match l.increment with
  | some e => .sequence [.expr l.keyword e] :: .leave (l.home s₀) ::
      .loopBody l.test l.round :: l.below s₀ ts
  | none => .loopBody l.test l.round :: l.below s₀ ts

/-- What waits for a part of the loop. -/
def waiting (s₀ : State) (ts : List Task) : Stage → List Task
  | .init _ => .sequence [l.whileLoop] :: .leave s₀.env :: ts
  | .test => .loopTest l.test l.round :: l.below s₀ ts
  | .body => l.belowBody s₀ ts
  | .increment _ => .discard :: .sequence [] :: .leave (l.home s₀) ::
      .loopBody l.test l.round :: l.below s₀ ts
  | .finished _ => ts

/-- The machine at a stage of a loop. -/
def machine (s₀ : State) (ts : List Task) (p : Stage × State) : Machine :=
  ⟨l.part p.1, l.waiting s₀ ts p.1, p.2⟩

variable {l} {s₀ s s' : State} {ts : List Task} {stage : Stage} {r : Focus}

theorem reaches_first :
    (Machine.mk (.exec l.tree) ts s₀).Reaches (l.machine s₀ ts (l.first s₀)) := by
  cases hinit : l.init with
  | none =>
    refine ⟨1, ?_⟩
    rw [tree_of_none hinit, machine, first, hinit]
    show _ = Machine.mk _ (.loopTest l.test l.round :: l.below s₀ ts) _
    rw [below, hinit]
    rfl
  | some stmt =>
    refine ⟨2, ?_⟩
    rw [tree_of_some hinit, machine, first, hinit]
    rfl

theorem reaches_below (hr : r = .done ∨ Machine.Exits r) :
    (Machine.mk r (l.below s₀ ts) s).Reaches ⟨r, ts, l.close s₀ s⟩ := by
  cases hinit : l.init with
  | none =>
    rw [below, close, hinit]
    exact ⟨0, rfl⟩
  | some stmt =>
    rw [below, close, hinit]
    refine ⟨2, ?_⟩
    rcases hr with rfl | ⟨v, rfl⟩ | ⟨err, rfl⟩ <;> rfl

/-- On a way out the tasks of a loop are dropped and its blocks are left. -/
theorem reaches_exit (hf : l.Fits s₀ stage s') (hr : Machine.Exits r) :
    (Machine.mk r (l.waiting s₀ ts stage) s).Reaches ⟨r, ts, l.exit s₀ stage s⟩ := by
  have hbelow : ∀ s, (Machine.mk r (.loopBody l.test l.round :: l.below s₀ ts) s).Reaches
      ⟨r, ts, l.close s₀ s⟩ := fun s =>
    (hr.reaches 1 (fun _ => rfl) fun _ => rfl).trans (reaches_below (.inr hr))
  cases stage with
  | init stmt =>
    rw [exit, close, hf.1]
    exact hr.reaches 2 (fun _ => rfl) fun _ => rfl
  | test => exact (hr.reaches 1 (fun _ => rfl) fun _ => rfl).trans (reaches_below (.inr hr))
  | body =>
    cases he : l.increment with
    | none =>
      rw [exit, closeRound_of_none he, waiting, belowBody, he]
      exact hbelow s
    | some e =>
      rw [exit, closeRound_of_some he, waiting, belowBody, he]
      exact (hr.reaches 2 (fun _ => rfl) fun _ => rfl).trans (hbelow _)
  | increment e =>
    rw [exit, closeRound_of_some hf]
    exact (hr.reaches 3 (fun _ => rfl) fun _ => rfl).trans (hbelow _)
  | finished r₀ => exact ⟨0, rfl⟩

theorem run_test (v : Value) : (Machine.mk (.value v) (l.waiting s₀ ts .test) s).run 1 =
    if v.isTruthy then ⟨.exec l.round, .loopBody l.test l.round :: l.below s₀ ts, s⟩
    else ⟨.done, l.below s₀ ts, s⟩ := rfl

theorem reaches_body (henv : s.env = l.home s₀) :
    (Machine.mk (.exec l.round) (.loopBody l.test l.round :: l.below s₀ ts) s).Reaches
      (l.machine s₀ ts (.body, l.openRound s)) := by
  rw [machine, waiting, belowBody, openRound, ← henv]
  cases he : l.increment with
  | none =>
    rw [round_of_none he]
    exact ⟨0, rfl⟩
  | some e =>
    rw [round_of_some he]
    exact ⟨2, rfl⟩

/-- With the result of a part the machine comes to the next stage. -/
theorem reaches_next (hf : l.Fits s₀ stage s) (hends : Machine.Ends (l.part stage) s r s') :
    (Machine.mk r (l.waiting s₀ ts stage) s').Reaches
      (l.machine s₀ ts (l.next s₀ stage r s')) := by
  have hexits : Machine.Exits r → (Machine.mk r (l.waiting s₀ ts stage) s').Reaches
      (l.machine s₀ ts (l.next s₀ stage r s')) := fun hr => by
    rw [next_of_exits hr]
    exact reaches_exit hf hr
  cases stage with
  | init stmt =>
    rcases hends.of_stmt with rfl | hr
    · refine ⟨2, ?_⟩
      rw [next, machine, waiting, waiting, below, hf.1]
      rfl
    · exact hexits hr
  | test =>
    rcases hends.of_expr with ⟨v, rfl⟩ | ⟨err, rfl⟩
    · refine .trans ⟨1, run_test v⟩ ?_
      rw [next]
      split
      · exact reaches_body (hends.env.trans hf)
      · exact reaches_below (.inl rfl)
    · exact hexits (.inr ⟨err, rfl⟩)
  | body =>
    rcases hends.of_stmt with rfl | hr
    · cases he : l.increment with
      | none =>
        refine ⟨1, ?_⟩
        rw [next, machine, waiting, belowBody, he]
        rfl
      | some e =>
        refine ⟨2, ?_⟩
        rw [next, machine, waiting, belowBody, he]
        rfl
    · exact hexits hr
  | increment e =>
    rcases hends.of_expr with ⟨v, rfl⟩ | ⟨err, rfl⟩
    · refine ⟨4, ?_⟩
      rw [next, closeRound_of_some hf]
      rfl
    · exact hexits (.inr ⟨err, rfl⟩)
  | finished r₀ => exact ⟨0, rfl⟩

/-- The machine comes to every stage of the course. -/
theorem Course.reached {n : Nat} {p : Stage × State} (h : l.Course s₀ n p) (ts : List Task) :
    (Machine.mk (.exec l.tree) ts s₀).Reaches (l.machine s₀ ts p) := by
  induction h with
  | start => exact reaches_first
  | @next n stage s s' r hc hends ih =>
    exact (ih.trans (hends.reaches _)).trans (reaches_next hc.fits hends)

/-- A run that comes to its end follows the course to its end. -/
theorem Course.finished_of_run {N n : Nat} {p : Stage × State} (h : l.Course s₀ n p)
    (hr : (Machine.mk r [] s').halted = true) (hrun : (l.machine s₀ [] p).run N = ⟨r, [], s'⟩) :
    ∃ n, l.Course s₀ n (.finished r, s') := by
  -- each stage takes at least one step, so the steps that are left get fewer
  induction N using Nat.strongRecOn generalizing n p with
  | ind N ih =>
    obtain ⟨stage, s⟩ := p
    have hfits : l.Fits s₀ stage s := h.fits
    cases hresult : (l.machine s₀ [] (stage, s)).hasResult with
    | true =>
      cases stage with
      | finished r₀ =>
        have hhalted := Machine.halted_iff.2 ⟨hresult, rfl⟩
        rw [Machine.run_of_halted hhalted] at hrun
        cases hrun
        exact ⟨n, h⟩
      | _ => cases hresult
    | false =>
      obtain ⟨r₁, s₁, hends⟩ := Machine.exists_ends hresult (hrun ▸ hr)
      obtain ⟨i, hi, hpart⟩ := hends.runs (l.waiting s₀ [] stage)
      obtain ⟨j, hj⟩ := reaches_next hfits hends
      have hnext : (l.machine s₀ [] (stage, s)).run (i + j) =
          l.machine s₀ [] (l.next s₀ stage r₁ s₁) := by
        rw [Machine.run_add, ← hj]
        exact congrArg (Machine.run j) hpart
      have hN : 0 < N := by
        refine Nat.pos_of_ne_zero ?_
        rintro rfl
        have hhalted := Machine.halted_iff.1 hr
        rw [← hrun] at hhalted
        exact Bool.false_ne_true (hresult.symm.trans hhalted.1)
      refine ih (N - (i + j)) (Nat.sub_lt hN (Nat.add_pos_left hi j)) (h.next hends) ?_
      rw [← hnext, Machine.run_rest (hrun ▸ hr), hrun]

/-- **A loop ends as its course does**, whatever ends it. -/
theorem ends_iff_finished :
    Machine.Ends (.exec l.tree) s₀ r s' ↔ ∃ n, l.Course s₀ n (.finished r, s') := by
  constructor
  · intro hends
    obtain ⟨N, hrun⟩ := hends.reaches_from reaches_first
    exact Course.finished_of_run .start hends.halted hrun
  · rintro ⟨n, hc⟩
    exact .of_reaches rfl (hc.reached []) (Machine.halted_iff.2 ⟨hc.fits.hasResult, rfl⟩)

end ForLoop

end Lox
