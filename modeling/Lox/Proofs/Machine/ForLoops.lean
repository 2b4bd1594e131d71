import Lox.Proofs.Machine.Courses
import Lox.Proofs.Machine.Enclosed
import Lox.Proofs.Machine.Lifetimes
/-!
# `for` loops in a run

Wherever a run comes to the tree of a `for` loop, the loop has the meaning that its clauses suggest
(`Session.RunsLoop`). What is run, and when, is told by its course. What condition and increment see
follows from the scopes at which they stand (`ForLoop.Course.sees`), and two frames matter for it:
that of the initializer (`ForLoop.init_frame`), and the one around body and increment, in which no
name is ever bound (`ForLoop.Course.round`).
-/

namespace Lox

/-! ## The frame that a reference points at -/

/-- The frame at a distance in a chain; without a distance it is that of the globals. -/
def Chain.target? (chain : Chain) : Option Nat → Option FrameId
  | some d => chain[d]?
  | none => some globalFrame

theorem State.target?_eq (s : State) (ref : Ref) : s.target? ref = s.env.target? ref.hops := by
  unfold State.target?
  cases ref.hops <;> rfl

namespace Chain

theorem target?_cons (f : FrameId) (chain : Chain) (hops : Option Nat) :
    target? (f :: chain) (hops.map (· + 1)) = target? chain hops := by
  cases hops <;> rfl

end Chain

namespace World

variable {w : World} {chain : Chain} {ls : List Layer} {ss : List Scope}

theorem Matches.globals_mem (h : w.Matches chain ls ss) : globalFrame ∈ chain := by
  induction h with
  | globals => exact .head _
  | _ => exact .tail _ ‹_›

/-- In a condition and in an expression that is a statement every variable is bound already, where
its distance says. -/
theorem Invariant.bound {e : Expr} {task : Task} {ts : List Task} {s : State}
    (h : w.Invariant Acceptable ⟨.eval e, task :: ts, s⟩)
    (htask : task = .discard ∨ ∃ cond body, task = .loopTest cond body) {form : RefForm} {ref : Ref}
    (hform : form = .read ∨ form = .write) (href : ⟨form, ref⟩ ∈ e.references) {d : Nat}
    (hd : ref.hops = some d) :
    ∃ f, s.env[d]? = some f ∧ s.frames.binds f ref.name.lexeme = true := by
  obtain ⟨hstore, ls, ss, hmatch, hat, hwaits⟩ := h
  have hpinned := ExprAt.pinned hform hat href
  obtain ⟨scope, hscope, hhas, -⟩ := hopsTo_some (hpinned.hops.symm.trans hd)
  obtain ⟨mark, hmark⟩ := Bindings.has_iff.1 hhas
  obtain ⟨f, hf, hbinds⟩ := hmatch.frame hscope
  have hready : ∀ scope ∈ ss, scope.Ready := by
    cases hwaits with
    | operand ht _ => rcases htask with rfl | ⟨cond, body, rfl⟩ <;> exact ht.elim
    | statement hready _ _ => exact hready
    | define _ _ _ _ => rcases htask with htask | ⟨cond, body, htask⟩ <;> cases htask
  cases hready scope (List.mem_of_getElem? hscope) _ _ hmark
  exact ⟨f, hf, hstore.frames ▸ hbinds _ hmark⟩

/-- A name is found in a frame of the chain. -/
theorem Matches.target (h : w.Matches chain ls ss) (x : Bytes) :
    ∃ f ∈ chain, chain.target? (Resolver.hopsTo ss x) = some f := by
  cases hd : Resolver.hopsTo ss x with
  | none => exact ⟨globalFrame, h.globals_mem, rfl⟩
  | some d =>
    obtain ⟨scope, hscope, -⟩ := hopsTo_some hd
    obtain ⟨f, hf, -⟩ := h.frame hscope
    exact ⟨f, List.mem_of_getElem? hf, hf⟩

end World

theorem Session.Reached.env_lt {sources : List Bytes} {log : List Declaration} {session : Session}
    {source : Bytes} {program : List Stmt} {k : Nat} {stmt : Stmt} {ts : List Task} {s : State}
    (hr : Session.Reached sources log session) (ha : analyse source = .ok program)
    (hm : session.moments program k = ⟨.exec stmt, ts, s⟩) : ∀ f ∈ s.env, f < s.frames.size := by
  obtain ⟨w, hw⟩ := hr.acceptable ha k
  rw [hm] at hw
  obtain ⟨hstore, ls, ss, ss', hmatch, -⟩ := hw
  exact hmatch.mem_lt hstore

/-- A new block stands in a frame of its own. -/
theorem State.encloses_inBlock (s : State) : s.inBlock.Encloses s.frames.size s.frames := by
  have hframes : s.inBlock.frames = s.frames.push [] := State.frames_enter _ _
  refine ⟨⟨_, _, State.env_inBlock s, Nat.le_refl _⟩, ?_, fun f hf x => ?_⟩
  · rw [hframes, Array.size_push]
    exact Nat.le_succ _
  · rw [hframes]
    exact congrArg Option.isSome (Frames.lookup_push_old hf)

namespace ForLoop

variable {w : World} {l : ForLoop} {s₀ s : State} {ls : List Layer} {ss : List Scope} {x : Bytes}

/-- The names that the initializer declares. -/
def declares (l : ForLoop) : List Bytes := declaredNames l.init.toList

theorem declares_of_none (h : l.init = none) : l.declares = [] := by
  rw [declares, h]
  rfl

theorem hopsTo_scopes_of_none (h : l.init = none) :
    Resolver.hopsTo (l.scopes ss) x = Resolver.hopsTo ss x := by
  rw [scopes, h]

theorem hopsTo_scopes_of_some {i : Stmt} (h : l.init = some i) :
    Resolver.hopsTo (l.scopes ss) x =
      if x ∈ l.declares then some 0 else (Resolver.hopsTo ss x).map (· + 1) := by
  rw [scopes, declares, h]
  cases hd : i.declared? with
  | none =>
    have hnames : declaredNames [i] = [] := by simp [declaredNames, hd]
    simp only [Option.toList, hnames, Resolver.afterStmt, hd]
    exact hopsTo_cons [] ss x
  | some name =>
    have hnames : declaredNames [i] = [name.lexeme] := by simp [declaredNames, hd]
    simp only [Option.toList, hnames, List.mem_singleton, Resolver.afterStmt, hd, Resolver.marked,
      hopsTo_cons, Bindings.has_insert]
    simp [Bindings.has, Bindings.get?, eq_comm]

/-- From the condition a name is seen in the frame of the initializer, if it is declared there,
and else in a frame around the loop. -/
theorem home_target (h : w.Matches s₀.env ls ss) (x : Bytes) :
    (x ∈ l.declares → Chain.target? (l.home s₀) (Resolver.hopsTo (l.scopes ss) x) =
        some s₀.frames.size) ∧
      (x ∉ l.declares → ∃ f ∈ s₀.env,
        Chain.target? (l.home s₀) (Resolver.hopsTo (l.scopes ss) x) = some f) := by
  cases hinit : l.init with
  | none =>
    rw [home_of_none hinit, hopsTo_scopes_of_none hinit, declares_of_none hinit]
    exact ⟨nofun, fun _ => h.target x⟩
  | some i =>
    rw [home_of_some hinit, hopsTo_scopes_of_some hinit]
    refine ⟨fun hx => ?_, fun hx => ?_⟩
    · rw [if_pos hx]
      rfl
    · rw [if_neg hx, Chain.target?_cons]
      exact h.target x

/-! ## Stages of the course -/

section

variable {stage : Stage} {r : Focus} {n : Nat}

/-- All that can follow a part that has ended. -/
inductive Follows (l : ForLoop) (s₀ : State) : Stage → Focus → State → Stage × State → Prop
  | begin {i : Stmt} {s : State} : Follows l s₀ (.init i) .done s (.test, s)
  | enter {v : Value} {s : State} : v.isTruthy = true →
    Follows l s₀ .test (.value v) s (.body, l.openRound s)
  | advance {e : Expr} {s : State} : l.increment = some e →
    Follows l s₀ .body .done s (.increment e, s)
  | again {s : State} : l.increment = none → Follows l s₀ .body .done s (.test, s)
  | close {e : Expr} {v : Value} {s : State} :
    Follows l s₀ (.increment e) (.value v) s (.test, l.closeRound s₀ s)
  | finished {stage : Stage} {r r' : Focus} {s : State} :
    Follows l s₀ stage r s (.finished r', l.exit s₀ stage s)

theorem follows_next (l : ForLoop) (s₀ : State) (stage : Stage) (r : Focus) (s : State) :
    l.Follows s₀ stage r s (l.next s₀ stage r s) := by
  unfold next
  split
  · exact .begin
  · split
    · exact .enter ‹_›
    · exact .finished
  · split
    · exact .advance ‹_›
    · exact .again ‹_›
  · exact .close
  · exact .finished

theorem frames_exit : (l.exit s₀ stage s).frames = s.frames := by
  have hclose : ∀ s, (l.close s₀ s).frames = s.frames := fun s => by
    unfold close
    split
    · exact State.frames_leave s _
    · rfl
  have hround : (l.closeRound s₀ s).frames = s.frames := by
    unfold closeRound
    split
    · exact State.frames_leave s _
    · rfl
  cases stage with
  | init _ | test => exact hclose s
  | body | increment _ => exact (hclose _).trans hround
  | finished _ => rfl

/-- The initializer is run once, before anything else. -/
theorem course_init_iff {i : Stmt} :
    l.Course s₀ n (.init i, s) ↔ n = 0 ∧ l.init = some i ∧ s = s₀.inBlock := by
  constructor
  · intro h
    generalize hp : (Stage.init i, s) = p at h
    cases h with
    | start =>
      unfold first at hp
      split at hp
      · rename_i hinit
        cases hp
        exact ⟨rfl, hinit, rfl⟩
      · cases hp
    | @next n stage s' s'' r _ _ =>
      have hfollows := l.follows_next s₀ stage r s''
      rw [← hp] at hfollows
      cases hfollows
  · rintro ⟨rfl, hinit, rfl⟩
    have h : l.Course s₀ 0 (l.first s₀) := .start
    rwa [first, hinit] at h

end

/-! ## Loops in a run -/

section

variable {sources : List Bytes} {log : List Declaration} {session : Session} {source : Bytes}
  {program : List Stmt} {k n : Nat} {ts : List Task} {p : Stage × State} {stage : Stage}
  {r : Focus} {s' : State}

theorem Course.moment (hm : session.moments program k = ⟨.exec l.tree, ts, s₀⟩)
    (h : l.Course s₀ n p) : ∃ j, session.moments program (k + j) = l.machine s₀ ts p := by
  obtain ⟨j, hj⟩ := h.reached ts
  refine ⟨j, ?_⟩
  rw [Session.moments_add, hm, hj]

/-- The block around body and increment never binds a name. -/
theorem round_binds (hr : Session.Reached sources log session) (ha : analyse source = .ok program)
    (hfor : l.keyword.kind = .kwFor) {e : Expr} (he : l.increment = some e)
    (hm : session.moments program k = ⟨.exec l.round, ts, s⟩)
    (hs' : session.After source (k + 1) s') (x : Bytes) :
    s'.frames.binds s.frames.size x = false := by
  rw [round_of_some he] at hm
  obtain ⟨w, hw⟩ := hr.acceptable ha k
  rw [hm] at hw
  obtain ⟨-, ls, ss, ss', -, hat, -⟩ := hw
  have hnames : declaredNames [l.body, .expr l.keyword e] = [] := by
    have hbody := hat.body_declares_nothing hfor
    have hexpr : (Stmt.expr l.keyword e).declared? = none := rfl
    simp [declaredNames, hbody, hexpr]
  rw [Bool.eq_false_iff]
  intro hx
  have hmem := hr.block_names ha hm hs' hx
  rw [hnames] at hmem
  cases hmem

/-- Body and increment stand in a frame that is made for them and stays empty. -/
theorem Course.round (hr : Session.Reached sources log session)
    (ha : analyse source = .ok program) (hfor : l.keyword.kind = .kwFor)
    (hm : session.moments program k = ⟨.exec l.tree, ts, s₀⟩) {e : Expr}
    (he : l.increment = some e) (h : l.Course s₀ n p)
    (hp : p.1 = .body ∨ ∃ e, p.1 = .increment e) :
    ∃ j f, p.2.env = f :: l.home s₀ ∧ (session.moments program j).state.frames.size = f ∧
      ∀ s', session.After source (j + 1) s' → ∀ x, s'.frames.binds f x = false := by
  induction h with
  | start =>
    unfold first at hp
    split at hp <;> rcases hp with hp | ⟨_, hp⟩ <;> cases hp
  | @next n stage s s' r hc hends ih =>
    have hfollows := l.follows_next s₀ stage r s'
    generalize l.next s₀ stage r s' = p at hp hfollows ⊢
    cases hfollows with
    | enter hv =>
      have henv : s'.env = l.home s₀ := hends.env.trans hc.fits
      -- one step after the condition the block is about to be opened
      obtain ⟨i, hi⟩ := hc.moment hm
      obtain ⟨j, -, hj⟩ := hends.runs (l.waiting s₀ ts .test)
      have hround : session.moments program (k + i + j + 1) =
          ⟨.exec l.round, .loopBody l.test l.round :: l.below s₀ ts, s'⟩ := by
        rw [Session.moments_add, Session.moments_add, hi]
        show ((Machine.mk _ (l.waiting s₀ ts .test) s).run j).run 1 = _
        rw [hj, run_test, if_pos hv]
      refine ⟨k + i + j + 1, s'.frames.size, ?_, by rw [hround], fun s'' hs'' x =>
        round_binds hr ha hfor he hround hs'' x⟩
      rw [openRound, he, ← henv]
      exact State.env_inBlock s'
    | advance _ =>
      obtain ⟨j, f, henv, hframe, hempty⟩ := ih (.inl rfl)
      exact ⟨j, f, hends.env.trans henv, hframe, hempty⟩
    | _ => rcases hp with hp | ⟨_, hp⟩ <;> cases hp

/-- The frame of the initializer is none of those around the loop, and binds only what the
initializer declares. -/
theorem init_frame (hr : Session.Reached sources log session) (ha : analyse source = .ok program)
    (hm : session.moments program k = ⟨.exec l.tree, ts, s₀⟩) {i : Stmt}
    (hinit : l.init = some i) :
    s₀.frames.size ∉ s₀.env ∧ ∀ s', session.After source (k + 1) s' →
      ∀ x, s'.frames.binds s₀.frames.size x = true → x ∈ l.declares := by
  refine ⟨fun hmem => Nat.lt_irrefl _ (hr.env_lt ha hm _ hmem), fun s' hs' x hx => ?_⟩
  rw [tree_of_some hinit] at hm
  have hmem := hr.block_names ha hm hs' hx
  have hloop : l.whileLoop.declared? = none := rfl
  rw [declares, hinit]
  simpa [declaredNames, hloop] using hmem

/-- From the initializer on, nothing in the loop binds a name in a frame around it. -/
theorem Course.encloses (hr : Session.Reached sources log session)
    (ha : analyse source = .ok program)
    (hm : session.moments program k = ⟨.exec l.tree, ts, s₀⟩) {i : Stmt}
    (hinit : l.init = some i) (h : l.Course s₀ n p) :
    p.2.Encloses s₀.frames.size s₀.frames ∨ (∃ r, p.1 = .finished r) ∧
      ∀ f < s₀.frames.size, ∀ x, p.2.frames.binds f x = s₀.frames.binds f x := by
  induction h with
  | start =>
    rw [first, hinit]
    exact .inl (State.encloses_inBlock s₀)
  | @next n stage s s' r hc hends ih =>
    have hs : s.Encloses s₀.frames.size s₀.frames := by
      rcases ih with ih | ⟨⟨r₀, rfl⟩, -⟩
      · exact ih
      · exact absurd rfl (hc.fits.ne_finished hends r₀)
    obtain ⟨j, hj⟩ := hc.moment hm
    obtain ⟨w, hw⟩ := hr.acceptable ha (k + j)
    rw [hj] at hw
    have hs' := hends.enclosed hw hs
    have hfollows := l.follows_next s₀ stage r s'
    generalize l.next s₀ stage r s' = p at hfollows ⊢
    cases hfollows with
    | begin | advance _ | again _ => exact .inl hs'
    | enter _ =>
      rw [openRound]
      refine .inl ?_
      split
      · exact (hs'.newFrame s'.env []).enter ⟨_, _, rfl, hs'.size⟩
      · exact hs'
    | close =>
      rw [closeRound]
      refine .inl ?_
      split
      · exact hs'.leave ⟨_, _, home_of_some hinit, Nat.le_refl _⟩
      · exact hs'
    | @finished _ _ r' _ =>
      refine .inr ⟨⟨r', rfl⟩, fun f hf x => ?_⟩
      rw [frames_exit, hs'.names f hf x]

/-- What a variable in the condition or the increment stands for: that of the initializer, or one
from around the loop. -/
structure Sees (l : ForLoop) (s₀ s : State) (ref : Ref) : Prop where
  own : ref.name.lexeme ∈ l.declares → s.target? ref = some s₀.frames.size ∧
    s.frames.binds s₀.frames.size ref.name.lexeme = true
  outer : ref.name.lexeme ∉ l.declares → ∃ f ∈ s₀.env, s.target? ref = some f

theorem Course.unique {p' : Stage × State} (h : l.Course s₀ n p) (h' : l.Course s₀ n p') :
    p = p' := by
  induction h generalizing p' with
  | start =>
    generalize hn : 0 = j at h'
    cases h' with
    | start => rfl
    | next _ _ => cases hn
  | @next n _ _ _ _ _ hends ih =>
    generalize hn : n + 1 = j at h'
    cases h' with
    | start => cases hn
    | next hc' hends' =>
      cases hn
      cases ih hc'
      obtain ⟨rfl, rfl⟩ := hends.unique hends'
      rfl

/-- No stage comes after the end. -/
theorem Course.last (h : l.Course s₀ n (.finished r, s)) {j : Nat} (hp : l.Course s₀ j p)
    (hj : n ≤ j) : j = n ∧ p = (.finished r, s) := by
  induction hp with
  | start =>
    obtain rfl := Nat.le_zero.1 hj
    exact ⟨rfl, Course.start.unique h⟩
  | @next j stage s' _ r' hc hends ih =>
    rcases Nat.lt_or_ge n (j + 1) with hlt | hge
    · obtain ⟨rfl, hfinished⟩ := ih (Nat.le_of_lt_succ hlt)
      cases hfinished
      exact absurd rfl (h.fits.ne_finished hends r)
    · obtain rfl := Nat.le_antisymm hj hge
      exact ⟨rfl, (hc.next hends).unique h⟩

theorem Course.atOnce (h : l.Course s₀ n (stage, s)) (hends : Machine.Ends (l.part stage) s r s')
    (hexits : Machine.Exits r) {j : Nat} (hj : n < j) :
    l.Course s₀ j p ↔ j = n + 1 ∧ p = (.finished r, l.exit s₀ stage s') := by
  have hfinished : l.Course s₀ (n + 1) (.finished r, l.exit s₀ stage s') :=
    next_of_exits hexits ▸ h.next hends
  constructor
  · intro hp
    exact hfinished.last hp hj
  · rintro ⟨rfl, rfl⟩
    exact hfinished

/-- A missing condition is true. -/
theorem Course.endless (hcond : l.cond = none) (h : l.Course s₀ n (.test, s)) :
    l.Course s₀ (n + 1) (.body, l.openRound s) := by
  have hends : Machine.Ends (l.part .test) s (.value (.bool true)) s := by
    rw [part, test, hcond]
    refine ⟨1, ⟨rfl, rfl, rfl, fun j hj hresult => ?_⟩, rfl⟩
    cases Nat.lt_one_iff.1 hj
    cases hresult
  exact h.next hends

/-- A variable that is bound where its distance says, and whose distance is that from the
condition. -/
theorem sees_of_target (hstore : w.StoreOk Acceptable s₀) (hmatch : w.Matches s₀.env ls ss)
    {ref : Ref} (htarget : s.target? ref =
      Chain.target? (l.home s₀) (Resolver.hopsTo (l.scopes ss) ref.name.lexeme))
    (hbound : ∀ d, ref.hops = some d →
      ∃ f, s.env[d]? = some f ∧ s.frames.binds f ref.name.lexeme = true) : l.Sees s₀ s ref := by
  obtain ⟨hown, houter⟩ := l.home_target hmatch ref.name.lexeme
  rw [← htarget] at hown houter
  refine ⟨fun hx => ⟨hown hx, ?_⟩, houter⟩
  have hframe := hown hx
  rw [State.target?_eq] at hframe
  cases hd : ref.hops with
  | none =>
    rw [hd] at hframe
    exact absurd hstore.globals (Nat.not_lt_of_le (Nat.le_of_eq (Option.some.inj hframe).symm))
  | some d =>
    obtain ⟨f, hf, hbinds⟩ := hbound d hd
    rw [hd] at hframe
    cases hf.symm.trans hframe
    exact hbinds

/-- **The condition and the increment see the variable of the initializer**, and no name that the
body declares. -/
theorem Course.sees (hr : Session.Reached sources log session)
    (ha : analyse source = .ok program) (hfor : l.keyword.kind = .kwFor)
    (hm : session.moments program k = ⟨.exec l.tree, ts, s₀⟩) (h : l.Course s₀ n (stage, s))
    {e : Expr} (hp : l.part stage = .eval e) {form : RefForm} {ref : Ref}
    (hform : form = .read ∨ form = .write) (href : ⟨form, ref⟩ ∈ e.references) :
    l.Sees s₀ s ref := by
  -- where the variables point at is settled by the scopes at the loop, whether they are bound by
  -- those at the stage
  obtain ⟨w, hw⟩ := hr.acceptable ha k
  rw [hm] at hw
  obtain ⟨hstore, ls, ss, ss', hmatch, hat, -⟩ := hw
  obtain ⟨⟨_, htest⟩, hincrement⟩ := tree_parts hfor hat
  have hfits : l.Fits s₀ stage s := h.fits
  obtain ⟨j, hj⟩ := h.moment hm
  obtain ⟨w', hw'⟩ := hr.acceptable ha (k + j)
  rw [hj] at hw'
  cases stage with
  | init _ | body => cases hp
  | test =>
    cases hp
    refine sees_of_target hstore hmatch ?_ fun d hd =>
      hw'.bound (.inr ⟨_, _, rfl⟩) hform href hd
    rw [State.target?_eq, (ExprAt.pinned hform htest href).hops, hfits]
  | increment e' =>
    cases hp
    refine sees_of_target hstore hmatch ?_ fun d hd => hw'.bound (.inl rfl) hform href hd
    obtain ⟨_, hat'⟩ := hincrement e hfits
    obtain ⟨_, f, henv, -⟩ := h.round hr ha hfor hm hfits (.inr ⟨e, rfl⟩)
    rw [State.target?_eq, (ExprAt.pinned hform hat' href).hops, henv, hopsTo_cons]
    exact Chain.target?_cons f _ _
  | finished r =>
    cases hp
    rcases hfits.1 with hdone | ⟨v, hexit⟩ | ⟨err, hexit⟩
    · cases hdone
    · cases hexit
    · cases hexit

theorem exists_waiting (l : ForLoop) (s₀ : State) (ts : List Task) (stage : Stage) :
    ∃ tasks, l.waiting s₀ ts stage = tasks ++ ts := by
  obtain ⟨below, hbelow⟩ : ∃ tasks, l.below s₀ ts = tasks ++ ts := by
    unfold ForLoop.below
    split
    · exact ⟨[_, _], rfl⟩
    · exact ⟨[], rfl⟩
  cases stage with
  | init _ => exact ⟨[_, _], rfl⟩
  | test => exact ⟨_ :: below, congrArg (List.cons _) hbelow⟩
  | body =>
    rw [waiting, belowBody, hbelow]
    split
    · exact ⟨_ :: _ :: _ :: below, rfl⟩
    · exact ⟨_ :: below, rfl⟩
  | increment _ =>
    rw [waiting, hbelow]
    exact ⟨_ :: _ :: _ :: _ :: below, rfl⟩
  | finished _ => exact ⟨[], rfl⟩

end

end ForLoop

/-! ## The meaning of a loop -/

/-- What comes of a loop that a run of a session reaches at its moment `k`, in the state `s₀`. -/
structure Session.RunsLoop (session : Session) (source : Bytes) (program : List Stmt) (k : Nat)
    (l : ForLoop) (ts : List Task) (s₀ : State) : Prop where
  /-- The run comes to every stage of the course, in the state that the course has there. -/
  stages : ∀ n stage s, l.Course s₀ n (stage, s) →
    ∃ j tasks, session.moments program (k + j) = ⟨l.part stage, tasks ++ ts, s⟩
  /-- The loop is done when its course is finished, with the same result and state. -/
  ends : ∀ r s, (∃ j, (session.moments program k).Completes j ∧
      session.moments program (k + j) = ⟨r, ts, s⟩) ↔ ∃ n, l.Course s₀ n (.finished r, s)
  /-- The initializer is run once, at first, in a new frame. -/
  once : ∀ n i s, l.Course s₀ n (.init i, s) ↔ n = 0 ∧ l.init = some i ∧ s = s₀.inBlock
  /-- Every stage is determined by those before it. -/
  determined : ∀ n p p', l.Course s₀ n p → l.Course s₀ n p' → p = p'
  /-- After a part that ends by `return` or by an error, nothing of the loop is run. -/
  atOnce : ∀ n stage s r s', l.Course s₀ n (stage, s) → Machine.Ends (l.part stage) s r s' →
    Machine.Exits r → ∀ j p, n < j → (l.Course s₀ j p ↔ j = n + 1 ∧
      p = (.finished r, l.exit s₀ stage s'))
  /-- A missing condition is true. -/
  endless : l.cond = none → ∀ n s, l.Course s₀ n (.test, s) →
    l.Course s₀ (n + 1) (.body, l.openRound s)
  /-- The frame of the initializer is its own, for as long as the session lasts. -/
  own : l.init.isSome = true → s₀.frames.size ∉ s₀.env ∧
    ∀ s, session.After source (k + 1) s →
      ∀ x, s.frames.binds s₀.frames.size x = true → x ∈ l.declares
  /-- The frame around body and increment is made for them and never binds a name. -/
  bare : l.increment.isSome = true → ∀ n stage s, l.Course s₀ n (stage, s) →
    stage = .body ∨ (∃ e, stage = .increment e) →
    ∃ j f, s.env = f :: l.home s₀ ∧ (session.moments program j).state.frames.size = f ∧
      ∀ s', session.After source (j + 1) s' → ∀ x, s'.frames.binds f x = false
  /-- What the variables of condition and increment stand for. -/
  sees : ∀ n stage s e, l.Course s₀ n (stage, s) → l.part stage = .eval e →
    ∀ form ref, form = .read ∨ form = .write → ⟨form, ref⟩ ∈ e.references → l.Sees s₀ s ref
  /-- After the loop the names are visible that were visible before it. -/
  after : ∀ n r s, l.Course s₀ n (.finished r, s) → s.env = s₀.env ∧
    (l.init.isSome = true → ∀ f ∈ s₀.env, ∀ x, s.frames.binds f x = s₀.frames.binds f x)

namespace Session

variable {sources : List Bytes} {log : List Declaration} {session : Session} {source : Bytes}
  {program : List Stmt} {k : Nat} {ts : List Task} {l : ForLoop} {s₀ : State}

theorem Reached.runsLoop (hr : Reached sources log session) (ha : analyse source = .ok program)
    (hfor : l.keyword.kind = .kwFor) (hm : session.moments program k = ⟨.exec l.tree, ts, s₀⟩) :
    session.RunsLoop source program k l ts s₀ where
  stages n stage s h := by
    obtain ⟨j, hj⟩ := h.moment hm
    obtain ⟨tasks, htasks⟩ := l.exists_waiting s₀ ts stage
    rw [ForLoop.machine, htasks] at hj
    exact ⟨j, tasks, hj⟩
  ends r s := by
    rw [← ForLoop.ends_iff_finished]
    simp only [moments_add, hm]
    exact Machine.ends_iff.symm
  once _ _ _ := ForLoop.course_init_iff
  determined _ _ _ h h' := h.unique h'
  atOnce _ _ _ _ _ h hends hexits _ _ hj := h.atOnce hends hexits hj
  endless hcond _ _ h := h.endless hcond
  own hinit := by
    obtain ⟨i, hi⟩ := Option.isSome_iff_exists.1 hinit
    exact ForLoop.init_frame hr ha hm hi
  bare hincrement _ _ _ h hstage := by
    obtain ⟨e, he⟩ := Option.isSome_iff_exists.1 hincrement
    exact h.round hr ha hfor hm he hstage
  sees _ _ _ _ h hp _ _ hform href := h.sees hr ha hfor hm hp hform href
  after n r s h := by
    refine ⟨h.fits.2, fun hinit f hf x => ?_⟩
    obtain ⟨i, hi⟩ := Option.isSome_iff_exists.1 hinit
    have hlt := hr.env_lt ha hm f hf
    rcases h.encloses hr ha hm hi with hencloses | ⟨-, hnames⟩
    · exact hencloses.names f hlt x
    · exact hnames f hlt x

/-- **A `for` loop runs its clauses in their order.** Each `for` statement makes the tree of a loop
with its clauses, which resolving keeps. Whenever a run reaches such a tree, the initializer is run
once in a frame of its own; then condition, body and increment are run in turn until the condition
is false, or a part ends by `return` or by an error, which ends the loop. The frame around body and
increment never binds a name, so condition and increment see the variable of the initializer and
what is visible around the loop; and after the loop no more is visible than before it. -/
theorem for_loop_runs_clauses (hr : Reached sources log session)
    (ha : analyse source = .ok program) :
    (∀ (short : Bool) (stmt : Stmt) (kw : Token) (tokens : List Token),
      Grammar.Forms (.stmt short stmt) (kw :: tokens) → kw.kind = .kwFor →
      ∃ l₀ : ForLoop, Grammar.ForText short l₀ (kw :: tokens) ∧ stmt = l₀.tree ∧
        ∀ fn cls r, ∃ l : ForLoop, (Resolver.statement fn cls stmt r).1 = l.tree ∧
          l.keyword = kw ∧ l.init.isSome = l₀.init.isSome ∧ l.cond.isSome = l₀.cond.isSome ∧
          l.increment.isSome = l₀.increment.isSome) ∧
    ∀ (l : ForLoop) (k : Nat) (ts : List Task) (s₀ : State), l.keyword.kind = .kwFor →
      session.moments program k = ⟨.exec l.tree, ts, s₀⟩ →
      session.RunsLoop source program k l ts s₀ := by
  refine ⟨fun short stmt kw tokens hforms hkw => ?_, fun l k ts s₀ hfor hm =>
    hr.runsLoop ha hfor hm⟩
  obtain ⟨l₀, htext, rfl⟩ := Grammar.exists_forLoop hforms hkw
  have hkeyword : l₀.keyword = kw := by
    generalize hall : kw :: tokens = all at htext
    cases htext
    exact (List.cons.inj hall).1.symm
  subst hkeyword
  exact ⟨l₀, htext, rfl, fun fn cls r => l₀.exists_resolved fn cls r⟩

end Session

/-- The loop with all its clauses that a tree is made of. -/
def ForLoop.ofTree? : Stmt → Option ForLoop
  | .block kw [i, .loop kw₁ cond (.block kw₂ [body, .expr kw₃ e])] =>
    if kw.kind = .kwFor ∧ kw₁ = kw ∧ kw₂ = kw ∧ kw₃ = kw then
      some ⟨kw, some i, some cond, some e, body⟩
    else none
  | _ => none

/-- The loop with all its clauses that a machine is about to run. -/
def Machine.loop? (m : Machine) : Option ForLoop :=
  match m.focus with
  | .exec stmt => ForLoop.ofTree? stmt
  | _ => none

theorem Machine.eq_of_loop? {m : Machine} {l : ForLoop} (h : m.loop? = some l) :
    m = ⟨.exec l.tree, m.tasks, m.state⟩ ∧ l.keyword.kind = .kwFor := by
  obtain ⟨focus, tasks, s⟩ := m
  cases focus with
  | exec stmt =>
    replace h : ForLoop.ofTree? stmt = some l := h
    unfold ForLoop.ofTree? at h
    split at h
    · split at h
      · rename_i hkw
        obtain ⟨hfor, rfl, rfl, rfl⟩ := hkw
        cases h
        exact ⟨rfl, hfor⟩
      · cases h
    · cases h
  | _ => cases h

/-- A loop whose body makes functions, which is left by `return`. -/
def Session.searching : Bytes :=
  utf8 "fun find(n) \x7b
  for (var i = 0; i < n; i = i + 1) \x7b
    fun g() \x7b return i; \x7d
    if (i == 2) return g;
  \x7d
\x7d
print find(5)();"

/-- The tokens of `for (;;) {}` after the keyword. -/
def Session.bareClauses : List Token :=
  [⟨.leftParen, utf8 "(", 1⟩, ⟨.semicolon, utf8 ";", 1⟩, ⟨.semicolon, utf8 ";", 1⟩,
    ⟨.rightParen, utf8 ")", 1⟩, ⟨.leftBrace, utf8 "\x7b", 1⟩, ⟨.rightBrace, utf8 "\x7d", 1⟩]

theorem Session.for_loop_runs_clauses_searching :
    (∃ kw stmt l₀, kw.kind = .kwFor ∧ Grammar.Forms (.stmt false stmt) (kw :: bareClauses) ∧
      Grammar.ForText false l₀ (kw :: bareClauses) ∧ stmt = l₀.tree) ∧
    ∃ program l ts s₀, analyse searching = .ok program ∧ l.keyword.kind = .kwFor ∧
      Session.new.moments program 11 = ⟨.exec l.tree, ts, s₀⟩ ∧
      Session.new.RunsLoop searching program 11 l ts s₀ ∧
      ∃ n r s, l.Course s₀ n (.finished r, s) := by
  have h : ((analyse searching).toOption.any fun program =>
      (Session.new.moments program 11).loop?.isSome && (Session.new.moments program 300).halted) =
      true := by decide +kernel
  cases ha : analyse searching with
  | error problems => rw [ha] at h; cases h
  | ok program =>
    rw [ha] at h
    obtain ⟨hloop, hhalted⟩ := Bool.and_eq_true_iff.1 h
    obtain ⟨l, hl⟩ := Option.isSome_iff_exists.1 hloop
    obtain ⟨hm, hfor⟩ := Machine.eq_of_loop? hl
    have hr : Reached [] [] Session.new := .new false
    obtain ⟨htexts, hruns⟩ := for_loop_runs_clauses hr ha
    have hforms : Grammar.Forms (.stmt false _) (⟨.kwFor, utf8 "for", 1⟩ :: bareClauses) :=
      .forLoop rfl rfl (.absent rfl) .absent rfl .absent rfl (.block rfl .noDecls rfl)
        (.endless .loop)
    obtain ⟨l₀, htext, htree, -⟩ := htexts _ _ _ _ hforms rfl
    rw [show 300 = 11 + 289 from rfl, moments_add, hm] at hhalted
    obtain ⟨r, s, hends⟩ := Machine.exists_ends rfl hhalted
    obtain ⟨n, hn⟩ := ForLoop.ends_iff_finished.1 hends
    exact ⟨⟨_, _, l₀, rfl, hforms, htext, htree⟩, program, l, _, _, rfl, hfor, hm,
      hruns l 11 _ _ hfor hm, n, r, s, hn⟩

end Lox
