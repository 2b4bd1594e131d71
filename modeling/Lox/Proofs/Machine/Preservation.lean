import Lox.Proofs.Machine.Calls
/-!
# The invariant is kept

Every step takes a machine that is at a position of the programs to another such machine, in a
world that has grown by what the step did (`World.Invariant.step`), and so does every run
(`World.Invariant.run`). On the way the world logs exactly the class declarations that the machine
has carried out.
-/

namespace Lox

variable {programs : List Stmt → Prop} {w : World} {s : State}
  (hprograms : ∀ program, programs program → Admissible program)

namespace World

/-! ## Expressions -/

theorem valueOk_applyUnary {op : UnaryOp} {v r : Value} (h : v.applyUnary op = .ok r) :
    w.ValueOk programs r := by
  unfold Value.applyUnary at h
  split at h <;> cases h <;> trivial

theorem valueOk_applyBinary {op : BinaryOp} {l v r : Value} (h : l.applyBinary op v = .ok r) :
    w.ValueOk programs r := by
  unfold Value.applyBinary at h
  split at h <;> cases h <;> first | trivial | skip
  unfold Value.applyNumeric
  split <;> trivial

theorem StoreOk.read (h : w.StoreOk programs s) {ref : Ref} {v : Value}
    (hv : s.read ref = .ok v) : w.ValueOk programs v := by
  rcases State.read_cases hv with rfl | ⟨f, hf⟩
  · trivial
  · exact h.values f _ v hf

theorem StoreOk.eval_ref (h : w.StoreOk programs s) (ref : Ref) {ls : List Layer}
    {ss : List Scope} {tasks : List Task} (hmatch : w.Matches s.env ls ss)
    (hw : w.Waits programs .value s.env ls ss tasks) :
    w.Leads programs [] (match s.read ref with
      | .ok v => ⟨.value v, tasks, s⟩
      | .error e => ⟨.raised e, tasks, s⟩) := by
  split
  · rename_i v hv
    exact .now h ⟨h.read hv, ls, ss, hmatch, hw⟩
  · exact .now h ⟨_, _, _, hw⟩

theorem StoreOk.eval_super (h : w.StoreOk programs s) {ref : Ref} {method : Token}
    {ls : List Layer} {ss : List Scope} {tasks : List Task} (hat : SuperAt ls ss ref)
    (hmatch : w.Matches s.env ls ss) (hw : w.Waits programs .value s.env ls ss tasks) :
    w.Leads programs [] (Machine.eval (.super ref method) tasks s) := by
  obtain ⟨n, D, t, f, o, sup, hhops, ht, hf, hD, -, -, hsup, hlook, hr⟩ :=
    hmatch.superFrames h.log hat
  obtain ⟨hanc, hclass, -⟩ := (h.log D hD).sub sup hsup
  have hthis : s.frames.lookup t (utf8 "this") = some (.obj o) := h.frames ▸ hr.2.2.1
  rw [Machine.eval_super hhops hf (h.frames ▸ hlook) ht hthis]
  cases hm : sup.findMethod method.lexeme with
  | none => exact .now h ⟨_, _, _, hw⟩
  | some m =>
    obtain ⟨d, hd, hsuffix, hget⟩ := hclass.findMethod h.log hm
    have hinherits : sup.lineage <:+ o.cls.lineage := by
      rw [← hanc]
      exact (List.suffix_cons D.cls.entry D.cls.ancestors).trans hr.2.2.2
    exact h.bound hd hget (hsuffix.trans hinherits) (h.values t _ _ hthis) hmatch hw

include hprograms in
theorem StoreOk.eval (h : w.StoreOk programs s) {e : Expr} {ls : List Layer} {ss : List Scope}
    {tasks : List Task} (hmatch : w.Matches s.env ls ss) (hat : ExprAt programs ls ss e)
    (hw : w.Waits programs .value s.env ls ss tasks) :
    w.Leads programs [] (Machine.eval e tasks s) := by
  have hparts := hat.parts hprograms
  have open_ : ∀ {e' task}, ExprAt programs ls ss e' → w.OperandTask programs ls ss task →
      w.Leads programs [] ⟨.eval e', task :: tasks, s⟩ :=
    fun he ht => .now h ⟨ls, ss, hmatch, he, .operand ht hw⟩
  cases e with
  | literal _ value => exact .now h ⟨by cases value <;> trivial, ls, ss, hmatch, hw⟩
  | grouping _ _ => exact .now h ⟨ls, ss, hmatch, hparts, hw⟩
  | unary _ _ _ => exact open_ hparts trivial
  | binary _ _ _ _ => exact open_ hparts.1 hparts.2
  | logical _ _ _ _ => exact open_ hparts.1 hparts.2
  | var ref => exact h.eval_ref ref hmatch hw
  | assign _ _ => exact open_ hparts.2 ⟨_, hat⟩
  | call _ _ _ => exact open_ hparts.1 hparts.2
  | get _ _ => exact open_ hparts trivial
  | set _ _ _ => exact open_ hparts.1 hparts.2
  | this ref => exact h.eval_ref ref hmatch hw
  | super _ _ => exact h.eval_super hparts hmatch hw

/-! ## Statements -/

include hprograms in
theorem StoreOk.exec (h : w.StoreOk programs s) {stmt : Stmt} {ls : List Layer}
    {ss ss' : List Scope} {tasks : List Task} (hmatch : w.Matches s.env ls ss)
    (hat : StmtAt programs ls ss ss' stmt) (hw : w.Waits programs .done s.env ls ss' tasks) :
    w.Leads programs (Machine.declares ⟨.exec stmt, tasks, s⟩) (Machine.exec stmt tasks s) := by
  have hparts := hat.parts hprograms
  have hready := hat.ready hprograms
  match stmt with
  | .expr _ _ =>
    obtain ⟨he, rfl⟩ := hparts
    exact .now h ⟨ls, ss', hmatch, he, .statement hready trivial hw⟩
  | .print _ _ =>
    obtain ⟨he, rfl⟩ := hparts
    exact .now h ⟨ls, ss', hmatch, he, .statement hready trivial hw⟩
  | .varDecl _ name none =>
    obtain ⟨rfl, hx, hl⟩ := hparts
    obtain ⟨w', hg, hlog, hstore, hm⟩ := h.defineHere (v := .nil) hmatch hx hl fun _ _ _ => trivial
    exact .later hg hlog (.now hstore ⟨_, _, hm, hw.mono hg⟩)
  | .varDecl _ name (some init) =>
    obtain ⟨rfl, hx, hl, he⟩ := hparts
    exact .now h ⟨ls, _, hmatch.declare hl, he, .define hready hx hl hw⟩
  | .block token body =>
    obtain ⟨rfl, names, inner, hbody⟩ := hparts
    exact h.leads_push (h.enterBlock token hmatch hbody hw)
  | .ifElse _ cond yes no =>
    obtain ⟨rfl, he, hyes, hno⟩ := hparts
    exact .now h ⟨ls, ss', hmatch, he, .statement hready ⟨hyes, hno⟩ hw⟩
  | .loop _ cond body =>
    obtain ⟨rfl, he, hbody⟩ := hparts
    exact .now h ⟨ls, ss', hmatch, he, .statement hready ⟨he, hbody⟩ hw⟩
  | .funDecl decl =>
    obtain ⟨rfl, hx, hl, hfun⟩ := hparts
    have hnumbered : w.StoreOk programs { s with nextId := s.nextId + 1 } :=
      h.congr rfl rfl (Nat.le_succ _)
    obtain ⟨w', hg, hlog, hstore, hm⟩ :=
      hnumbered.defineHere (v := .function ⟨s.nextId, decl, s.env, false⟩) hmatch hx hl
        fun w' hg hm => .inl ⟨rfl, _, _, hm, hfun⟩
    exact .later hg hlog (.now hstore ⟨_, _, hm, hw.mono hg⟩)
  | .ret _ none => exact .now h ⟨trivial, _, _, _, hw⟩
  | .ret _ (some value) =>
    obtain ⟨rfl, he⟩ := hparts
    exact .now h ⟨ls, ss', hmatch, he, .statement hready trivial hw⟩
  | .classDecl _ name none methods =>
    obtain ⟨rfl, hx, hl, -, hmethods⟩ := hparts
    obtain ⟨w', hg, hlog, hstore, hm⟩ := h.defineHere (v := .nil) hmatch hx hl fun _ _ _ => trivial
    exact .later hg hlog (hstore.declareClass hx rfl (fun c hc => by cases hc) hmethods hm
      (hw.mono hg))
  | .classDecl _ name (some ref) methods =>
    obtain ⟨rfl, hx, hl, hvar, hmethods⟩ := hparts
    obtain ⟨w', hg, hlog, hstore, hm⟩ := h.defineHere (v := .nil) hmatch hx hl fun _ _ _ => trivial
    exact .later hg hlog (.now hstore ⟨ls, _, hm, hvar ref rfl,
      .statement (Resolver.ready_marked hready) ⟨hx, hl, hmethods⟩ (hw.mono hg)⟩)

/-! ## Waiting tasks -/

theorem declares_value {v : Value} {task : Task} {tasks : List Task}
    (h : ∀ name ref ms, task ≠ .superclass name ref ms) :
    Machine.declares ⟨.value v, task :: tasks, s⟩ = [] := by
  unfold Machine.declares
  split
  · rename_i heq
    cases heq
  · rename_i heq
    cases heq
    exact absurd rfl (h _ _ _)
  · rfl

include hprograms in
theorem StoreOk.resume_operand (h : w.StoreOk programs s) {v : Value} {task : Task}
    {ls : List Layer} {ss : List Scope} {tasks : List Task} (hv : w.ValueOk programs v)
    (ht : w.OperandTask programs ls ss task) (hmatch : w.Matches s.env ls ss)
    (hw : w.Waits programs .value s.env ls ss tasks) :
    w.Leads programs [] (Machine.resume v task tasks s) := by
  have give : ∀ {v}, w.ValueOk programs v → w.Leads programs [] ⟨.value v, tasks, s⟩ :=
    fun hv => .now h ⟨hv, ls, ss, hmatch, hw⟩
  have raise : ∀ e, w.Leads programs [] ⟨.raised e, tasks, s⟩ := fun _ => .now h ⟨_, _, _, hw⟩
  have open_ : ∀ {e task}, ExprAt programs ls ss e → w.OperandTask programs ls ss task →
      w.Leads programs [] ⟨.eval e, task :: tasks, s⟩ :=
    fun he ht => .now h ⟨ls, ss, hmatch, he, .operand ht hw⟩
  cases task with
  | unary op token =>
    simp only [Machine.resume]
    split
    · exact give (valueOk_applyUnary ‹_›)
    · exact raise _
  | binaryRight op token right => exact open_ ht hv
  | binary op token left =>
    simp only [Machine.resume]
    split
    · exact give (valueOk_applyBinary ‹_›)
    · exact raise _
  | logical op right =>
    simp only [Machine.resume]
    split
    · exact give hv
    · exact .now h ⟨ls, ss, hmatch, ht, hw⟩
  | assign ref =>
    obtain ⟨e, he⟩ := ht
    exact h.assign hprograms he hv hmatch hw
  | callee paren args =>
    cases args with
    | nil => exact h.call hprograms hv (fun v hv => by cases hv) hmatch hw
    | cons arg rest =>
      obtain ⟨he, hrest⟩ := ExprsAt.parts ht
      exact open_ he ⟨hv, (fun v hv => by cases hv), hrest⟩
  | argument paren callee done args =>
    obtain ⟨hc, hdone, hargs⟩ := ht
    have hall : ∀ u ∈ v :: done, w.ValueOk programs u := by
      intro u hu
      rcases List.mem_cons.1 hu with rfl | hu
      · exact hv
      · exact hdone u hu
    cases args with
    | nil => exact h.call hprograms hc (fun u hu => hall u (List.mem_reverse.1 hu)) hmatch hw
    | cons arg rest =>
      obtain ⟨he, hrest⟩ := hargs.parts
      exact open_ he ⟨hc, hall, hrest⟩
  | get name =>
    cases v with
    | obj o =>
      have ho : w.ClassOk o.cls := hv
      simp only [Machine.resume, State.property?]
      cases hfield : s.field? o name.lexeme with
      | some u => exact give (h.fields o _ u hfield)
      | none =>
        cases hm : o.cls.findMethod name.lexeme with
        | none => exact raise _
        | some m =>
          obtain ⟨d, hd, hsuffix, hget⟩ := ho.findMethod h.log hm
          exact h.bound hd hget hsuffix ho hmatch hw
    | _ => exact raise _
  | setObject name value =>
    cases v with
    | obj o => exact open_ ht hv
    | _ => exact raise _
  | setField o name => exact .now (h.setField hv) ⟨hv, ls, ss, hmatch, hw⟩
  | _ => exact ht.elim

theorem StoreOk.resume_statement (h : w.StoreOk programs s) {v : Value} {task : Task}
    {ls : List Layer} {ss : List Scope} {tasks : List Task} (hv : w.ValueOk programs v)
    (ht : StatementTask programs ls ss task) (hmatch : w.Matches s.env ls ss)
    (hw : w.Waits programs .done s.env ls ss tasks) :
    w.Leads programs (Machine.declares ⟨.value v, task :: tasks, s⟩)
      (Machine.resume v task tasks s) := by
  have finish : w.Leads programs [] ⟨.done, tasks, s⟩ := .now h ⟨ls, ss, hmatch, hw⟩
  have run : ∀ {stmt}, StmtAt programs ls ss ss stmt → w.Leads programs [] ⟨.exec stmt, tasks, s⟩ :=
    fun hs => .now h ⟨ls, ss, ss, hmatch, hs, hw⟩
  cases task with
  | discard =>
    rw [declares_value (by intros; simp)]
    exact finish
  | print =>
    rw [declares_value (by intros; simp)]
    exact .now (h.congr rfl rfl (Nat.le_refl _)) ⟨ls, ss, hmatch, hw⟩
  | ret =>
    rw [declares_value (by intros; simp)]
    exact .now h ⟨hv, _, _, _, hw⟩
  | choose yes no =>
    rw [declares_value (by intros; simp)]
    obtain ⟨hyes, hno⟩ := ht
    simp only [Machine.resume]
    split
    · exact run hyes
    · split
      · exact run (hno _ rfl)
      · exact finish
  | loopTest cond body =>
    rw [declares_value (by intros; simp)]
    simp only [Machine.resume]
    split
    · exact .now h ⟨ls, ss, ss, hmatch, ht.2, .loopBody ht.1 ht.2 hw⟩
    · exact finish
  | superclass name ref methods =>
    obtain ⟨hx, -, hmethods⟩ := ht
    cases v with
    | cls c =>
      rw [Machine.resume, Machine.declares]
      refine h.declareClass hx rfl (fun c' hc => ?_) hmethods hmatch hw
      cases hc
      exact hv
    | _ => exact .now h ⟨_, _, _, hw⟩
  | _ => exact ht.elim

include hprograms in
theorem StoreOk.resume (h : w.StoreOk programs s) {v : Value} {task : Task}
    {ls : List Layer} {ss : List Scope} {tasks : List Task} (hv : w.ValueOk programs v)
    (hmatch : w.Matches s.env ls ss)
    (hw : w.Waits programs .value s.env ls ss (task :: tasks)) :
    w.Leads programs (Machine.declares ⟨.value v, task :: tasks, s⟩)
      (Machine.resume v task tasks s) := by
  cases hw with
  | operand ht hw =>
    rw [declares_value fun name ref ms heq => by subst heq; exact ht]
    exact h.resume_operand hprograms hv ht hmatch hw
  | statement _ ht hw => exact h.resume_statement hv ht hmatch hw
  | define _ hx hl hw =>
    rw [declares_value (by intros; simp)]
    obtain ⟨w', hg, hlog, hstore, hm⟩ := h.defineHere hmatch hx hl fun _ hg _ => hv.mono hg
    rw [Resolver.marked_marked] at hm
    exact .later hg hlog (.now hstore ⟨ls, _, hm, hw.mono hg⟩)

theorem StoreOk.exitValue (h : w.StoreOk programs s) {v : Value} {exit : CallExit}
    (hv : w.ValueOk programs v) (he : w.ExitOk exit) :
    w.ValueOk programs (Machine.exitValue s v exit) := by
  cases exit with
  | returned => exact hv
  | receiver chain => exact h.getAt _ _ _
  | object o => exact he

theorem StoreOk.leave (h : w.StoreOk programs s) (saved : Chain) :
    w.StoreOk programs (s.leave saved) :=
  h.congr (State.frames_leave _ _) (State.fields_leave _ _)
    (Nat.le_of_eq (State.nextId_leave _ _).symm)

include hprograms in
/-- At the top level no scope is open, before and after each statement. -/
theorem stmtAt_top {ls : List Layer} {ss : List Scope} {stmt : Stmt}
    (h : StmtAt programs ls [] ss stmt) : ss = [] := by
  obtain ⟨fn, cls, s₀, r, hv, hr, -, rfl⟩ := h
  rw [Resolver.statement_scopes fn cls s₀ (hv.sound hprograms).proper, hr, Resolver.afterStmt]
  cases s₀.declared? <;> rfl

include hprograms in
theorem StoreOk.proceed (h : w.StoreOk programs s) {task : Task} {ls : List Layer}
    {ss : List Scope} {tasks : List Task} (hmatch : w.Matches s.env ls ss)
    (hw : w.Waits programs .done s.env ls ss (task :: tasks)) :
    w.Leads programs [] (Machine.proceed task tasks s) := by
  generalize henv : s.env = env at hmatch hw
  have here : ∀ {focus tasks}, w.FocusOk programs env tasks focus →
      w.Leads programs [] ⟨focus, tasks, s⟩ := fun hf => .now h (henv ▸ hf)
  cases hw with
  | @program rest inner hs =>
    cases rest with
    | nil => exact here ⟨[], [], hmatch, .halt⟩
    | cons stmt rest =>
      obtain ⟨ss', hstmt, hrest⟩ := hs.parts
      obtain rfl := stmtAt_top hprograms hstmt
      exact here ⟨[], [], [], hmatch, hstmt, .program hrest⟩
  | loopBody hc hb hw =>
    exact here ⟨ls, ss, hmatch, hc, .statement (hb.ready hprograms) ⟨hc, hb⟩ hw⟩
  | @sequence _ _ _ inner _ rest hs hw =>
    cases rest with
    | nil =>
      obtain rfl := hs.scopes_eq_of_nil
      exact here ⟨ls, _, hmatch, hw⟩
    | cons stmt rest =>
      obtain ⟨ss', hstmt, hrest⟩ := hs.parts
      exact here ⟨ls, ss, ss', hmatch, hstmt, .sequence hrest hw⟩
  | leave hm hw => exact .now (h.leave _) ⟨_, _, hm, hw⟩
  | endCall he hm hw =>
    exact .now (h.congr rfl rfl (Nat.le_refl _))
      ⟨h.exitValue trivial he, _, _, henv ▸ hm, henv ▸ hw⟩

/-! ## Ways out -/

/-- What waits behind a task. A `return` or an error drops the task, unless it leaves a frame or
ends a call or a program. -/
def Behind (programs : List Stmt → Prop) (w : World) (env : Chain) (tasks : List Task) :
    Task → Prop
  | .leave saved => ∃ ls ss, w.Waits programs .done saved ls ss tasks
  | .endCall exit => w.ExitOk exit ∧ ∃ ls ss, w.Matches env ls ss ∧
      w.Waits programs .value env ls ss tasks
  | .program rest => env = globalChain ∧ tasks = [] ∧ ∃ inner, StmtsAt programs [] [] inner rest
  | _ => ∃ a ls ss, w.Waits programs a env ls ss tasks

theorem Waits.behind {task : Task} {a : Awaited} {env : Chain} {ls : List Layer}
    {ss : List Scope} {tasks : List Task} (h : w.Waits programs a env ls ss (task :: tasks)) :
    w.Behind programs env tasks task := by
  cases h with
  | program hs => exact ⟨rfl, rfl, _, hs⟩
  | operand ht hw =>
    cases task with
    | leave _ | endCall _ | program _ => exact ht.elim
    | _ => exact ⟨_, _, _, hw⟩
  | statement _ ht hw =>
    cases task with
    | leave _ | endCall _ | program _ => exact ht.elim
    | _ => exact ⟨_, _, _, hw⟩
  | define _ _ _ hw => exact ⟨_, _, _, hw⟩
  | loopBody _ _ hw => exact ⟨_, _, _, hw⟩
  | sequence _ hw => exact ⟨_, _, _, hw⟩
  | leave _ hw => exact ⟨_, _, hw⟩
  | endCall he hm hw => exact ⟨he, _, _, hm, hw⟩

theorem StoreOk.unwindReturn (h : w.StoreOk programs s) {v : Value} {task : Task}
    {tasks : List Task} (hv : w.ValueOk programs v) (hb : w.Behind programs s.env tasks task) :
    w.Leads programs [] (Machine.unwindReturn v task tasks s) := by
  cases task with
  | leave saved =>
    obtain ⟨_, _, hw⟩ := hb
    exact .now (h.leave saved) ⟨hv, _, _, _, hw⟩
  | endCall exit =>
    obtain ⟨he, ls, ss, hm, hw⟩ := hb
    exact .now (h.congr rfl rfl (Nat.le_refl _)) ⟨h.exitValue hv he, ls, ss, hm, hw⟩
  | program rest =>
    obtain ⟨henv, rfl, inner, hs⟩ := hb
    refine .now h ⟨[], [], ?_⟩
    show w.Matches s.env [] [] ∧ w.Waits programs .done s.env [] [] [.program rest]
    rw [henv]
    exact ⟨.globals, .program hs⟩
  | _ =>
    obtain ⟨_, _, _, hw⟩ := hb
    exact .now h ⟨hv, _, _, _, hw⟩

theorem StoreOk.unwindError (h : w.StoreOk programs s) {e : RuntimeError} {task : Task}
    {tasks : List Task} (hb : w.Behind programs s.env tasks task) :
    w.Leads programs [] (Machine.unwindError e task tasks s) := by
  cases task with
  | leave saved =>
    obtain ⟨_, _, hw⟩ := hb
    exact .now (h.leave saved) ⟨_, _, _, hw⟩
  | endCall exit =>
    obtain ⟨-, ls, ss, -, hw⟩ := hb
    exact .now (h.congr rfl rfl (Nat.le_refl _)) ⟨_, _, _, hw⟩
  | program rest =>
    obtain ⟨henv, rfl, -⟩ := hb
    refine .now h ⟨.done, [], [], ?_⟩
    show w.Waits programs .done s.env [] [] []
    rw [henv]
    exact .halt
  | _ =>
    obtain ⟨_, _, _, hw⟩ := hb
    exact .now h ⟨_, _, _, hw⟩

/-! ## Steps and runs -/

include hprograms in
/-- **A step keeps the invariant**, and the world logs the class it declares. -/
theorem Invariant.step {m : Machine} (h : w.Invariant programs m) :
    w.Leads programs m.declares m.step := by
  obtain ⟨focus, tasks, s⟩ := m
  obtain ⟨hs, hf⟩ := h
  cases focus with
  | eval e =>
    obtain ⟨ls, ss, hm, he, hw⟩ := hf
    exact hs.eval hprograms hm he hw
  | exec stmt =>
    obtain ⟨ls, ss, ss', hm, hstmt, hw⟩ := hf
    exact hs.exec hprograms hm hstmt hw
  | value v =>
    obtain ⟨hv, ls, ss, hm, hw⟩ := hf
    cases tasks with
    | nil => cases hw
    | cons task tasks => exact hs.resume hprograms hv hm hw
  | done =>
    cases tasks with
    | nil => exact .now hs hf
    | cons task tasks =>
      obtain ⟨ls, ss, hm, hw⟩ := hf
      exact hs.proceed hprograms hm hw
  | returned v =>
    cases tasks with
    | nil => exact .now hs hf
    | cons task tasks =>
      obtain ⟨hv, _, _, _, hw⟩ := hf
      exact hs.unwindReturn hv hw.behind
  | raised e =>
    cases tasks with
    | nil => exact .now hs hf
    | cons task tasks =>
      obtain ⟨_, _, _, hw⟩ := hf
      exact hs.unwindError hw.behind

end World

/-- The class declarations that a machine carries out in so many steps, newest first. -/
def Machine.declared : Nat → Machine → List Declaration
  | 0, _ => []
  | n + 1, m => if m.halted then [] else m.step.declared n ++ m.declares

include hprograms in
/-- **A run keeps the invariant**, and the world logs the classes it declares. -/
theorem World.Invariant.run (n : Nat) {m : Machine} (h : w.Invariant programs m) :
    w.Leads programs (m.declared n) (m.run n) := by
  induction n generalizing w m with
  | zero => exact ⟨w, .refl w, rfl, h⟩
  | succ n ih =>
    simp only [Machine.declared, Machine.run]
    split
    · exact ⟨w, .refl w, rfl, h⟩
    · obtain ⟨w', hg, hlog, hstep⟩ := h.step hprograms
      obtain ⟨w'', hg', hlog', hrun⟩ := ih hstep
      exact ⟨w'', hg.trans hg', by rw [hlog', hlog, List.append_assoc], hrun⟩

end Lox
