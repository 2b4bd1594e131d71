import Lox.Proofs.Machine.Agreement
import Lox.Proofs.Scope.Tidy
/-!
# Walking the chain

A machine that does not know distances looks every variable up by walking the chain of frames, to
the nearest one that binds the name. On tidy programs it makes the same steps: no frame on the way
to the one that the resolver meant ever binds the name.
-/

namespace Lox

/-! ## The walking machine -/

namespace Machine

/-- Reads a variable from the nearest frame that binds it. -/
def walkRead (name : Token) (tasks : List Task) (s : State) : Machine :=
  match s.frames.get? s.env name.lexeme with
  | some v => ⟨.value v, tasks, s⟩
  | none => ⟨.raised (.undefinedVariable name), tasks, s⟩

/-- One step without distances, except for `super`. -/
def walkStep : Machine → Machine
  | ⟨.eval (.var ref), tasks, s⟩ | ⟨.eval (.this ref), tasks, s⟩ => walkRead ref.name tasks s
  | ⟨.value v, .assign ref :: tasks, s⟩ => assignNearest s.env ref.name v (.value v) tasks s
  | m => m.step

/-- At most `fuel` steps without distances. -/
def walkRun (fuel : Nat) (m : Machine) : Machine :=
  match fuel with
  | 0 => m
  | fuel + 1 => if m.halted then m else walkRun fuel m.walkStep

end Machine

namespace Session

/-- What each of the sources brings forth, and the global variables after it. A source that does
not come to its end is the last. -/
def runAll (run : Bytes → Session → Report × Session) :
    List Bytes → Session → List (Report × Bindings Value)
  | [], _ => []
  | source :: rest, session =>
    let (report, session) := run source session
    (report, session.state.globals) ::
      if report.outcome.ended then runAll run rest session else []

end Session

/-- A source that is rejected or whose program is tidy. -/
def isTidy (source : Bytes) : Bool :=
  match analyse source with
  | .ok program => Stmt.listTidy program
  | .error _ => true

/-! ## Frames that a walk passes -/

variable {programs : List Stmt → Prop} {w : World} {s : State} {ls : List Layer}
  {ss : List Scope} (hprograms : ∀ program, programs program → Admissible program)
  (htidy : ∀ program, programs program →
    Stmt.listTidy (Resolver.statements .none .none program ⟨[], []⟩).1 = true)

include hprograms htidy in
theorem ExprAt.tidy {e : Expr} (h : ExprAt programs ls ss e) : ExprTidy ls ss e.references := by
  obtain ⟨cls, e₀, r, hv, rfl, rfl⟩ := h
  exact hv.tidy hprograms htidy

include hprograms htidy in
/-- A variable that is assigned to does not wait for its initializer. -/
theorem ExprAt.writable {ref : Ref} {e : Expr} (h : ExprAt programs ls ss (.assign ref e)) {d : Nat}
    (hd : ref.hops = some d) :
    ∃ scope, ss[d]? = some scope ∧ scope.get? ref.name.lexeme = some true := by
  obtain ⟨hpinned, -⟩ : Pinned ss ref ∧ _ := h.parts hprograms
  have hready := (h.tidy hprograms htidy).ready ref.name.lexeme List.mem_cons_self
  obtain ⟨cls, e₀, r, hv, rfl, -⟩ := h
  obtain ⟨scope, hs, hhas, -⟩ := hopsTo_some (hpinned.hops.symm.trans hd)
  obtain ⟨b, hb⟩ := Bindings.has_iff.1 hhas
  refine ⟨scope, hs, ?_⟩
  cases d with
  | zero =>
    cases b with
    | true => exact hb
    | false => exact absurd hb (hready scope (by rwa [List.head?_eq_getElem?]))
  | succ d =>
    have htail : scope ∈ r.scopes.tail :=
      List.mem_of_getElem? (i := d) (by rwa [List.getElem?_tail])
    rw [hb, (hv.sound hprograms).ready scope htail _ b hb]

/-- A scope that a reference is resolved past does not have the name. -/
theorem Pinned.not_has {ref : Ref} (h : Pinned ss ref) {i : Nat} {scope : Scope}
    (hpast : ref.hops.all (i < ·) = true) (hs : ss[i]? = some scope) :
    scope.has ref.name.lexeme = false := by
  cases hd : ref.hops with
  | none => exact hopsTo_none (h.hops.symm.trans hd) scope (List.mem_of_getElem? hs)
  | some d =>
    rw [hd] at hpast
    obtain ⟨_, -, -, hmin⟩ := hopsTo_some (h.hops.symm.trans hd)
    exact hmin i scope (by simpa using hpast) hs

namespace World

variable {chain : Chain}

theorem Matches.length (h : w.Matches chain ls ss) : ls.length = ss.length := by
  induction h with
  | globals => rfl
  | body _ _ _ _ ih => exact congrArg (· + 1) ih
  | this _ _ _ ih => exact congrArg (· + 1) ih
  | super _ _ _ _ ih => exact congrArg (· + 1) ih

/-- Past the frames of the open scopes there are the globals. -/
theorem Matches.drop_all (h : w.Matches chain ls ss) : chain.drop ls.length = globalChain := by
  induction h with
  | globals => rfl
  | body _ _ _ _ ih => exact ih
  | this _ _ _ ih => exact ih
  | super _ _ _ _ ih => exact ih

/-- The frame of a scope that a variable is resolved past does not bind the variable. -/
theorem StoreOk.unbound (h : w.StoreOk programs s) (hm : w.Matches s.env ls ss)
    {refs : List Reference} (ht : ExprTidy ls ss refs) {r : Reference} (hr : r ∈ refs)
    (hform : r.form = .read ∨ r.form = .write) (hp : Pinned ss r.ref) {i : Nat} {f : FrameId}
    (hpast : r.ref.hops.all (i < ·) = true) (hi : i < ls.length) (hf : s.env[i]? = some f) :
    s.frames.binds f r.ref.name.lexeme = false := by
  rw [Bool.eq_false_iff]
  intro hb
  have hl : w.layerOf f = some ls[i] := by
    rw [hm.layerOf h.globalLayer hf, List.getElem?_eq_getElem hi]
  have hallows := h.names f _ _ hl hb
  have hi' : i < ss.length := hm.length ▸ hi
  have hscope : ss[i]? = some ss[i] := List.getElem?_eq_getElem hi'
  cases hlayer : ls[i] with
  | body names =>
    rw [hlayer] at hallows
    have hlayers : ls[i]? = some (.body names) := hlayer ▸ List.getElem?_eq_getElem hi
    rcases ht.clear.kept i names _ hlayers hscope _ hallows with hhas | hnot | ⟨-, hown⟩
    · rw [hp.not_has hpast hscope] at hhas
      cases hhas
    · refine hnot (List.mem_filterMap.2 ⟨r, hr, ?_⟩)
      unfold Reference.past?
      rcases hform with hform | hform <;> rw [hform] <;> exact if_pos hpast
    · cases hown
  | this text =>
    rw [hlayer] at hallows
    exact not_ordinary_this (hallows ▸ hp.ordinary)
  | super text =>
    rw [hlayer] at hallows
    exact not_ordinary_super (hallows ▸ hp.ordinary)

/-- Only the frame that a variable is resolved to can be the nearest that binds it. -/
theorem StoreOk.passes (h : w.StoreOk programs s) (hm : w.Matches s.env ls ss)
    {refs : List Reference} (ht : ExprTidy ls ss refs) {r : Reference} (hr : r ∈ refs)
    (hform : r.form = .read ∨ r.form = .write) (hp : Pinned ss r.ref) :
    ∀ i f, i < r.ref.hops.getD ls.length → s.env[i]? = some f →
      s.frames.binds f r.ref.name.lexeme = false := by
  intro i f hi hf
  cases hd : r.ref.hops with
  | none =>
    rw [hd] at hi
    exact h.unbound hm ht hr hform hp (by rw [hd]; rfl) hi hf
  | some d =>
    rw [hd] at hi
    have hlen : d < ls.length := by
      obtain ⟨scope, hs, -⟩ := hopsTo_some (hp.hops.symm.trans hd)
      rw [hm.length]
      exact (List.getElem?_eq_some_iff.1 hs).1
    exact h.unbound hm ht hr hform hp (by simpa [hd] using hi) (Nat.lt_trans hi hlen) hf

include hprograms htidy

theorem StoreOk.walk_var (h : w.StoreOk programs s) (hm : w.Matches s.env ls ss) {ref : Ref}
    (hat : ExprAt programs ls ss (.var ref)) (tasks : List Task) :
    Machine.walkRead ref.name tasks s = Machine.eval (.var ref) tasks s := by
  have hread : Readable ss ref := hat.parts hprograms
  have hmem : (⟨.read, ref⟩ : Reference) ∈ (Expr.var ref).references := List.mem_cons_self
  have hpass := h.passes hm (hat.tidy hprograms htidy) hmem (.inl rfl) hread.toPinned
  simp only [Machine.walkRead, Machine.eval, State.read]
  cases hd : ref.hops with
  | none =>
    simp only [hd, Option.getD_none] at hpass
    rw [Frames.get?_drop hpass, hm.drop_all]
    cases s.frames.get? globalChain ref.name.lexeme <;> rfl
  | some d =>
    simp only [hd, Option.getD_some] at hpass
    obtain ⟨f, hf, hb⟩ := hm.varFrame hread hd
    obtain ⟨v, hv⟩ := Frames.binds_iff.1 (h.frames ▸ hb)
    simp only [Frames.get?_at hpass hf hv, Frames.getAt_of_lookup hf hv]

theorem StoreOk.walk_this (h : w.StoreOk programs s) (hm : w.Matches s.env ls ss) {ref : Ref}
    (hat : ExprAt programs ls ss (.this ref)) (tasks : List Task) :
    Machine.walkRead ref.name tasks s = Machine.eval (.this ref) tasks s := by
  have hthis : ThisAt ls ss ref := hat.parts hprograms
  have ht := hat.tidy hprograms htidy
  obtain ⟨d, f, o, hd, hf, hv⟩ := hm.thisFrame hthis
  rw [h.frames] at hv
  obtain ⟨hname, d', _, _, _, hd', hbodies, -⟩ := hthis
  cases hd.symm.trans hd'
  -- between here and the frame of `this` there are only frames of blocks and bodies
  have hpass : ∀ i g, i < d → s.env[i]? = some g →
      s.frames.binds g ref.name.lexeme = false := by
    intro i g hi hg
    obtain ⟨names, hl⟩ := hbodies i hi
    rw [Bool.eq_false_iff]
    intro hb
    have hmem := h.names g _ _ ((hm.layerOf h.globalLayer hg).trans hl) hb
    exact not_ordinary_this (hname ▸ ht.clear.ordinary names (List.mem_of_getElem? hl) _ hmem)
  simp only [Machine.walkRead, Machine.eval, State.read, hd, Frames.get?_at hpass hf hv,
    Frames.getAt_of_lookup hf hv]

theorem StoreOk.walk_assign (h : w.StoreOk programs s) (hm : w.Matches s.env ls ss) {ref : Ref}
    {e : Expr} (hat : ExprAt programs ls ss (.assign ref e)) (v : Value) (tasks : List Task) :
    Machine.assignNearest s.env ref.name v (.value v) tasks s = Machine.assign ref v tasks s := by
  obtain ⟨hpinned, -⟩ : Pinned ss ref ∧ _ := hat.parts hprograms
  have ht := hat.tidy hprograms htidy
  have hmem : (⟨.write, ref⟩ : Reference) ∈ (Expr.assign ref e).references := List.mem_cons_self
  have hpass := h.passes hm ht hmem (.inr rfl) hpinned
  unfold Machine.assign
  cases hd : ref.hops with
  | none =>
    simp only [hd, Option.getD_none] at hpass
    simp only [Machine.assignNearest]
    rw [Frames.nearest?_drop hpass, hm.drop_all]
  | some d =>
    simp only [hd, Option.getD_some] at hpass
    obtain ⟨scope, hscope, htrue⟩ := hat.writable hprograms htidy hd
    obtain ⟨f, hf, hb⟩ := hm.frame hscope
    have hnearest := Frames.nearest?_at hpass hf (h.frames ▸ hb _ htrue)
    simp only [Machine.assignNearest, hnearest, Frames.assignAt, hf]

theorem Invariant.walkStep {m : Machine} (h : w.Invariant programs m) : m.walkStep = m.step := by
  obtain ⟨focus, tasks, s⟩ := m
  obtain ⟨hs, hf⟩ := h
  cases focus with
  | eval e =>
    obtain ⟨ls, ss, hm, he, -⟩ := hf
    cases e with
    | var ref => exact hs.walk_var hprograms htidy hm he tasks
    | this ref => exact hs.walk_this hprograms htidy hm he tasks
    | _ => rfl
  | value v =>
    obtain ⟨-, ls, ss, hm, hw⟩ := hf
    cases hw with
    | operand ht _ =>
      cases ‹Task› with
      | assign ref =>
        obtain ⟨e, he⟩ := ht
        exact hs.walk_assign hprograms htidy hm he v _
      | _ => rfl
    | statement _ ht _ =>
      cases ‹Task› with
      | assign ref => exact ht.elim
      | _ => rfl
    | define _ _ _ _ => rfl
  | _ => rfl

theorem Invariant.walkRun (n : Nat) {m : Machine} (h : w.Invariant programs m) :
    m.walkRun n = m.run n := by
  induction n generalizing w m with
  | zero => rfl
  | succ n ih =>
    simp only [Machine.walkRun, Machine.run]
    split
    · rfl
    · obtain ⟨w', -, -, hstep⟩ := h.step hprograms
      rw [h.walkStep hprograms htidy]
      exact ih hstep

end World

namespace Session

variable {sources : List Bytes} {log : List Declaration} {session : Session}

/-- One source, in a session that tidy sources have led to. -/
theorem Reached.walk (h : Reached sources log session) {source : Bytes}
    (ht : ∀ src ∈ source :: sources, isTidy src = true) (fuel : Nat) :
    session.runOn Machine.walkRun fuel source = session.run fuel source := by
  have htidy : ∀ program, accepted (source :: sources) program →
      Stmt.listTidy (Resolver.statements .none .none program ⟨[], []⟩).1 = true := by
    rintro _ ⟨src, hsrc, ⟨program, ha⟩, rfl⟩
    have := ht src hsrc
    rw [isTidy, ha] at this
    rwa [← (analyse_ok ha).2]
  rw [run_eq_runOn]
  unfold runOn
  cases ha : analyse source with
  | error problems => rfl
  | ok program =>
    obtain ⟨w, -, hw⟩ := h.invariant accepted_admissible (fun _ h => h) ha 0
    have hrun : (session.machine program).walkRun fuel = (session.machine program).run fuel :=
      hw.walkRun accepted_admissible htidy fuel
    simp only [hrun]

theorem Reached.runAll_walk (fuel : Nat) {later : List Bytes} (h : Reached sources log session)
    (hs : ∀ source ∈ sources, isTidy source = true)
    (ht : ∀ source ∈ later, isTidy source = true) :
    runAll (Session.runOn Machine.walkRun fuel) later session =
      runAll (Session.run fuel) later session := by
  induction later generalizing sources log session with
  | nil => rfl
  | cons source rest ih =>
    have hall : ∀ src ∈ source :: sources, isTidy src = true := by
      intro src hsrc
      rcases List.mem_cons.1 hsrc with rfl | hsrc
      · exact ht _ List.mem_cons_self
      · exact hs src hsrc
    simp only [runAll]
    rw [h.walk hall fuel]
    split
    · rename_i hended
      rw [ih (.run h hended) hall fun src hsrc => ht src (List.mem_cons_of_mem _ hsrc)]
    · rfl

/-- **Distances and walks agree.** On any sources whose programs are tidy, running with distances
and walking the chain print the same lines, end in the same way and leave the same globals, source
by source, whatever the clock shows each time that it is read. -/
theorem walk_agrees_with_distances (fuel : Nat) (tracing : Bool) (now : Clock)
    (sources : List Bytes) (ht : ∀ source ∈ sources, isTidy source = true) :
    runAll (Session.runOn Machine.walkRun fuel) sources
        ⟨.clear, { State.initial with tracing, now }⟩ =
      runAll (Session.run fuel) sources ⟨.clear, { State.initial with tracing, now }⟩ :=
  Reached.runAll_walk fuel (.wait now (.new tracing)) (fun _ h => by cases h) ht

/-- A closure and a method, and a later source that hides a global that they use. -/
def closures : List Bytes :=
  [utf8 "var a = \"a\";
fun make() \x7b var i = \"i\"; fun next() \x7b i = i + a; return i; \x7d return next; \x7d
class A \x7b init(x) \x7b this.x = x; \x7d m() \x7b \x7b var y = this.x; return y; \x7d \x7d \x7d
var f = make();",
    utf8 "print f(); \x7b var a = A(f); print a.m()(); b = a; \x7d"]

theorem walk_agrees_with_distances_closures : (∀ source ∈ closures, isTidy source = true) ∧
    runAll (Session.runOn Machine.walkRun 400) closures Session.new =
      runAll (Session.run 400) closures Session.new := by
  have ht : ∀ source ∈ closures, isTidy source = true := by decide +kernel
  exact ⟨ht, walk_agrees_with_distances 400 false (.still 0) closures ht⟩

end Session

end Lox
