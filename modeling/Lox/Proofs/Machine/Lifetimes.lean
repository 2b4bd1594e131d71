import Lox.Proofs.Machine.Returning
import Lox.Proofs.Scope.ForLoops
/-!
# Frames of blocks, for as long as they live

A frame can outlive its block by far: functions made in the block keep it, and they can be called
in another source of the session. `Session.After` collects the stores that can be met from a moment
of a run on, be it in that run or in a later one. In all of them the frame of a block binds only
names that statements of the block declare (`Session.Reached.block_names`).
-/

namespace Lox

namespace Session

/-- The sessions that come about from a session. -/
inductive Follows (session : Session) : Session → Prop
  | refl : Follows session session
  | run {later : Session} {fuel : Nat} {source : Bytes} : Follows session later →
    (later.run fuel source).1.outcome.ended = true → Follows session (later.run fuel source).2
  | reset {later : Session} : Follows session later → Follows session later.reset
  | wait {later : Session} (now : Clock) : Follows session later →
    Follows session { later with state := { later.state with now } }

/-- The states from moment `k` of a run on, those of later runs of the session included. -/
inductive After (session : Session) (source : Bytes) (k : Nat) : State → Prop
  | moment {program : List Stmt} {n : Nat} : analyse source = .ok program → k ≤ n →
    After session source k (session.moments program n).state
  | later {fuel n : Nat} {later : Session} {source' : Bytes} {program' : List Stmt} :
    (session.run fuel source).1.outcome.ended = true →
    Follows (session.run fuel source).2 later → analyse source' = .ok program' →
    After session source k (later.moments program' n).state

end Session

variable {w : World} {session : Session} {source : Bytes} {program : List Stmt}

namespace World

theorem Rests.follows {later : Session} (hf : session.Follows later)
    (h : w.Rests Acceptable session.state) :
    ∃ w', w.Grows w' ∧ w'.Rests Acceptable later.state := by
  induction hf with
  | refl => exact ⟨w, .refl w, h⟩
  | @run later fuel source _ ho ih =>
    obtain ⟨w₁, hg₁, h₁⟩ := ih
    obtain ⟨w₂, hg₂, -, h₂⟩ := Session.rests_run Acceptable.admissible h₁
      (fun program ha => ⟨source, ⟨program, ha⟩, rfl⟩) ho
    exact ⟨w₂, hg₁.trans hg₂, h₂⟩
  | reset _ ih => exact ih
  | wait now _ ih =>
    obtain ⟨w₁, hg₁, h₁⟩ := ih
    exact ⟨w₁, hg₁, h₁.congr rfl rfl rfl rfl⟩

theorem Rests.moments {source : Bytes} (h : w.Rests Acceptable session.state)
    (ha : analyse source = .ok program) (n : Nat) :
    ∃ w', w.Grows w' ∧ w'.Invariant Acceptable (session.moments program n) := by
  obtain ⟨w', hg, -, hm⟩ := (h.machine ha ⟨source, ⟨program, ha⟩, rfl⟩).run Acceptable.admissible n
  exact ⟨w', hg, hm⟩

/-- The world at a moment of a run grows into all that come after. -/
theorem Invariant.after {k : Nat} {s : State} (ha : analyse source = .ok program)
    (h : w.Invariant Acceptable (session.moments program k)) (hs : session.After source k s) :
    ∃ w', w.Grows w' ∧ w'.StoreOk Acceptable s := by
  cases hs with
  | @moment program' n ha' hn =>
    obtain rfl : program = program' := by
      rw [ha] at ha'
      exact Except.ok.inj ha'
    obtain ⟨w', hg, -, hm⟩ := h.run Acceptable.admissible (n - k)
    rw [← Session.moments_add, Nat.add_sub_cancel' hn] at hm
    exact ⟨w', hg, hm.store⟩
  | @later fuel n later source' program' ho hf ha' =>
    obtain ⟨hhalted, hstate⟩ := Session.run_halted ha ho
    obtain ⟨w₁, hg₁, -, hm₁⟩ := h.run Acceptable.admissible fuel
    have hend : (session.moments program k).run fuel = (session.machine program).run fuel := by
      rw [← Session.moments_add, Nat.add_comm, Session.moments_add]
      exact Machine.run_of_halted hhalted k
    rw [hend] at hm₁
    have hrests : w₁.Rests Acceptable (session.run fuel source).2.state :=
      hstate ▸ hm₁.rests hhalted
    obtain ⟨w₂, hg₂, hrests⟩ := hrests.follows hf
    obtain ⟨w₃, hg₃, hm₃⟩ := hrests.moments ha' n
    exact ⟨w₃, hg₁.trans (hg₂.trans hg₃), hm₃.store⟩

end World

namespace Session.Reached

variable {sources : List Bytes} {log : List Declaration} {k : Nat} {tasks : List Task} {s : State}

/-- Every moment of every run is at a position of a source that is accepted. -/
theorem acceptable (hr : Reached sources log session) (ha : analyse source = .ok program)
    (n : Nat) : ∃ w : World, w.Invariant Acceptable (session.moments program n) := by
  obtain ⟨w, -, hw⟩ := hr.rests Acceptable.admissible fun program ⟨src, _, hp⟩ => ⟨src, hp⟩
  obtain ⟨w', -, hw'⟩ := hw.moments ha n
  exact ⟨w', hw'⟩

/-- **The frame of a block binds only what the block declares**, as long as it lives. -/
theorem block_names (hr : Reached sources log session) (ha : analyse source = .ok program)
    {token : Token} {body : List Stmt}
    (hm : session.moments program k = ⟨.exec (.block token body), tasks, s⟩) {s' : State}
    (hs' : session.After source (k + 1) s') {x : Bytes}
    (hx : s'.frames.binds s.frames.size x = true) : x ∈ declaredNames body := by
  obtain ⟨w, hw⟩ := hr.acceptable ha k
  rw [hm] at hw
  obtain ⟨hstore, ls, ss, ss', hmatch, hat, hwaits⟩ := hw
  obtain ⟨inner, hbody⟩ := hat.block
  obtain rfl : ss' = ss := hat.scopes_eq
  have hentered : (w.push (.body (declaredNames body)) []).Invariant Acceptable
      (session.moments program (k + 1)) := by
    rw [moments_succ, hm]
    exact hstore.enterBlock token hmatch hbody hwaits
  obtain ⟨w', hg, hstore'⟩ := hentered.after ha hs'
  exact hstore'.names _ x _ (hg.layers _ _ (hstore.layerOf_push _ _)) hx

end Session.Reached

end Lox
