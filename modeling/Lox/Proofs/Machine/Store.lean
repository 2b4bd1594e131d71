import Lox.Proofs.Machine.Invariant
/-!
# Changes of the store

What the machine does to its store: binding a name, adding a frame, adding a function, a class or
an object, setting a field. Each keeps the store in order, in a world that has grown by it.
-/

namespace Lox

variable {programs : List Stmt → Prop} {w : World} {s s' : State}

namespace State

variable (s : State) (e : TraceEvent) (chain : Chain)

@[simp] theorem frames_log : (s.log e).frames = s.frames := by unfold log; split <;> rfl

@[simp] theorem fields_log : (s.log e).fields = s.fields := by unfold log; split <;> rfl

@[simp] theorem nextId_log : (s.log e).nextId = s.nextId := by unfold log; split <;> rfl

@[simp] theorem env_log : (s.log e).env = s.env := by unfold log; split <;> rfl

@[simp] theorem frames_enter : (s.enter chain).frames = s.frames := by simp [enter]

@[simp] theorem fields_enter : (s.enter chain).fields = s.fields := by simp [enter]

@[simp] theorem nextId_enter : (s.enter chain).nextId = s.nextId := by simp [enter]

@[simp] theorem env_enter : (s.enter chain).env = chain := by simp [enter]

@[simp] theorem frames_leave : (s.leave chain).frames = s.frames := by simp [leave]

@[simp] theorem fields_leave : (s.leave chain).fields = s.fields := by simp [leave]

@[simp] theorem nextId_leave : (s.leave chain).nextId = s.nextId := by simp [leave]

end State

namespace World

/-- The world after a frame has bound a name. -/
def define (w : World) (f : FrameId) (x : Bytes) (v : Value) : World :=
  { w with frames := w.frames.define f x v }

/-- The world with another frame, made for the given text. -/
def push (w : World) (l : Layer) (vars : Bindings Value) : World :=
  { w with
    frames := w.frames.push vars
    layerOf := fun f => if f = w.frames.size then some l else w.layerOf f }

/-- The world after a class declaration. -/
def record (w : World) (d : Declaration) : World := { w with log := d :: w.log }

theorem grows_define {f : FrameId} {x : Bytes} {v : Value} (hx : Ordinary x) :
    w.Grows (w.define f x v) := by
  refine ⟨fun _ _ h => h, fun g y h => Frames.binds_define h, fun g y u hy hu => ?_,
    fun _ h => h⟩
  have hne : x ≠ y := fun h => hy (h ▸ hx)
  exact (Frames.lookup_define_of_ne (.inr hne)).trans hu

theorem grows_record (d : Declaration) : w.Grows (w.record d) :=
  ⟨fun _ _ h => h, fun _ _ h => h, fun _ _ _ _ h => h, fun _ h => List.mem_cons_of_mem _ h⟩

namespace StoreOk

theorem congr (h : w.StoreOk programs s) (hf : s'.frames = s.frames)
    (hfields : s'.fields = s.fields) (hid : s.nextId ≤ s'.nextId) : w.StoreOk programs s' where
  frames := h.frames.trans hf.symm
  globals := hf ▸ h.globals
  globalLayer := h.globalLayer
  fresh := fun f l hl => hf ▸ h.fresh f l hl
  values := fun f x v hv => h.values f x v (hf ▸ hv)
  names := fun f x l hl hb => h.names f x l hl (hf ▸ hb)
  fields := fun o x v hv => h.fields o x v (by rwa [State.field?, hfields] at hv)
  log := h.log
  ids := fun d hd => Nat.lt_of_lt_of_le (h.ids d hd) hid

theorem getAt (h : w.StoreOk programs s) (chain : Chain) (d : Nat) (x : Bytes) :
    w.ValueOk programs (s.frames.getAt chain d x) := by
  rcases s.frames.getAt_cases chain d x with hnil | ⟨f, hv⟩
  · rw [hnil]
    trivial
  · exact h.values f x _ hv

theorem define {f : FrameId} {x : Bytes} {v : Value} (h : w.StoreOk programs s)
    (hx : Ordinary x) (hv : (w.define f x v).ValueOk programs v)
    (ha : ∀ l, w.layerOf f = some l → l.Allows x) :
    (w.define f x v).StoreOk programs { s with frames := s.frames.define f x v } := by
  have hg : w.Grows (w.define f x v) := grows_define hx
  refine ⟨?_, ?_, h.globalLayer, fun g l hl => ?_, fun g y u hu => ?_, fun g y l hl hb => ?_,
    fun o y u hu => (h.fields o y u hu).mono hg, fun d hd => (h.log d hd).mono hg, h.ids⟩
  · show w.frames.define f x v = _
    rw [h.frames]
  · exact Nat.lt_of_lt_of_eq h.globals Frames.size_define.symm
  · exact Nat.lt_of_lt_of_eq (h.fresh g l hl) Frames.size_define.symm
  · rcases Frames.lookup_define_cases hu with ⟨-, -, rfl⟩ | hu
    · exact hv
    · exact (h.values g y u hu).mono hg
  · obtain ⟨u, hu⟩ := Frames.binds_iff.1 hb
    rcases Frames.lookup_define_cases hu with ⟨rfl, rfl, -⟩ | hu
    · exact ha l hl
    · exact h.names g y l hl (Frames.binds_iff.2 ⟨u, hu⟩)

theorem grows_push (h : w.StoreOk programs s) (l : Layer) (vars : Bindings Value) :
    w.Grows (w.push l vars) := by
  refine ⟨fun f l' hl => ?_, fun f x hb => ?_, fun f x v _ hv => Frames.lookup_push_of_some hv,
    fun _ hd => hd⟩
  · have hlt : f < w.frames.size := h.frames ▸ h.fresh f l' hl
    show (if f = w.frames.size then some l else w.layerOf f) = some l'
    rw [if_neg (Nat.ne_of_lt hlt)]
    exact hl
  · obtain ⟨v, hv⟩ := Frames.binds_iff.1 hb
    exact Frames.binds_iff.2 ⟨v, Frames.lookup_push_of_some hv⟩

theorem push (h : w.StoreOk programs s) {l : Layer} {vars : Bindings Value}
    (hvals : ∀ x v, vars.get? x = some v → w.ValueOk programs v)
    (hnames : ∀ x, vars.has x = true → l.Allows x) :
    (w.push l vars).StoreOk programs { s with frames := s.frames.push vars } := by
  have hg := h.grows_push l vars
  have hsize : Array.size (s.frames.push vars) = s.frames.size + 1 := Array.size_push _
  have hold : ∀ f l', (w.push l vars).layerOf f = some l' →
      (f = s.frames.size ∧ l' = l) ∨ w.layerOf f = some l' := by
    intro f l' hl
    have hl : (if f = w.frames.size then some l else w.layerOf f) = some l' := hl
    split at hl
    · rename_i hf
      cases hl
      exact .inl ⟨h.frames ▸ hf, rfl⟩
    · exact .inr hl
  refine ⟨?_, ?_, ?_, fun f l' hl => ?_, fun f x v hv => ?_, fun f x l' hl hb => ?_,
    fun o x v hv => (h.fields o x v hv).mono hg, fun d hd => (h.log d hd).mono hg, h.ids⟩
  · show Array.push w.frames vars = _
    rw [h.frames]
  · exact hsize ▸ Nat.lt_succ_of_lt h.globals
  · show (if globalFrame = w.frames.size then some l else w.layerOf globalFrame) = none
    rw [if_neg (h.frames ▸ Nat.ne_of_lt h.globals)]
    exact h.globalLayer
  · rw [hsize]
    rcases hold f l' hl with ⟨rfl, -⟩ | hl
    · exact Nat.lt_succ_self _
    · exact Nat.lt_succ_of_lt (h.fresh f l' hl)
  · rcases Frames.lookup_push_cases hv with ⟨-, hv⟩ | hv
    · exact (hvals x v hv).mono hg
    · exact (h.values f x v hv).mono hg
  · obtain ⟨v, hv⟩ := Frames.binds_iff.1 hb
    rcases hold f l' hl with ⟨rfl, rfl⟩ | hl
    · rcases Frames.lookup_push_cases hv with ⟨-, hv⟩ | hv
      · exact hnames x (Bindings.has_iff.2 ⟨v, hv⟩)
      · exact absurd (Frames.lookup_eq_some_lt hv) (Nat.lt_irrefl _)
    · rcases Frames.lookup_push_cases hv with ⟨rfl, -⟩ | hv
      · exact absurd (h.fresh _ _ hl) (Nat.lt_irrefl _)
      · exact h.names f x l' hl (Frames.binds_iff.2 ⟨v, hv⟩)

theorem layerOf_push (h : w.StoreOk programs s) (l : Layer) (vars : Bindings Value) :
    (w.push l vars).layerOf s.frames.size = some l := by
  show (if s.frames.size = w.frames.size then some l else w.layerOf s.frames.size) = some l
  rw [if_pos (by rw [h.frames])]

theorem lookup_push (h : w.StoreOk programs s) (l : Layer) (vars : Bindings Value) (x : Bytes) :
    (w.push l vars).frames.lookup s.frames.size x = vars.get? x := by
  show Frames.lookup (Array.push w.frames vars) s.frames.size x = vars.get? x
  rw [h.frames]
  exact Frames.lookup_push_new

theorem setField (h : w.StoreOk programs s) {o : Instance} {x : Bytes} {v : Value}
    (hv : w.ValueOk programs v) : w.StoreOk programs (s.setField o x v) := by
  refine ⟨h.frames, h.globals, h.globalLayer, h.fresh, h.values, h.names, fun p y u hu => ?_,
    h.log, h.ids⟩
  rcases State.field?_setField_cases hu with rfl | hu
  · exact hv
  · exact h.fields p y u hu

theorem newObject (h : w.StoreOk programs s) (c : Class) :
    w.StoreOk programs (s.newObject c).2 :=
  ⟨h.frames, h.globals, h.globalLayer, h.fresh, h.values, h.names,
    fun p y u hu => h.fields p y u (State.field?_of_newObject hu), h.log, h.ids⟩

theorem record (h : w.StoreOk programs s) {d : Declaration}
    (hd : (w.record d).DeclarationOk programs d) (hid : d.cls.entry.id < s.nextId) :
    (w.record d).StoreOk programs s := by
  have hg : w.Grows (w.record d) := grows_record d
  refine ⟨h.frames, h.globals, h.globalLayer, h.fresh, fun f x v hv => (h.values f x v hv).mono hg,
    h.names, fun o x v hv => (h.fields o x v hv).mono hg, fun d' hd' => ?_, fun d' hd' => ?_⟩
  · rcases List.mem_cons.1 hd' with rfl | hd'
    · exact hd
    · exact (h.log d' hd').mono hg
  · rcases List.mem_cons.1 hd' with rfl | hd'
    · exact hid
    · exact h.ids d' hd'

end StoreOk

/-! ## Names of the innermost frame -/

theorem Matches.ne_nil {chain : Chain} {ls : List Layer} {ss : List Scope}
    (h : w.Matches chain ls ss) : ∃ f outer, chain = f :: outer := by
  cases h <;> exact ⟨_, _, rfl⟩

/-- A name whose initializer has not finished need not be bound yet. -/
theorem Matches.declare {chain : Chain} {ls : List Layer} {ss : List Scope} {x : Bytes}
    (h : w.Matches chain ls ss) (hx : Layer.Holds ls x) :
    w.Matches chain ls (Resolver.marked x false ss) := by
  cases h with
  | globals => exact .globals
  | body hm hl hg hb =>
    refine .body hm hl hg fun y hy => ?_
    rw [Bindings.get?_insert] at hy
    split at hy
    · cases hy
    · exact hb y hy
  | this _ _ _ => exact hx.elim
  | super _ _ _ _ => exact hx.elim

theorem Matches.defined {f : FrameId} {outer : Chain} {ls : List Layer} {ss : List Scope}
    {x : Bytes} (h : w.Matches (f :: outer) ls ss) (hx : Layer.Holds ls x)
    (hb : w.frames.binds f x = true) : w.Matches (f :: outer) ls (Resolver.marked x true ss) := by
  cases h with
  | globals => exact .globals
  | body hm hl hg hbinds =>
    refine .body hm hl hg fun y hy => ?_
    rw [Bindings.get?_insert] at hy
    split at hy
    · rename_i hxy; exact hxy ▸ hb
    · exact hbinds y hy
  | this _ _ _ => exact hx.elim
  | super _ _ _ _ => exact hx.elim

theorem Matches.lt {f : FrameId} {outer : Chain} {ls : List Layer} {ss : List Scope}
    (h : w.Matches (f :: outer) ls ss) (hs : w.StoreOk programs s) : f < s.frames.size := by
  cases h with
  | globals => exact hs.globals
  | body _ hl _ _ => exact hs.fresh _ _ hl
  | this _ _ hr => exact hs.fresh _ _ hr.1
  | super _ hl _ _ => exact hs.fresh _ _ hl

theorem Matches.mem_lt {chain : Chain} {ls : List Layer} {ss : List Scope}
    (h : w.Matches chain ls ss) (hs : w.StoreOk programs s) : ∀ g ∈ chain, g < s.frames.size := by
  obtain ⟨f, outer, rfl⟩ := h.ne_nil
  have hlt := h.lt hs
  have hbelow : ∀ g ∈ outer, g < f := by
    cases h with
    | globals => intro g hg; cases hg
    | body _ _ hg _ => exact hg
    | this _ _ hr => exact hr.2.1
    | super _ _ hg _ => exact hg
  intro g hg
  rcases List.mem_cons.1 hg with rfl | hg
  · exact hlt
  · exact Nat.lt_trans (hbelow g hg) hlt

/-- Declaring a name where the machine stands. What is bound may itself refer to the name. -/
theorem StoreOk.defineHere (h : w.StoreOk programs s) {ls : List Layer} {ss : List Scope}
    {x : Bytes} {v : Value} (hm : w.Matches s.env ls ss) (hx : Ordinary x)
    (hl : Layer.Holds ls x)
    (hv : ∀ w', w.Grows w' → w'.Matches s.env ls (Resolver.marked x true ss) →
      w'.ValueOk programs v) :
    ∃ w', w.Grows w' ∧ w'.log = w.log ∧ w'.StoreOk programs (s.defineHere x v) ∧
      w'.Matches s.env ls (Resolver.marked x true ss) := by
  obtain ⟨f, outer, henv⟩ := hm.ne_nil
  have hg : w.Grows (w.define f x v) := grows_define hx
  rw [henv] at hm
  have hbinds : (w.define f x v).frames.binds f x = true := by
    refine Frames.binds_iff.2 ⟨v, Frames.lookup_define_self ?_⟩
    rw [h.frames]
    exact hm.lt h
  have hmatch := (hm.mono hg).defined hl hbinds
  have hallows : ∀ l, w.layerOf f = some l → l.Allows x := by
    intro l hlayer
    cases hm with
    | globals => rw [h.globalLayer] at hlayer; cases hlayer
    | body _ hb _ _ => cases hb.symm.trans hlayer; exact hl
    | this _ _ _ => exact hl.elim
    | super _ _ _ _ => exact hl.elim
  rw [henv] at hv
  have hstore := h.define hx (hv _ hg hmatch) hallows
  refine ⟨w.define f x v, hg, rfl, ?_, henv ▸ hmatch⟩
  have hdef : s.defineHere x v = { s with frames := s.frames.define f x v } := by
    simp only [State.defineHere, henv, Frames.defineHere]
  exact hdef ▸ hstore

end World

end Lox
