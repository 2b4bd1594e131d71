import Lox.Proofs.Machine.Frames
import Lox.Proofs.Scope.Positions
/-!
# Worlds

What a running program has built up: the frames, the text that each frame was made for, and the
class declarations that have been carried out. A world only grows. `World.Matches` says that a
scope chain has one frame for each scope that the resolver had open, in the same order;
`World.ValueOk` says what follows for the functions, classes and objects that a program can hold.
All of it survives when the world grows.
-/

namespace Lox

/-- A class declaration that has been carried out. -/
structure Declaration where
  text : ClassText
  superclass : Option Class
  /-- The scope chain of the methods. -/
  chain : Chain
  cls : Class

structure World where
  frames : Frames
  /-- The text that a frame was made for; the frame of the globals has none. -/
  layerOf : FrameId → Option Layer
  /-- The class declarations carried out, newest first. -/
  log : List Declaration

/-- The names that a frame made for this text can bind. -/
def Layer.Allows : Layer → Bytes → Prop
  | .body names, x => x ∈ names
  | .this _, x => x = utf8 "this"
  | .super _, x => x = utf8 "super"

namespace World

/-- The object that a `this` frame holds is of a class that inherits from the declared one. -/
def Receiver (w : World) (d : Declaration) (t : FrameId) (o : Instance) : Prop :=
  w.layerOf t = some (.this d.text) ∧ (∀ g ∈ d.chain, g < t) ∧
    w.frames.lookup t (utf8 "this") = some (.obj o) ∧ d.cls.lineage <:+ o.cls.lineage

/-- A scope chain has one frame for each open scope, made for the text of that scope, and the
frame binds every name of the scope whose initializer has finished. -/
inductive Matches (w : World) : Chain → List Layer → List Scope → Prop
  | globals : Matches w globalChain [] []
  | body {f : FrameId} {chain : Chain} {names : List Bytes} {layers : List Layer} {scope : Scope}
      {scopes : List Scope} : Matches w chain layers scopes →
    w.layerOf f = some (.body names) → (∀ g ∈ chain, g < f) →
    (∀ x, scope.get? x = some true → w.frames.binds f x = true) →
    Matches w (f :: chain) (.body names :: layers) (scope :: scopes)
  | this {t : FrameId} {d : Declaration} {o : Instance} {layers : List Layer}
      {scopes : List Scope} : Matches w d.chain layers scopes → d ∈ w.log →
    w.Receiver d t o →
    Matches w (t :: d.chain) (.this d.text :: layers) (thisScope :: scopes)
  | super {f : FrameId} {chain : Chain} {text : ClassText} {sup : Class} {layers : List Layer}
      {scopes : List Scope} : Matches w chain layers scopes →
    w.layerOf f = some (.super text) → (∀ g ∈ chain, g < f) →
    w.frames.lookup f (utf8 "super") = some (.cls sup) →
    Matches w (f :: chain) (.super text :: layers) (superScope :: scopes)

variable (programs : List Stmt → Prop)

/-- A class that some declaration has made. -/
def ClassOk (w : World) (c : Class) : Prop := ∃ d ∈ w.log, d.cls = c

/-- A function from a `fun` declaration, with the chain of the place it was declared in. -/
def PlainFunction (w : World) (c : Closure) : Prop :=
  c.isInit = false ∧ ∃ layers scopes, w.Matches c.chain layers scopes ∧
    FunAt programs .function layers scopes c.decl

/-- A method that has been given its receiver, an object of the class that declares the method
or of one that inherits from it. -/
def BoundMethod (w : World) (c : Closure) : Prop :=
  ∃ d ∈ w.log, ∃ (name : Bytes) (m : Closure) (t : FrameId) (o : Instance),
    d.cls.entry.methods.get? name = some m ∧ c = { m with chain := t :: m.chain } ∧
    w.Receiver d t o ∧ w.ClassOk o.cls

def ValueOk (w : World) : Value → Prop
  | .function f => w.PlainFunction programs f.closure ∨ w.BoundMethod f.closure
  | .cls c => w.ClassOk c
  | .obj o => w.ClassOk o.cls
  | _ => True

/-- What a class declaration leaves behind. -/
structure DeclarationOk (w : World) (d : Declaration) : Prop where
  name : d.cls.entry.name = d.text.name.lexeme
  methods : d.cls.entry.methods = State.methodTable d.chain d.text.methods
  /-- The methods' chain matches the scopes around `this`. -/
  chain : ∃ layers scopes, w.Matches d.chain layers scopes ∧
    MethodsAt programs (.this d.text :: layers) (thisScope :: scopes) d.text.methods
  root : d.superclass = none → d.text.superclass = none ∧ d.cls.ancestors = []
  sub : ∀ sup, d.superclass = some sup → d.cls.ancestors = sup.lineage ∧ w.ClassOk sup ∧
    ∃ f outer, d.chain = f :: outer ∧ w.frames.lookup f (utf8 "super") = some (.cls sup)
  ids : ∀ e ∈ d.cls.ancestors, e.id < d.cls.entry.id

/-! ## Growth -/

/-- A later world. -/
structure Grows (w w' : World) : Prop where
  layers : ∀ f l, w.layerOf f = some l → w'.layerOf f = some l
  binds : ∀ f x, w.frames.binds f x = true → w'.frames.binds f x = true
  /-- `this` and `super` are bound once. -/
  keeps : ∀ f x v, ¬ Ordinary x → w.frames.lookup f x = some v → w'.frames.lookup f x = some v
  log : ∀ d ∈ w.log, d ∈ w'.log

variable {programs} {w w' : World}

theorem Grows.refl (w : World) : w.Grows w :=
  ⟨fun _ _ h => h, fun _ _ h => h, fun _ _ _ _ h => h, fun _ h => h⟩

theorem Receiver.mono (hw : w.Grows w') {d : Declaration} {t : FrameId} {o : Instance}
    (h : w.Receiver d t o) : w'.Receiver d t o :=
  ⟨hw.layers _ _ h.1, h.2.1, hw.keeps _ _ _ not_ordinary_this h.2.2.1, h.2.2.2⟩

theorem Matches.mono (hw : w.Grows w') {chain : Chain} {layers : List Layer}
    {scopes : List Scope} (h : w.Matches chain layers scopes) : w'.Matches chain layers scopes := by
  induction h with
  | globals => exact .globals
  | body _ hl hg hb ih => exact .body ih (hw.layers _ _ hl) hg fun x hx => hw.binds _ _ (hb x hx)
  | this _ hd hr ih => exact .this ih (hw.log _ hd) (hr.mono hw)
  | super _ hl hg hs ih =>
    exact .super ih (hw.layers _ _ hl) hg (hw.keeps _ _ _ not_ordinary_super hs)

theorem ClassOk.mono (hw : w.Grows w') {c : Class} (h : w.ClassOk c) : w'.ClassOk c := by
  obtain ⟨d, hd, rfl⟩ := h
  exact ⟨d, hw.log d hd, rfl⟩

theorem PlainFunction.mono (hw : w.Grows w') {c : Closure} (h : w.PlainFunction programs c) :
    w'.PlainFunction programs c := by
  obtain ⟨hi, layers, scopes, hm, hf⟩ := h
  exact ⟨hi, layers, scopes, hm.mono hw, hf⟩

theorem BoundMethod.mono (hw : w.Grows w') {c : Closure} (h : w.BoundMethod c) :
    w'.BoundMethod c := by
  obtain ⟨d, hd, name, m, t, o, hm, hc, hr, ho⟩ := h
  exact ⟨d, hw.log d hd, name, m, t, o, hm, hc, hr.mono hw, ho.mono hw⟩

theorem ValueOk.mono (hw : w.Grows w') : ∀ {v : Value}, w.ValueOk programs v →
    w'.ValueOk programs v
  | .function _, h => h.imp (PlainFunction.mono hw) (BoundMethod.mono hw)
  | .cls _, h => ClassOk.mono hw h
  | .obj _, h => ClassOk.mono hw h
  | .nil, _ | .bool _, _ | .number _, _ | .string _, _ | .builtin _, _ => trivial

theorem DeclarationOk.mono (hw : w.Grows w') {d : Declaration}
    (h : w.DeclarationOk programs d) : w'.DeclarationOk programs d := by
  obtain ⟨hname, hmethods, ⟨layers, scopes, hm, ha⟩, hroot, hsub, hids⟩ := h
  refine ⟨hname, hmethods, ⟨layers, scopes, hm.mono hw, ha⟩, hroot, fun sup hs => ?_, hids⟩
  obtain ⟨hanc, hok, f, outer, hchain, hlook⟩ := hsub sup hs
  exact ⟨hanc, hok.mono hw, f, outer, hchain, hw.keeps _ _ _ not_ordinary_super hlook⟩

/-! ## Lineages -/

variable (hlog : ∀ d ∈ w.log, w.DeclarationOk programs d)

include hlog in
/-- Every class of a lineage has been declared, over the rest of the lineage. -/
theorem ClassOk.lineage : ∀ (n : Nat) {c : Class}, c.ancestors.length = n → w.ClassOk c →
    ∀ e ∈ c.lineage, ∃ d ∈ w.log, d.cls.entry = e ∧ d.cls.lineage <:+ c.lineage := by
  intro n
  induction n with
  | zero =>
    rintro c hn ⟨d, hd, rfl⟩ e he
    have hnil : d.cls.ancestors = [] := List.length_eq_zero_iff.1 hn
    rw [Class.lineage, hnil, List.mem_singleton] at he
    exact ⟨d, hd, he.symm, List.suffix_refl _⟩
  | succ n ih =>
    rintro c hn ⟨d, hd, rfl⟩ e he
    rcases List.mem_cons.1 he with rfl | he
    · exact ⟨d, hd, rfl, List.suffix_refl _⟩
    · cases hs : d.superclass with
      | none =>
        rw [((hlog d hd).root hs).2] at he
        cases he
      | some sup =>
        obtain ⟨hanc, hok, -⟩ := (hlog d hd).sub sup hs
        have hlen : sup.ancestors.length = n := by
          have := congrArg List.length hanc
          rw [hn] at this
          simpa [Class.lineage] using this.symm
        obtain ⟨d', hd', hentry, hsuffix⟩ := ih hlen hok e (hanc ▸ he)
        refine ⟨d', hd', hentry, hsuffix.trans ?_⟩
        rw [← hanc]
        exact List.suffix_cons _ _

include hlog in
/-- The method that a class finds has been declared by a class it inherits from. -/
theorem ClassOk.findMethod {c : Class} (h : w.ClassOk c) {name : Bytes} {m : Closure}
    (hm : c.findMethod name = some m) : ∃ d ∈ w.log, d.cls.lineage <:+ c.lineage ∧
      d.cls.entry.methods.get? name = some m := by
  obtain ⟨e, he, hget⟩ := List.exists_of_findSome?_eq_some hm
  obtain ⟨d, hd, rfl, hsuffix⟩ := h.lineage hlog _ rfl e he
  exact ⟨d, hd, hsuffix, hget⟩

theorem methodTable_get {chain : Chain} {name : Bytes} {m : Closure} :
    ∀ (ms : List FunDecl) (table : Bindings Closure),
    (ms.foldl (fun table m => table.insert m.name.lexeme
      ⟨m, chain, m.name.lexeme = utf8 "init"⟩) table).get? name = some m →
    (m.decl ∈ ms ∧ m.chain = chain ∧ m.decl.name.lexeme = name ∧
      (m.isInit = true ↔ name = utf8 "init")) ∨ table.get? name = some m
  | [], _, h => .inr h
  | f :: ms, table, h => by
    rcases methodTable_get ms _ h with ⟨hmem, hrest⟩ | h
    · exact .inl ⟨List.mem_cons_of_mem _ hmem, hrest⟩
    · rw [Bindings.get?_insert] at h
      split at h
      · rename_i hname
        cases h
        exact .inl ⟨List.mem_cons_self, rfl, hname, by simp [hname]⟩
      · exact .inr h

/-- The methods that a declaration has made come from its text and share its chain. -/
theorem DeclarationOk.method {d : Declaration} (h : w.DeclarationOk programs d) {name : Bytes}
    {m : Closure} (hm : d.cls.entry.methods.get? name = some m) :
    m.decl ∈ d.text.methods ∧ m.chain = d.chain ∧ m.decl.name.lexeme = name ∧
      (m.isInit = true ↔ name = utf8 "init") := by
  rw [h.methods] at hm
  exact (methodTable_get _ _ hm).resolve_right fun h => by cases h

/-- A function that is called runs in a chain that matches the scopes it was resolved in. -/
def Callable (programs : List Stmt → Prop) (w : World) (c : Closure) : Prop :=
  ∃ fn layers scopes, w.Matches c.chain layers scopes ∧ FunAt programs fn layers scopes c.decl

variable (hprograms : ∀ program, programs program → Admissible program)

include hlog hprograms in
theorem BoundMethod.callable {c : Closure} (h : w.BoundMethod c) : w.Callable programs c := by
  obtain ⟨d, hd, name, m, t, o, hm, rfl, hr, -⟩ := h
  obtain ⟨hdecl, hchain, -⟩ := (hlog d hd).method hm
  obtain ⟨layers, scopes, hmatch, hat⟩ := (hlog d hd).chain
  refine ⟨_, .this d.text :: layers, thisScope :: scopes, ?_, hat.mem hprograms m.decl hdecl⟩
  show w.Matches (t :: m.chain) _ _
  rw [hchain]
  exact .this hmatch hd hr

end World

end Lox
