import Lox.Environment.Forest
import Lox.Proofs.Machine.Frames
/-!
# The laws of scope chains

Two ways lead to a variable: the search along the chain of a frame, and the links counted one by
one. Both come to the nearest frame that binds the name. A write there changes one binding, which
is seen from many frames at once where chains share that frame, and from none where a nearer
binding hides it. Main statement: `Forest.scope_chain_laws`.
-/

namespace Lox

/-! ## The names of a frame -/

namespace Bindings

variable {α : Type} {n : Bytes}

theorem mem_names_iff_has : ∀ b : Bindings α, n ∈ b.names ↔ b.has n = true
  | [] => by simp [names, has, get?]
  | (k, w) :: rest => by
    have ih := mem_names_iff_has rest
    by_cases hk : k = n
    · simp [names, has, get?, hk]
    · simp_all [names, has, get?, Ne.symm hk]

theorem mem_names_sorted (b : Bindings α) : n ∈ b.sorted.names ↔ b.has n = true := by
  rw [← mem_names_iff_has]
  exact ((List.mergeSort_perm b _).map _).mem_iff

end Bindings

/-! ## Searches -/

namespace Frames

variable {fs fs' : Frames} {n : Bytes}

/-- The value that a search finds is that of the nearest frame. -/
theorem get?_eq_bind_nearest? (chain : Chain) :
    fs.get? chain n = (fs.nearest? chain n).bind (fs.lookup · n) := by
  induction chain with
  | nil => rfl
  | cons f chain ih =>
    rw [get?, nearest?, List.findSome?_cons, List.find?_cons, binds]
    cases hf : fs.lookup f n with
    | none => exact ih
    | some w => exact hf.symm

theorem nearest?_congr (h : ∀ f, fs'.binds f n = fs.binds f n) (chain : Chain) :
    fs'.nearest? chain n = fs.nearest? chain n := by
  simp only [nearest?, h]

end Frames

namespace Forest

variable {g g' g'' : Forest} {f p q : FrameId} {d : Nat} {n : Bytes} {x : Token} {v : Value}

/-! ## Chains and links -/

theorem outer?_lt (h : g.outer? f = some p) : f < g.frames.size := by
  rcases Nat.lt_or_ge f g.outers.size with hlt | hge
  · exact g.size_outers ▸ hlt
  · rw [outer?, Array.getElem?_eq_none hge] at h
    cases h

theorem chain_of_lt (h : f < g.frames.size) :
    g.chain f = f :: (g.outer? f).elim [] g.chain := by
  rw [chain, if_pos h]
  split <;> simp_all

theorem chain_of_ge (h : g.frames.size ≤ f) : g.chain f = [] := by
  rw [chain, if_neg (Nat.not_lt.2 h)]

/-- The chain of a frame lists what its links lead to. -/
theorem getElem?_chain (f : FrameId) (d : Nat) : (g.chain f)[d]? = g.ancestor? f d := by
  induction d generalizing f with
  | zero =>
    rcases Nat.lt_or_ge f g.frames.size with hlt | hge
    · simp [chain_of_lt hlt, ancestor?, hlt]
    · simp [chain_of_ge hge, ancestor?, hge]
  | succ d ih =>
    rw [ancestor?]
    cases hout : g.outer? f with
    | some p =>
      rw [chain_of_lt (outer?_lt hout), hout]
      exact ih p
    | none =>
      rcases Nat.lt_or_ge f g.frames.size with hlt | hge
      · rw [chain_of_lt hlt, hout]
        rfl
      · rw [chain_of_ge hge]
        rfl

/-- Every link leads to an older frame. -/
theorem ancestor?_add_le (h : g.ancestor? f d = some p) : p + d ≤ f := by
  induction d generalizing f with
  | zero =>
    rw [ancestor?] at h
    split at h
    · cases h
      exact Nat.le_refl _
    · cases h
  | succ d ih =>
    obtain ⟨q, hq, hp⟩ := Option.bind_eq_some_iff.1 h
    calc
      p + d + 1 ≤ q + 1 := Nat.succ_le_succ (ih hp)
      _ ≤ f := g.older hq

theorem ancestor?_of_lt (h : f < d) : g.ancestor? f d = none := by
  cases hp : g.ancestor? f d with
  | none => rfl
  | some p =>
    have hle : d ≤ f := Nat.le_trans (Nat.le_add_left d p) (ancestor?_add_le hp)
    exact absurd h (Nat.not_lt.2 hle)

/-! ### Binding a name leaves the links alone -/

theorem ancestor?_define (f : FrameId) (d : Nat) :
    (g.define p n v).ancestor? f d = g.ancestor? f d := by
  induction d generalizing f with
  | zero =>
    have hsize : (g.define p n v).frames.size = g.frames.size := Frames.size_define
    rw [ancestor?, ancestor?, hsize]
  | succ d ih =>
    have houter : (g.define p n v).outer? f = g.outer? f := rfl
    simp only [ancestor?, houter, ih]

theorem chain_define (f : FrameId) : (g.define p n v).chain f = g.chain f :=
  List.ext_getElem? fun d => by rw [getElem?_chain, getElem?_chain, ancestor?_define]

/-! ## The nearest binding -/

/-- The nearest binding of a name, as seen from `f`: it is in frame `p`, `d` links out. -/
structure Nearest (g : Forest) (f : FrameId) (n : Bytes) (d : Nat) (p : FrameId) : Prop where
  reached : g.ancestor? f d = some p
  bound : g.frames.binds p n = true
  passed : ∀ i q, i < d → g.ancestor? f i = some q → g.frames.binds q n = false

/-- No frame that the links from `f` lead to binds the name. -/
def Unbound (g : Forest) (f : FrameId) (n : Bytes) : Prop :=
  ∀ i q, g.ancestor? f i = some q → g.frames.binds q n = false

theorem Nearest.here (h : g.frames.binds f n = true) : g.Nearest f n 0 f := by
  obtain ⟨v, hv⟩ := Frames.binds_iff.1 h
  refine ⟨?_, h, fun i q hi _ => absurd hi (Nat.not_lt_zero i)⟩
  rw [ancestor?, if_pos (Frames.lookup_eq_some_lt hv)]

/-- A frame that does not bind the name sees what the frame around it sees. -/
theorem Nearest.inside (h : g.Nearest q n d p) (hout : g.outer? f = some q)
    (hf : g.frames.binds f n = false) : g.Nearest f n (d + 1) p where
  reached := by
    rw [ancestor?, hout]
    exact h.reached
  bound := h.bound
  passed i r hi hr := by
    cases i with
    | zero =>
      rw [ancestor?, if_pos (outer?_lt hout)] at hr
      cases hr
      exact hf
    | succ i =>
      rw [ancestor?, hout] at hr
      exact h.passed i r (Nat.lt_of_succ_lt_succ hi) hr

theorem Nearest.search (h : g.Nearest f n d p) : g.frames.nearest? (g.chain f) n = some p := by
  refine Frames.nearest?_at ?_ ((getElem?_chain f d).trans h.reached) h.bound
  intro i q hi hq
  exact h.passed i q hi (getElem?_chain f i ▸ hq)

theorem exists_nearest (h : g.frames.nearest? (g.chain f) n = some p) :
    ∃ d, g.Nearest f n d p := by
  obtain ⟨hbound, d, hd, rfl, hpassed⟩ := List.find?_eq_some_iff_getElem.1 h
  refine ⟨d, ?_, hbound, ?_⟩
  · rw [← getElem?_chain, List.getElem?_eq_getElem hd]
  · intro i q hi hq
    rw [← getElem?_chain, List.getElem?_eq_getElem (Nat.lt_trans hi hd)] at hq
    cases hq
    simpa using hpassed i hi

theorem Unbound.search (h : g.Unbound f n) : g.frames.nearest? (g.chain f) n = none := by
  refine List.find?_eq_none.2 fun q hq => ?_
  obtain ⟨i, hi⟩ := List.mem_iff_getElem?.1 hq
  simp [h i q (getElem?_chain f i ▸ hi)]

/-! ## Reading and writing -/

theorem get?_eq : g.get? f n = (g.frames.nearest? (g.chain f) n).bind (g.frames.lookup · n) :=
  Frames.get?_eq_bind_nearest? _

theorem Nearest.lookup (h : g.Nearest f n d p) :
    g.frames.lookup p n = some (g.getAt f d n) := by
  obtain ⟨v, hv⟩ := Frames.binds_iff.1 h.bound
  simp [getAt, h.reached, hv]

theorem Nearest.get (h : g.Nearest f x.lexeme d p) : g.get f x = .ok (g.getAt f d x.lexeme) := by
  have hfound : g.get? f x.lexeme = some (g.getAt f d x.lexeme) := by
    rw [get?_eq, h.search, Option.bind_some, h.lookup]
  simp [Forest.get, hfound]

theorem Nearest.assign (h : g.Nearest f x.lexeme d p) (v : Value) :
    g.assign f x v = (.ok (), g.assignAt f d x.lexeme v) := by
  simp [Forest.assign, assign?, h.search, assignAt, h.reached]

theorem Unbound.get (h : g.Unbound f x.lexeme) : g.get f x = .error (.undefinedVariable x) := by
  have hfound : g.get? f x.lexeme = none := by rw [get?_eq, h.search, Option.bind_none]
  simp [Forest.get, hfound]

theorem Unbound.assign (h : g.Unbound f x.lexeme) (v : Value) :
    g.assign f x v = (.error (.undefinedVariable x), g) := by
  simp [Forest.assign, assign?, h.search]

/-! ## What a write changes -/

/-- `g'` is `g` with another value for a name that frame `p` binds. -/
structure Rebound (g : Forest) (p : FrameId) (n : Bytes) (v : Value) (g' : Forest) : Prop where
  size : g'.frames.size = g.frames.size
  outers : g'.outers = g.outers
  value : g'.frames.lookup p n = some v
  others : ∀ q m, q ≠ p ∨ m ≠ n → g'.frames.lookup q m = g.frames.lookup q m
  /-- The new value is seen from all frames that have their nearest binding in `p`. -/
  seen : ∀ f x, x.lexeme = n → (∃ d, g.Nearest f n d p) → g'.get f x = .ok v
  /-- Under other names, and from other frames, everything looks as before. -/
  unseen : ∀ f x, (x.lexeme = n → ¬∃ d, g.Nearest f n d p) → g'.get f x = g.get f x

/-- Overwriting a binding leads no search to another frame. -/
theorem nearest?_define (h : g.frames.binds p n = true) (f : FrameId) (m : Bytes) :
    (g.define p n v).frames.nearest? ((g.define p n v).chain f) m =
      g.frames.nearest? (g.chain f) m := by
  rw [chain_define]
  exact Frames.nearest?_congr (fun q => Frames.binds_define_of_binds h q m) _

theorem rebound_define (h : g.frames.binds p n = true) (v : Value) :
    g.Rebound p n v (g.define p n v) := by
  obtain ⟨w, hw⟩ := Frames.binds_iff.1 h
  have hvalue : (g.define p n v).frames.lookup p n = some v :=
    Frames.lookup_define_self (Frames.lookup_eq_some_lt hw)
  have hothers : ∀ q m, q ≠ p ∨ m ≠ n →
      (g.define p n v).frames.lookup q m = g.frames.lookup q m := fun q m hne =>
    Frames.lookup_define_of_ne (hne.imp Ne.symm Ne.symm)
  refine ⟨Frames.size_define, rfl, hvalue, hothers, ?_, ?_⟩
  · rintro f x rfl ⟨d, hd⟩
    simp [Forest.get, get?_eq, nearest?_define h, hd.search, hvalue]
  · intro f x hunseen
    suffices hsame : (g.define p n v).get? f x.lexeme = g.get? f x.lexeme by
      simp only [Forest.get, hsame]
    rw [get?_eq, get?_eq, nearest?_define h]
    cases hnear : g.frames.nearest? (g.chain f) x.lexeme with
    | none => rfl
    | some q =>
      refine hothers q x.lexeme ?_
      -- the search is for another name, or it ends in another frame
      by_cases hx : x.lexeme = n
      · left
        rintro rfl
        exact hunseen hx (exists_nearest (hx ▸ hnear))
      · exact .inr hx

/-! ## What every operation keeps -/

/-- The operations that change a forest. -/
inductive Step where
  | enclose (f : FrameId)
  | define (f : FrameId) (name : Bytes) (v : Value)
  | assign (f : FrameId) (name : Token) (v : Value)
  | assignAt (f : FrameId) (hops : Nat) (name : Bytes) (v : Value)

/-- The forest that an operation leaves, whether it succeeds or fails. -/
def step (g : Forest) : Step → Forest
  | .enclose f => (g.enclose f).2
  | .define f name v => g.define f name v
  | .assign f name v => (g.assign f name v).2
  | .assignAt f hops name v => g.assignAt f hops name v

def run (g : Forest) (steps : List Step) : Forest := steps.foldl step g

/-- `g'` has the frames of `g` and their links, and the frames bind the names that they did. -/
structure Extends (g g' : Forest) : Prop where
  size : g.frames.size ≤ g'.frames.size
  outer : ∀ f, f < g.frames.size → g'.outer? f = g.outer? f
  names : ∀ (f : FrameId) (ns : List Bytes), g.names[f]? = some ns →
    ∃ ns', g'.names[f]? = some ns' ∧ ns ⊆ ns'

theorem getElem?_names (g : Forest) (f : FrameId) :
    g.names[f]? = g.frames[f]?.map fun b => b.sorted.names := by
  simp [names]

namespace Extends

theorem refl (g : Forest) : g.Extends g where
  size := Nat.le_refl _
  outer _ _ := rfl
  names _ ns h := ⟨ns, h, List.Subset.refl ns⟩

theorem trans (h : g.Extends g') (h' : g'.Extends g'') : g.Extends g'' where
  size := Nat.le_trans h.size h'.size
  outer f hf := (h'.outer f (Nat.lt_of_lt_of_le hf h.size)).trans (h.outer f hf)
  names f ns hns := by
    obtain ⟨ns', hns', hsub⟩ := h.names f ns hns
    obtain ⟨ns'', hns'', hsub'⟩ := h'.names f ns' hns'
    exact ⟨ns'', hns'', List.Subset.trans hsub hsub'⟩

theorem enclose (g : Forest) (f : FrameId) : g.Extends (g.enclose f).2 where
  size := by simp [Forest.enclose]
  outer q hq := by
    simp [Forest.enclose, outer?, Array.getElem?_push, g.size_outers, Nat.ne_of_lt hq]
  names q ns hns := by
    refine ⟨ns, ?_, List.Subset.refl ns⟩
    rw [getElem?_names] at hns ⊢
    obtain ⟨b, hb, rfl⟩ := Option.map_eq_some_iff.1 hns
    have hlt : q < g.frames.size := (Array.getElem?_eq_some_iff.1 hb).1
    simp [Forest.enclose, Array.getElem?_push, Nat.ne_of_lt hlt, hb]

theorem define (g : Forest) (f : FrameId) (name : Bytes) (v : Value) :
    g.Extends (g.define f name v) where
  size := Nat.le_of_eq Frames.size_define.symm
  outer _ _ := rfl
  names q ns hns := by
    rw [getElem?_names] at hns ⊢
    obtain ⟨b, hb, rfl⟩ := Option.map_eq_some_iff.1 hns
    by_cases hq : f = q
    · subst hq
      refine ⟨(b.insert name v).sorted.names, ?_, fun m hm => ?_⟩
      · simp [Forest.define, Frames.define, Array.getElem?_modify, hb]
      · rw [Bindings.mem_names_sorted] at hm ⊢
        rw [Bindings.has_insert, hm, Bool.or_true]
    · refine ⟨b.sorted.names, ?_, List.Subset.refl _⟩
      simp [Forest.define, Frames.define, Array.getElem?_modify, hb, hq]

theorem step (g : Forest) (s : Step) : g.Extends (g.step s) := by
  cases s with
  | enclose f => exact enclose g f
  | define f name v => exact define g f name v
  | assign f name v =>
    show g.Extends (g.assign f name v).2
    rw [Forest.assign, assign?]
    cases g.frames.nearest? (g.chain f) name.lexeme with
    | none => exact refl g
    | some p => exact define g p name.lexeme v
  | assignAt f hops name v =>
    show g.Extends (g.assignAt f hops name v)
    rw [assignAt]
    cases g.ancestor? f hops with
    | none => exact refl g
    | some p => exact define g p name v

theorem run (g : Forest) (steps : List Step) : g.Extends (g.run steps) := by
  induction steps generalizing g with
  | nil => exact refl g
  | cons s steps ih => exact (step g s).trans (ih (g.step s))

end Extends

/-- **Scope chains obey their laws.** In every forest that operations build, chains end. A search
reads and writes where the links lead at the distance of the nearest binding. The write changes
this one binding, and those frames see it whose nearest binding it is. Where no frame of the chain
binds the name, reading and writing fail and nothing changes. No operation ever takes a name from
a frame or changes a link. -/
theorem scope_chain_laws (steps : List Step) :
    let g := root.run steps
    (∀ f d, f < d → g.ancestor? f d = none) ∧
      (∀ f x v d p, g.Nearest f x.lexeme d p →
        g.frames.lookup p x.lexeme = some (g.getAt f d x.lexeme) ∧
        g.get f x = .ok (g.getAt f d x.lexeme) ∧
        g.assign f x v = (.ok (), g.assignAt f d x.lexeme v) ∧
        g.Rebound p x.lexeme v (g.assignAt f d x.lexeme v)) ∧
      (∀ f x v, g.Unbound f x.lexeme →
        g.get f x = .error (.undefinedVariable x) ∧
        g.assign f x v = (.error (.undefinedVariable x), g)) ∧
      ∀ later, g.Extends (g.run later) := by
  intro g
  refine ⟨fun f d hd => ancestor?_of_lt hd, ?_, ?_, Extends.run g⟩
  · intro f x v d p hnear
    refine ⟨hnear.lookup, hnear.get, hnear.assign v, ?_⟩
    rw [assignAt, hnear.reached]
    exact rebound_define hnear.bound v
  · intro f x v hun
    exact ⟨hun.get, hun.assign v⟩

/-- Frames 3 and 4 share frame 2, which hides the variable of frame 0; frame 1 is beside it. -/
def siblings : List Step :=
  [.define 0 (utf8 "a") (.bool true), .enclose 0, .enclose 0, .define 2 (utf8 "a") .nil,
    .enclose 2, .enclose 2]

theorem scope_chain_laws_siblings :
    let g := root.run siblings
    let a : Token := ⟨.ident, utf8 "a", 1⟩
    let b : Token := ⟨.ident, utf8 "b", 1⟩
    let g' := g.assignAt 3 1 (utf8 "a") (.bool false)
    (g.Nearest 3 (utf8 "a") 1 2 ∧ g.assign 3 a (.bool false) = (.ok (), g') ∧
        g'.get 4 a = .ok (.bool false) ∧ g'.get 1 a = g.get 1 a) ∧
      (g.Unbound 0 (utf8 "b") ∧ g.assign 0 b .nil = (.error (.undefinedVariable b), g)) ∧
      g.Extends (g.run [.define 1 (utf8 "b") .nil, .enclose 4]) := by
  intro g a b g'
  obtain ⟨-, hnear, hun, hkept⟩ := scope_chain_laws siblings
  have hshared : g.Nearest 2 (utf8 "a") 0 2 := .here (by decide +kernel)
  have h3 : g.Nearest 3 (utf8 "a") 1 2 := hshared.inside (by decide +kernel) (by decide +kernel)
  have h4 : g.Nearest 4 (utf8 "a") 1 2 := hshared.inside (by decide +kernel) (by decide +kernel)
  have hb : g.Unbound 0 (utf8 "b") := by
    intro i q hq
    obtain ⟨rfl, rfl⟩ := Nat.add_eq_zero_iff.1 (Nat.le_zero.1 (ancestor?_add_le hq))
    decide +kernel
  obtain ⟨-, -, hassign, hrebound⟩ := hnear 3 a (.bool false) 1 2 h3
  refine ⟨⟨h3, hassign, hrebound.seen 4 a rfl ⟨1, h4⟩, ?_⟩, ⟨hb, (hun 0 b .nil hb).2⟩, hkept _⟩
  refine hrebound.unseen 1 a ?_
  rintro - ⟨d, hd⟩
  have hle : 2 + d ≤ 1 := ancestor?_add_le hd.reached
  omega

end Forest

end Lox
