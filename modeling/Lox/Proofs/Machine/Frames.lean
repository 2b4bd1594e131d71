import Lox.Machine.Step
import Lox.Proofs.Bindings
/-!
# Frames that change

Frames are never taken away and never lose a name. What a frame binds to a name changes only
when that frame is told to bind that name; fields of objects behave in the same way.
-/

namespace Lox.Frames

variable {fs : Frames} {f g : FrameId} {n m : Bytes} {v w : Value} {vars : Bindings Value}

theorem lookup_eq_some_lt (h : fs.lookup f n = some v) : f < fs.size := by
  rcases Nat.lt_or_ge f fs.size with hlt | hge
  · exact hlt
  · rw [lookup, Array.getElem?_eq_none hge] at h
    cases h

theorem binds_iff : fs.binds f n = true ↔ ∃ v, fs.lookup f n = some v := Option.isSome_iff_exists

/-! ## Binding a name -/

theorem size_define : (fs.define f n v).size = fs.size := by simp [define]

theorem lookup_define_self (h : f < fs.size) : (fs.define f n v).lookup f n = some v := by
  simp only [lookup, define, Array.getElem?_modify, if_true, Array.getElem?_eq_getElem h]
  exact Bindings.get?_insert_self fs[f]

theorem lookup_define_of_ne (h : f ≠ g ∨ n ≠ m) :
    (fs.define f n v).lookup g m = fs.lookup g m := by
  simp only [lookup, define, Array.getElem?_modify]
  split
  · rename_i hfg
    have hn : n ≠ m := h.resolve_left fun hne => hne hfg
    cases fs[g]? with
    | none => rfl
    | some frame => exact Bindings.get?_insert_of_ne hn frame
  · rfl

/-- A binding of a frame is the one that was just made, or an old one. -/
theorem lookup_define_cases (h : (fs.define f n v).lookup g m = some w) :
    (f = g ∧ n = m ∧ w = v) ∨ fs.lookup g m = some w := by
  by_cases hsame : f = g ∧ n = m
  · obtain ⟨rfl, rfl⟩ := hsame
    have hlt : f < fs.size := size_define ▸ lookup_eq_some_lt h
    rw [lookup_define_self hlt] at h
    cases h
    exact .inl ⟨rfl, rfl, rfl⟩
  · exact .inr (lookup_define_of_ne (Decidable.not_and_iff_or_not.1 hsame) ▸ h)

theorem binds_define (h : fs.binds g m = true) : (fs.define f n v).binds g m = true := by
  obtain ⟨w, hw⟩ := binds_iff.1 h
  by_cases hsame : f = g ∧ n = m
  · obtain ⟨rfl, rfl⟩ := hsame
    exact binds_iff.2 ⟨v, lookup_define_self (lookup_eq_some_lt hw)⟩
  · exact binds_iff.2 ⟨w, (lookup_define_of_ne (Decidable.not_and_iff_or_not.1 hsame)).trans hw⟩

/-- Binding a name again changes no frame's names. -/
theorem binds_define_of_binds (h : fs.binds f n = true) (g : FrameId) (m : Bytes) :
    (fs.define f n v).binds g m = fs.binds g m := by
  by_cases hsame : f = g ∧ n = m
  · obtain ⟨rfl, rfl⟩ := hsame
    rw [binds_define h, h]
  · rw [binds, lookup_define_of_ne (Decidable.not_and_iff_or_not.1 hsame), binds]

/-! ## Adding a frame -/

theorem lookup_push_new : Frames.lookup (fs.push vars) fs.size n = vars.get? n := by
  simp [lookup]

theorem lookup_push_old (h : f < fs.size) : Frames.lookup (fs.push vars) f n = fs.lookup f n := by
  simp [lookup, Array.getElem?_push, Nat.ne_of_lt h]

theorem lookup_push_of_some (h : fs.lookup f n = some v) :
    Frames.lookup (fs.push vars) f n = some v :=
  lookup_push_old (lookup_eq_some_lt h) ▸ h

theorem lookup_push_cases (h : Frames.lookup (fs.push vars) f n = some v) :
    (f = fs.size ∧ vars.get? n = some v) ∨ fs.lookup f n = some v := by
  rcases Nat.lt_trichotomy f fs.size with hlt | rfl | hgt
  · exact .inr (lookup_push_old hlt ▸ h)
  · exact .inl ⟨rfl, lookup_push_new ▸ h⟩
  · have hsize : Array.size (fs.push vars) = fs.size + 1 := Array.size_push _
    have hlt := lookup_eq_some_lt h
    rw [hsize] at hlt
    exact absurd hgt (Nat.not_lt.2 (Nat.le_of_lt_succ hlt))

/-! ## Chains -/

theorem getAt_of_lookup {chain : Chain} {d : Nat} (hc : chain[d]? = some f)
    (hv : fs.lookup f n = some v) : fs.getAt chain d n = v := by
  simp [getAt, hc, hv]

/-- What is found in a chain stands in one of its frames; what is not found counts as `nil`. -/
theorem getAt_cases (fs : Frames) (chain : Chain) (d : Nat) (n : Bytes) :
    fs.getAt chain d n = .nil ∨ ∃ f, fs.lookup f n = some (fs.getAt chain d n) := by
  unfold getAt
  cases chain[d]? with
  | none => exact .inl rfl
  | some f =>
    cases hv : fs.lookup f n with
    | none => exact .inl (by simp [hv])
    | some v => exact .inr ⟨f, by simp [hv]⟩

/-- A walk along a chain passes the frames that do not bind the name. -/
theorem get?_drop : ∀ {k : Nat} {chain : Chain},
    (∀ i g, i < k → chain[i]? = some g → fs.binds g n = false) →
    fs.get? chain n = fs.get? (chain.drop k) n
  | 0, _, _ => rfl
  | _ + 1, [], _ => rfl
  | k + 1, f :: chain, h => by
    have hf : fs.lookup f n = none := by simpa [binds] using h 0 f (Nat.succ_pos k) rfl
    rw [get?, List.findSome?_cons, hf]
    exact get?_drop fun i g hi hg => h (i + 1) g (Nat.succ_lt_succ hi) hg

theorem nearest?_drop : ∀ {k : Nat} {chain : Chain},
    (∀ i g, i < k → chain[i]? = some g → fs.binds g n = false) →
    fs.nearest? chain n = fs.nearest? (chain.drop k) n
  | 0, _, _ => rfl
  | _ + 1, [], _ => rfl
  | k + 1, f :: chain, h => by
    have hf : fs.binds f n = false := h 0 f (Nat.succ_pos k) rfl
    rw [nearest?, List.find?_cons, hf]
    exact nearest?_drop fun i g hi hg => h (i + 1) g (Nat.succ_lt_succ hi) hg

section

variable {chain : Chain} {d : Nat}
  (hpass : ∀ i g, i < d → chain[i]? = some g → fs.binds g n = false)
  (hf : chain[d]? = some f)
include hpass hf

/-- A walk that passes no frame binding the name comes to the frame at its distance. -/
theorem get?_at (hv : fs.lookup f n = some v) : fs.get? chain n = some v := by
  obtain ⟨hlt, hget⟩ := List.getElem?_eq_some_iff.1 hf
  rw [get?_drop hpass, List.drop_eq_getElem_cons hlt, hget, get?, List.findSome?_cons, hv]

theorem nearest?_at (hb : fs.binds f n = true) : fs.nearest? chain n = some f := by
  obtain ⟨hlt, hget⟩ := List.getElem?_eq_some_iff.1 hf
  rw [nearest?_drop hpass, List.drop_eq_getElem_cons hlt, hget, nearest?, List.find?_cons, hb]

end

end Lox.Frames

namespace Lox.State

variable {s : State} {o p : Instance} {x y : Bytes} {u v : Value}

/-- A variable that can be read stands in some frame, or counts as `nil`. -/
theorem read_cases {ref : Ref} (h : s.read ref = .ok v) :
    v = .nil ∨ ∃ f, s.frames.lookup f ref.name.lexeme = some v := by
  unfold read at h
  split at h
  · cases h
    exact Frames.getAt_cases ..
  · split at h
    · rename_i hget
      cases h
      obtain ⟨f, -, hf⟩ := List.exists_of_findSome?_eq_some hget
      exact .inr ⟨f, hf⟩
    · cases h

/-! ## Fields

The store keeps the fields of objects as it keeps the variables of frames. -/

theorem field?_setField_cases (h : (s.setField o x v).field? p y = some u) :
    u = v ∨ s.field? p y = some u := by
  have h : Frames.lookup (Frames.define s.fields o.id x v) p.id y = some u := h
  rcases Frames.lookup_define_cases h with ⟨-, -, hu⟩ | hu
  · exact .inl hu
  · exact .inr hu

theorem field?_of_newObject {c : Class} (h : (s.newObject c).2.field? p y = some u) :
    s.field? p y = some u := by
  have h : Frames.lookup (s.fields.push []) p.id y = some u := h
  rcases Frames.lookup_push_cases h with ⟨-, hu⟩ | hu
  · cases hu
  · exact hu

end Lox.State
