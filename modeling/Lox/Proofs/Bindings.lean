import Lox.Bindings
/-!
# Looking up bindings

What a name is bound to after another binding has been made.
-/

namespace Lox.Bindings

variable {α : Type} {b : Bindings α} {n m : Bytes} {v w : α}

theorem get?_insert_self : ∀ b : Bindings α, (b.insert n v).get? n = some v
  | [] => by simp [insert, get?]
  | (k, w) :: rest => by
    simp only [insert]
    split
    · rename_i hk; simp [get?, hk]
    · rename_i hk; simp [get?, hk, get?_insert_self rest]

theorem get?_insert_of_ne (h : n ≠ m) : ∀ b : Bindings α, (b.insert n v).get? m = b.get? m
  | [] => by simp [insert, get?, h]
  | (k, w) :: rest => by
    simp only [insert]
    split
    · rename_i hk
      have hk : k = n := by simpa using hk
      subst hk
      simp [get?, h]
    · simp only [get?, get?_insert_of_ne h rest]

theorem get?_insert (b : Bindings α) :
    (b.insert n v).get? m = if n = m then some v else b.get? m := by
  split
  · rename_i h; subst h; exact get?_insert_self b
  · rename_i h; exact get?_insert_of_ne h b

theorem has_insert (b : Bindings α) : (b.insert n v).has m = (decide (n = m) || b.has m) := by
  simp only [has, get?_insert]
  by_cases h : n = m <;> simp [h]

theorem insert_insert_self : ∀ b : Bindings α, (b.insert n v).insert n w = b.insert n w
  | [] => by simp [insert]
  | (k, u) :: rest => by
    simp only [insert]
    split
    · rename_i hk; simp [insert, hk]
    · rename_i hk; simp [insert, hk, insert_insert_self rest]

theorem get?_singleton (h : get? m [(n, v)] = some w) : m = n ∧ w = v := by
  simp only [get?] at h
  split at h
  · rename_i hn
    cases h
    exact ⟨(by simpa using hn : n = m).symm, rfl⟩
  · cases h

theorem has_iff : b.has n = true ↔ ∃ v, b.get? n = some v := Option.isSome_iff_exists

end Lox.Bindings
