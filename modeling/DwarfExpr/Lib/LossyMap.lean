import Mathlib.Data.List.Forall2

/-!
# Maps that lose elements

A loop that translates the elements of a list and leaves out those that it cannot
translate, and perhaps those behind a bound. Its result stands for the whole list exactly
if it has left out nothing.
-/

namespace LossyMap

variable {α β : Type*} {R : α → β → Prop} {f : α → Option β}

/-- The result does not go beyond the bound. -/
theorem length_le (f : α → Option β) (xs : List α) (k : ℕ) :
    ((xs.take k).filterMap f).length ≤ k := by
  have hfilter := List.length_filterMap_le f (xs.take k)
  rw [List.length_take] at hfilter
  omega

/-- Each element of the list has its counterpart in the result exactly if each can be
translated. Induction on the list. -/
theorem forall₂_filterMap_iff (xs : List α) :
    List.Forall₂ R xs (xs.filterMap f) ↔ ∀ x ∈ xs, ∃ y, f x = some y ∧ R x y := by
  induction xs with
  | nil => simp
  | cons x xs ih =>
    cases hx : f x with
    | none =>
      rw [List.filterMap_cons_none hx]
      constructor
      · intro hall
        have hlength := hall.length_eq
        have hle := List.length_filterMap_le f xs
        rw [List.length_cons] at hlength
        omega
      · intro hall
        obtain ⟨y, hy, -⟩ := hall x List.mem_cons_self
        rw [hx] at hy
        cases hy
    | some y =>
      rw [List.filterMap_cons_some hx, List.forall₂_cons, ih, List.forall_mem_cons]
      simp [hx]

/-- With a bound on the elements looked at, the list has to end at or before it. -/
theorem forall₂_take_filterMap_iff (xs : List α) (k : ℕ) :
    List.Forall₂ R xs ((xs.take k).filterMap f) ↔
      xs.length ≤ k ∧ ∀ x ∈ xs, ∃ y, f x = some y ∧ R x y := by
  by_cases hle : xs.length ≤ k
  · rw [List.take_of_length_le hle, forall₂_filterMap_iff]
    exact (and_iff_right hle).symm
  · refine iff_of_false (fun hall => ?_) (fun h => hle h.1)
    have hlength := hall.length_eq
    have hbound := length_le f xs k
    omega

end LossyMap
