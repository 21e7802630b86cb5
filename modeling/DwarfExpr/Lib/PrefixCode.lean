import Mathlib.Data.List.Basic

/-!
# Encodings that can be cut off

An encoding is unambiguous if it can be told from the start of a sequence where the
encoded value ends: then no encoding is a proper prefix of another one, and counted
sequences of encodings can be taken apart.
-/

namespace PrefixCode

variable {α β : Type*} {encode : α → List β}

/-- An encoding with anything behind it determines the value and what is behind it. -/
def Unambiguous (encode : α → List β) : Prop :=
  ∀ ⦃a b : α⦄ ⦃r s : List β⦄, encode a ++ r = encode b ++ s → a = b ∧ r = s

/-- As many encodings in a row determine the values. Induction on the values. -/
theorem Unambiguous.flatMap (h : Unambiguous encode) {xs ys : List α} {r s : List β}
    (hlength : xs.length = ys.length) (heq : xs.flatMap encode ++ r = ys.flatMap encode ++ s) :
    xs = ys ∧ r = s := by
  induction xs generalizing ys with
  | nil =>
    obtain rfl := List.length_eq_zero_iff.mp hlength.symm
    exact ⟨rfl, heq⟩
  | cons x xs ih =>
    cases ys with
    | nil => cases hlength
    | cons y ys =>
      simp only [List.flatMap_cons, List.append_assoc] at heq
      obtain ⟨rfl, hrest⟩ := h heq
      obtain ⟨rfl, rfl⟩ := ih (Nat.succ.inj hlength) hrest
      exact ⟨rfl, rfl⟩

/-- A sequence that stops within an encoding does not start with an encoding. -/
theorem Unambiguous.not_prefix_take (h : Unambiguous encode) {a b : α} {n : ℕ}
    (hn : n < (encode b).length) : ¬encode a <+: (encode b).take n := by
  rintro ⟨r, hr⟩
  have hwhole : encode a ++ (r ++ (encode b).drop n) = encode b ++ [] := by
    rw [← List.append_assoc, hr, List.take_append_drop, List.append_nil]
  obtain ⟨-, hnil⟩ := h hwhole
  have hdrop := (List.append_eq_nil_iff.mp hnil).2
  have hlength := List.drop_eq_nil_iff.mp hdrop
  omega

end PrefixCode
