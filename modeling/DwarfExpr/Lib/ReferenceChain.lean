import Mathlib.Data.Fintype.Pigeonhole
import DwarfExpr.Lib.Fuel

/-!
# Chains of references

A node of a graph may refer to one other node. Following the references from a node ends
unless it comes back to a node that it has passed, if there are only finitely many nodes.
-/

namespace ReferenceChain

variable {α β : Type*} (next : α → Option α)

/-- The node that is reached by so many references, if there are that many. -/
def after : ℕ → α → Option α
  | 0, a => some a
  | n + 1, a => (next a).bind (after n)

/-- The chain from the node leads to a node that it leads to once more. -/
def ComesBack (a : α) : Prop :=
  ∃ i p b, 0 < p ∧ after next i a = some b ∧ after next p b = some b

variable {next}

@[simp] theorem after_zero (a : α) : after next 0 a = some a := rfl

/-- A chain goes on from where a part of it has led. -/
theorem after_add (m n : ℕ) (a : α) :
    after next (m + n) a = (after next m a).bind (after next n) := by
  induction m generalizing a with
  | zero => simp
  | succ m ih =>
    rw [Nat.succ_add, after, after, Option.bind_assoc]
    exact congrArg (next a).bind (funext ih)

/-- A chain that has ended is not longer. -/
theorem after_eq_none_of_le {m n : ℕ} {a : α} (hmn : m ≤ n) (hend : after next m a = none) :
    after next n a = none := by
  obtain ⟨k, rfl⟩ := Nat.exists_eq_add_of_le hmn
  rw [after_add, hend, Option.bind_none]

/-- A chain can be followed around a cycle any number of times. -/
theorem after_mul {p : ℕ} {b : α} (hcycle : after next p b = some b) (k : ℕ) :
    after next (k * p) b = some b := by
  induction k with
  | zero => rw [Nat.zero_mul, after_zero]
  | succ k ih => rw [Nat.succ_mul, after_add, ih, Option.bind_some, hcycle]

/-- A chain that comes back does not end. -/
theorem ComesBack.after_ne_none {a : α} (hback : ComesBack next a) (n : ℕ) :
    after next n a ≠ none := by
  obtain ⟨i, p, b, hp, hreach, hcycle⟩ := hback
  intro hend
  have hlong : n ≤ i + n * p := by
    calc n = n * 1 := (Nat.mul_one n).symm
      _ ≤ n * p := Nat.mul_le_mul_left n hp
      _ ≤ i + n * p := Nat.le_add_left ..
  have hnone := after_eq_none_of_le hlong hend
  rw [after_add, hreach, Option.bind_some, after_mul hcycle n] at hnone
  cases hnone

/-- Among finitely many nodes a chain ends exactly if it does not come back. A chain that
does not end meets two times the same node. -/
theorem exists_after_eq_none_iff [Finite α] (a : α) :
    (∃ n, after next n a = none) ↔ ¬ComesBack next a := by
  constructor
  · rintro ⟨n, hend⟩ hback
    exact hback.after_ne_none n hend
  · intro hback
    by_contra hgoes
    have hsome (n : ℕ) : ∃ b, after next n a = some b :=
      Option.ne_none_iff_exists'.mp fun hend => hgoes ⟨n, hend⟩
    choose node hnode using hsome
    obtain ⟨i, j, hij, hsame⟩ := Finite.exists_ne_map_eq_of_infinite node
    wlog hlt : i < j generalizing i j
    · exact this j i hij.symm hsame.symm (by omega)
    · refine hback ⟨i, j - i, node i, by omega, hnode i, ?_⟩
      have hlater := hnode j
      rw [show j = i + (j - i) by omega, after_add, hnode i, Option.bind_some] at hlater
      rw [hlater, show i + (j - i) = j by omega, hsame]

/-- Follow the references as far as the fuel lasts: the answer at the last node, built up on
the way back. -/
def follow (next : α → Option α) (answer : α → β) (build : α → β → β) : ℕ → α → Option β
  | 0, _ => none
  | n + 1, a =>
    match next a with
    | none => some (answer a)
    | some b => (follow next answer build n b).map (build a)

section

variable {answer : α → β} {build : α → β → β}

theorem follow_succ_of_none {a : α} (hnext : next a = none) (n : ℕ) :
    follow next answer build (n + 1) a = some (answer a) := by
  simp only [follow, hnext]

theorem follow_succ_of_some {a b : α} (hnext : next a = some b) (n : ℕ) :
    follow next answer build (n + 1) a = (follow next answer build n b).map (build a) := by
  simp only [follow, hnext]

/-- The fuel does not last exactly if the chain is as long. -/
theorem follow_eq_none_iff (n : ℕ) (a : α) :
    follow next answer build n a = none ↔ after next n a ≠ none := by
  induction n generalizing a with
  | zero => simp [follow]
  | succ n ih =>
    cases hnext : next a with
    | none => simp [follow_succ_of_none hnext, after, hnext]
    | some b =>
      simp only [follow_succ_of_some hnext, Option.map_eq_none_iff, ih, after, hnext,
        Option.bind_some]

/-- Following the references ends exactly if they do not come back. -/
theorem ends_follow_iff [Finite α] (a : α) :
    Fuel.Ends (fun n => follow next answer build n a) ↔ ¬ComesBack next a := by
  rw [← exists_after_eq_none_iff]
  constructor
  · rintro ⟨b, n, hfollow⟩
    have hends : follow next answer build n a ≠ none := by
      rw [show follow next answer build n a = some b from hfollow]
      exact Option.some_ne_none b
    exact ⟨n, not_not.mp fun hlong => hends ((follow_eq_none_iff n a).mpr hlong)⟩
  · rintro ⟨n, hend⟩
    obtain ⟨b, hfollow⟩ := Option.ne_none_iff_exists'.mp fun hnone =>
      (@follow_eq_none_iff _ _ next answer build n a).mp hnone hend
    exact ⟨b, n, hfollow⟩

/-- What holds of the answer at each node of the chain, and of what is built if it holds of
what it is built from, holds of the answer at the end. -/
theorem follow_induction {Q : β → Prop} {n : ℕ} {a : α} {r : β}
    (hfollow : follow next answer build n a = some r)
    (hanswer : ∀ m b, after next m a = some b → Q (answer b))
    (hbuild : ∀ b x, Q x → Q (build b x)) : Q r := by
  induction n generalizing a r with
  | zero => cases hfollow
  | succ n ih =>
    cases hnext : next a with
    | none =>
      rw [follow_succ_of_none hnext] at hfollow
      cases hfollow
      exact hanswer 0 a rfl
    | some b =>
      rw [follow_succ_of_some hnext] at hfollow
      obtain ⟨x, hx, rfl⟩ := Option.map_eq_some_iff.mp hfollow
      refine hbuild a x (ih hx fun m c hreach => hanswer (m + 1) c ?_)
      rw [after, hnext, Option.bind_some, hreach]

end

end ReferenceChain
