import Mathlib.Logic.Relation

/-!
# Nested calls

A computation that calls others is a node of a call relation. Its recursion is well
founded if no infinite chain of nested calls starts from it. Then what follows for a call
from its callees holds for the whole computation.
-/

namespace NestedCalls

variable {C : Type*} {Calls : C → C → Prop}

/-- A call that is made, directly or not, in the course of another one. -/
abbrev Reached (Calls : C → C → Prop) : C → C → Prop := Relation.ReflTransGen Calls

/-- No infinite chain of nested calls starts from `c`. -/
def WellFoundedFrom (Calls : C → C → Prop) (c : C) : Prop := Acc (fun d c => Calls c d) c

/-- A call whose callees all recurse finitely does so itself. -/
theorem WellFoundedFrom.intro {c : C} (h : ∀ d, Calls c d → WellFoundedFrom Calls d) :
    WellFoundedFrom Calls c :=
  Acc.intro c h

/-- All calls reached from a finite recursion recurse finitely. -/
theorem WellFoundedFrom.of_reached {c d : C} (h : WellFoundedFrom Calls c)
    (hreached : Reached Calls c d) : WellFoundedFrom Calls d := by
  induction hreached with
  | refl => exact h
  | tail _ hcall ih => exact Acc.inv ih hcall

/-- In a finite recursion no call makes itself again. -/
theorem WellFoundedFrom.not_self {c : C} (h : WellFoundedFrom Calls c) : ¬Calls c c := by
  induction h with
  | intro c _ ih => exact fun hself => ih c hself hself

/-- What holds of each reached call if it holds of its callees holds of the first call. -/
theorem WellFoundedFrom.induction {P : C → Prop} {c : C} (h : WellFoundedFrom Calls c)
    (hstep : ∀ d, Reached Calls c d → (∀ e, Calls d e → P e) → P d) : P c := by
  induction h with
  | intro c _ ih =>
    apply hstep c .refl
    intro d hcall
    exact ih d hcall fun e hreached => hstep e (Relation.ReflTransGen.head hcall hreached)

end NestedCalls
