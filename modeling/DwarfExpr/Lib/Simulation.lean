import DwarfExpr.Lib.StepMachine

/-!
# One machine following another

A machine follows another if it makes the same steps under other names. It may be
excused from doing so where the other halts with a result about which nothing is
promised. What holds of each step then holds of bounded runs.
-/

namespace StepMachine

variable {S S' R R' : Type*}

/-- The step with its next state and its result renamed. -/
def Step.bimap (f : S → S') (g : R → R') : Step S R → Step S' R'
  | next s => next (f s)
  | halt r => halt (g r)
  | stall => stall

/-- `step'` makes the steps of `step` under other names, except where `step` halts with an
excused result. -/
def Follows (Excused : R → Prop) (f : S → S') (g : R → R') (step : S → Step S R)
    (step' : S' → Step S' R') : Prop :=
  ∀ s, (∃ r, step s = .halt r ∧ Excused r) ∨ step' (f s) = (step s).bimap f g

variable {Excused : R → Prop} {f : S → S'} {g : R → R'} {step : S → Step S R}
  {step' : S' → Step S' R'}

/-- A bounded run of the follower gives the renamed result, or the run that it follows gives
an excused one. Induction on the bound. -/
theorem Follows.runFor (hfollows : Follows Excused f g step step') (n : ℕ) (s : S) :
    (∃ r, StepMachine.runFor step n s = some r ∧ Excused r) ∨
      StepMachine.runFor step' n (f s) = (StepMachine.runFor step n s).map g := by
  induction n generalizing s with
  | zero => exact Or.inr rfl
  | succ n ih =>
    unfold StepMachine.runFor
    rcases hfollows s with ⟨r, hhalt, hr⟩ | hsame
    · left
      exact ⟨r, by rw [hhalt], hr⟩
    · rw [hsame]
      cases step s with
      | next t => exact ih t
      | halt r => exact Or.inr rfl
      | stall => exact Or.inr rfl

/-- A follower that is never excused gives the renamed results. -/
theorem Follows.runFor_eq (hfollows : Follows (fun _ => False) f g step step') (n : ℕ) (s : S) :
    StepMachine.runFor step' n (f s) = (StepMachine.runFor step n s).map g := by
  rcases hfollows.runFor n s with ⟨_, _, hfalse⟩ | hsame
  · exact hfalse.elim
  · exact hsame

end StepMachine
