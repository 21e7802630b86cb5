import DwarfExpr.ExpressionEffects
import DwarfExpr.Lib.RunLength

/-!
# Loops of expressions

Nothing bounds the number of iterations of `evaluate`: a jump may lead back to any
operation, and the loop then goes on for as long as the expression asks. Between two
jumps back it can only work through the operations once, so the jumps back bound the
whole run, and without infinitely many of them the evaluation ends.
-/

namespace DwarfExpr

open StepMachine (Reaches Run Step runFor)
open Fuel (Returns)

/-- The providers of the context return at the pc, the frame base within this fuel. -/
structure ProvidersReturn (fuel : ℕ) (context : Context) (pc : DwarfAddr) : Prop where
  frameBase : frameBaseAt fuel context pc ≠ none
  cfa : ∀ cfa, context.cfa = some cfa → cfa pc ≠ none

/-- With providers that return no operation waits. -/
theorem ProvidersReturn.ne_stall {fuel : ℕ} {context : Context} {pc : DwarfAddr}
    (hreturn : ProvidersReturn fuel context pc) (expr : DwarfExpression) (s : EvalState) :
    evalStepAt fuel context pc expr s ≠ .stall := by
  intro hstall
  obtain ⟨a, -, hwaiting⟩ := evalStep_stall_cases hstall
  rcases execOp_waiting_iff.mp hwaiting with ⟨-, -, hbase⟩ | ⟨-, cfa, hcfa, hanswer⟩
  · exact hreturn.frameBase hbase
  · exact hreturn.cfa cfa hcfa hanswer

/-- The loop makes `m` iterations from one state to another, `k` of them jumps that lead
to the jump itself or an operation before it. -/
abbrev Iterates (fuel : ℕ) (context : Context) (pc : DwarfAddr) (expr : DwarfExpression) :
    ℕ → ℕ → EvalState → EvalState → Prop :=
  Run (evalStepAt fuel context pc expr) EvalState.i

/-- The evaluation makes at most `k` jumps back. -/
def JumpsBackAtMost (k fuel : ℕ) (context : Context) (pc : DwarfAddr) (expr : DwarfExpression)
    (stack : EvalStack) : Prop :=
  ∀ m k' s, Iterates fuel context pc expr m k' (.init stack) s → k' ≤ k

/-- More fuel changes nothing for steps that do not wait. -/
theorem ProvidersReturn.evalStepAt_eq {fuel fuel' : ℕ} {context : Context} {pc : DwarfAddr}
    (hreturn : ProvidersReturn fuel context pc) (hle : fuel ≤ fuel') (expr : DwarfExpression) :
    evalStepAt fuel' context pc expr = evalStepAt fuel context pc expr := by
  funext s
  rcases evalStepAt_settlingSteps context pc expr hle s with hstall | hsame
  · exact absurd hstall (hreturn.ne_stall expr s)
  · exact hsame.symm

/-- A loop that halts within some number of iterations is an evaluation that returns. -/
theorem exists_returns_of_runFor {fuel n : ℕ} {context : Context} {pc : DwarfAddr}
    {expr : DwarfExpression} {stack : EvalStack} {outcome : EvalOutcome}
    (hrun : runFor (evalStepAt fuel context pc expr) n (.init stack) = some outcome) :
    ∃ outcome, Returns (fun fuel => evaluate fuel context pc expr stack) outcome := by
  by_cases hops : expr.ops = []
  · exact ⟨_, 1, evaluate_of_nil hops 0 context pc stack⟩
  · obtain ⟨s, hreach, hhalt⟩ := StepMachine.exists_runFor_iff.mp ⟨n, hrun⟩
    exact ⟨outcome, (evaluate_returns_iff hops).mpr ⟨fuel, s, hreach, hhalt⟩⟩

/-- With at most `k` jumps back the loop ends within `k + 1` passes over the operations. -/
theorem runFor_of_jumpsBackAtMost {k fuel : ℕ} {context : Context} {pc : DwarfAddr}
    {expr : DwarfExpression} {stack : EvalStack} (hreturn : ProvidersReturn fuel context pc)
    (hback : JumpsBackAtMost k fuel context pc expr stack) :
    ∃ outcome, runFor (evalStepAt fuel context pc expr) ((k + 1) * expr.ops.length + 1)
      (.init stack) = some outcome :=
  StepMachine.halts_of_back_le (fun s _ => hreturn.ne_stall expr s) (fun _ _ => evalStep_next_bound)
    (Nat.zero_le _) hback

/-- An evaluation that returns makes a bounded number of jumps back. -/
theorem exists_jumpsBackAtMost {fuel : ℕ} {context : Context} {pc : DwarfAddr}
    {expr : DwarfExpression} {stack : EvalStack} {outcome : EvalOutcome}
    (hreturn : ProvidersReturn fuel context pc)
    (hreturns : Returns (fun fuel => evaluate fuel context pc expr stack) outcome) :
    ∃ k, JumpsBackAtMost k fuel context pc expr stack := by
  by_cases hops : expr.ops = []
  · refine ⟨0, fun m k s hrun => ?_⟩
    have hbound := hrun.length_le (fun _ _ => evalStep_next_bound) (Nat.zero_le _)
    have hle := hrun.back_le
    rw [hops, List.length_nil] at hbound
    omega
  · obtain ⟨fuel', s, hreach, hhalt⟩ := (evaluate_returns_iff hops).mp hreturns
    obtain ⟨n, hrun⟩ := StepMachine.exists_runFor_iff.mpr ⟨s, hreach, hhalt⟩
    have hlarger : runFor (evalStepAt (max fuel fuel') context pc expr) n (.init stack) =
        some outcome :=
      StepMachine.runFor_mono_of_refines
        (evalStepAt_settlingSteps context pc expr (Nat.le_max_right fuel fuel')) (Nat.le_refl n)
        hrun
    rw [hreturn.evalStepAt_eq (Nat.le_max_left fuel fuel') expr] at hlarger
    refine ⟨n, fun m k s hiterates => ?_⟩
    have hlt := hiterates.lt_of_runFor hlarger
    have hle := hiterates.back_le
    omega

/-- An evaluation whose providers return ends exactly when the number of its jumps back
is bounded, and with at most `k` of them after `k + 1` passes over the operations. -/
theorem evaluate_ends_iff {fuel : ℕ} {context : Context} {pc : DwarfAddr}
    (hreturn : ProvidersReturn fuel context pc) (expr : DwarfExpression) (stack : EvalStack) :
    ((∃ outcome, Returns (fun fuel => evaluate fuel context pc expr stack) outcome) ↔
        ∃ k, JumpsBackAtMost k fuel context pc expr stack) ∧
      ∀ k, JumpsBackAtMost k fuel context pc expr stack →
        ∃ outcome, runFor (evalStepAt fuel context pc expr) ((k + 1) * expr.ops.length + 1)
          (.init stack) = some outcome := by
  refine ⟨⟨?_, ?_⟩, fun k hback => runFor_of_jumpsBackAtMost hreturn hback⟩
  · rintro ⟨outcome, hreturns⟩
    exact exists_jumpsBackAtMost hreturn hreturns
  · rintro ⟨k, hback⟩
    obtain ⟨outcome, hrun⟩ := runFor_of_jumpsBackAtMost hreturn hback
    exact exists_returns_of_runFor hrun

/-- The loop makes at most `k` jumps back, and each frame base and CFA that it asks for is there
within this fuel. -/
structure LoopBounded (fuel k : ℕ) (context : Context) (pc : DwarfAddr) (expr : DwarfExpression)
    (stack : EvalStack) : Prop where
  jumpsBack : JumpsBackAtMost k fuel context pc expr stack
  answered : ∀ s, Reaches (evalStepAt fuel context pc expr) (.init stack) s →
    evalStepAt fuel context pc expr s ≠ .stall

/-- A loop that has halted has been bounded. -/
theorem loopBounded_of_runFor {fuel n : ℕ} {context : Context} {pc : DwarfAddr}
    {expr : DwarfExpression} {stack : EvalStack} {outcome : EvalOutcome}
    (hrun : runFor (evalStepAt fuel context pc expr) n (.init stack) = some outcome) :
    LoopBounded fuel n context pc expr stack where
  jumpsBack m k s hiterates := by
    have hlt := hiterates.lt_of_runFor hrun
    have hle := hiterates.back_le
    omega
  answered s hreach :=
    StepMachine.Refines.ne_stall_of_runFor (fun _ => Or.inr rfl) hrun hreach

/-- An evaluation ends exactly when its loop is bounded. -/
theorem exists_returns_iff_loopBounded {context : Context} {pc : DwarfAddr}
    {expr : DwarfExpression} {stack : EvalStack} (hops : expr.ops ≠ []) :
    (∃ outcome, Returns (fun fuel => evaluate fuel context pc expr stack) outcome) ↔
      ∃ fuel k, LoopBounded fuel k context pc expr stack := by
  constructor
  · rintro ⟨outcome, hreturns⟩
    obtain ⟨fuel, s, hreach, hhalt⟩ := (evaluate_returns_iff hops).mp hreturns
    obtain ⟨n, hrun⟩ := StepMachine.exists_runFor_iff.mpr ⟨s, hreach, hhalt⟩
    exact ⟨fuel, n, loopBounded_of_runFor hrun⟩
  · rintro ⟨fuel, k, hbounded⟩
    obtain ⟨outcome, hrun⟩ := StepMachine.halts_of_back_le hbounded.answered
      (fun _ _ => evalStep_next_bound) (Nat.zero_le _) hbounded.jumpsBack
    exact exists_returns_of_runFor hrun

/-- No operation of the list jumps to itself or an operation before it. -/
def DwarfExpression.JumpsForward (expr : DwarfExpression) : Prop :=
  ∀ (i : ℕ) (a : DwarfOp), expr.ops[i]? = some a → a.opcode = .skip ∨ a.opcode = .bra →
    i ≤ expr.jumpIndex a i

/-- An expression whose jumps all lead forward makes no jump back. -/
theorem DwarfExpression.JumpsForward.jumpsBackAtMost {expr : DwarfExpression}
    (hforward : expr.JumpsForward) (fuel : ℕ) (context : Context) (pc : DwarfAddr)
    (stack : EvalStack) : JumpsBackAtMost 0 fuel context pc expr stack := by
  intro m k s hrun
  have hraises (s t : EvalState) (hstep : evalStepAt fuel context pc expr s = .next t) :
      s.i < t.i := by
    obtain ⟨a, ha, -, ⟨hindex, -⟩ | ⟨hindex, hjump⟩⟩ := evalStep_next_cases hstep
    · omega
    · have hop : a.opcode = .skip ∨ a.opcode = .bra := by
        rcases execOp_jump_iff.mp hjump with ⟨hop, -⟩ | ⟨hop, -⟩
        · exact Or.inl hop
        · exact Or.inr hop
      have hle := hforward _ _ ha hop
      omega
  generalize EvalState.init stack = s₀ at hrun
  induction hrun with
  | refl => exact Nat.le_refl 0
  | raise _ _ _ ih => exact ih
  | back hstep hrank _ _ =>
    have hlt := hraises _ _ hstep
    omega

/-- An expression whose jumps all lead forward is evaluated to an end. -/
theorem DwarfExpression.JumpsForward.exists_returns {expr : DwarfExpression}
    (hforward : expr.JumpsForward) {fuel : ℕ} {context : Context} {pc : DwarfAddr}
    (hreturn : ProvidersReturn fuel context pc) (stack : EvalStack) :
    ∃ outcome, Returns (fun fuel => evaluate fuel context pc expr stack) outcome := by
  obtain ⟨outcome, hrun⟩ :=
    runFor_of_jumpsBackAtMost hreturn (hforward.jumpsBackAtMost fuel context pc stack)
  exact exists_returns_of_runFor hrun

/-- An operation without effect and a jump of one byte back to it. -/
def backToStart : DwarfExpression := ⟨[⟨.nop, 0, 0, 0, 0⟩, ⟨.skip, 0xffff, 0, 0, 1⟩]⟩

/-- A jump that leads to itself is executed over and over, in a context whose providers
return. -/
theorem backToStart_never_ends :
    ProvidersReturn 0 emptyContext 0 ∧
      ¬∃ outcome, Returns (fun fuel => evaluate fuel emptyContext 0 backToStart []) outcome := by
  refine ⟨⟨by decide, fun cfa hcfa => by cases hcfa⟩, ?_⟩
  rintro ⟨outcome, hreturns⟩
  obtain ⟨fuel, s, hreach, hhalt⟩ := (evaluate_returns_iff (by simp [backToStart])).mp hreturns
  have hfirst (c : DwarfUnsigned) (stack : EvalStack) :
      evalStepAt fuel emptyContext 0 backToStart ⟨0, c, stack⟩ = .next ⟨1, 0, stack⟩ := rfl
  have hsecond (c : DwarfUnsigned) (stack : EvalStack) :
      evalStepAt fuel emptyContext 0 backToStart ⟨1, c, stack⟩ = .next ⟨1, 1, stack⟩ := rfl
  have hnext : ∀ a b : EvalState, a.i = 0 ∨ a.i = 1 →
      evalStepAt fuel emptyContext 0 backToStart a = .next b → b.i = 0 ∨ b.i = 1 := by
    rintro ⟨i, c, stack⟩ b (rfl | rfl) hstep
    · rw [hfirst] at hstep
      cases hstep
      exact Or.inr rfl
    · rw [hsecond] at hstep
      cases hstep
      exact Or.inr rfl
  have hinside : s.i = 0 ∨ s.i = 1 :=
    @StepMachine.Reaches.invariant _ _ _ (fun a => a.i = 0 ∨ a.i = 1) _ _ hreach (Or.inl rfl)
      hnext
  obtain ⟨i, c, stack⟩ := s
  rcases hinside with rfl | rfl
  · rw [hfirst] at hhalt
    cases hhalt
  · rw [hsecond] at hhalt
    cases hhalt

/-- An expression that counts down in a loop: its last operation goes on behind the first. -/
def countDown : DwarfExpression where
  ops := [{ opcode := .lit 3, off := 0 }, { opcode := .lit 1, off := 1 },
    { opcode := .binary .minus, off := 2 }, { opcode := .dup, off := 3 },
    { opcode := .bra, op1 := -4, off := 4 }]

/-- The characterization at a loop that jumps back twice. -/
theorem evaluate_ends_iff_countDown :
    ((∃ outcome, Returns (fun fuel => evaluate fuel framedContext 0 countDown []) outcome) ↔
        ∃ k, JumpsBackAtMost k 3 framedContext 0 countDown []) ∧
      ∀ k, JumpsBackAtMost k 3 framedContext 0 countDown [] →
        ∃ outcome, runFor (evalStepAt 3 framedContext 0 countDown) ((k + 1) * 5 + 1) (.init []) =
          some outcome := by
  refine evaluate_ends_iff ⟨by decide, ?_⟩ countDown []
  rintro cfa ⟨⟩ hnone
  cases hnone

end DwarfExpr
