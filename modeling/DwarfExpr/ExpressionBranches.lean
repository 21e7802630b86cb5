import DwarfExpr.EvaluateRuns

/-!
# Conditional branches of the expression machine

DWARF takes a `DW_OP_bra` only if the value that it pops is not zero; on zero it is a
`DW_OP_drop`. The source pops the value unread and always looks for the target. Its runs
are those of a machine with conditional branches as long as a branch on zero finds no
target, or itself.
-/

namespace DwarfExpr

open StepMachine (Step SameRun)

/-- The operation that DWARF executes on a stack: a branch on zero is a `DW_OP_drop`. -/
def DwarfOp.conditional (a : DwarfOp) (stack : EvalStack) : DwarfOp :=
  if a.opcode = .bra ∧ stack.head? = some 0 then { a with opcode := .drop } else a

/-- One iteration of the loop of `evaluate` with conditional branches. -/
def conditionalStep (context : Context) (pc : DwarfAddr) (expr : DwarfExpression)
    (frameBase : Bounded EvalResult) (s : EvalState) : Step EvalState EvalOutcome :=
  match expr.ops[s.i]? with
  | none => .halt (.ok (endOfLoop s, s.stack))
  | some a =>
    (execOp context pc expr frameBase (a.conditional s.stack) s.stack).advance expr s.i a

/-- The step with conditional branches, whose nested evaluations get the given fuel. -/
def conditionalStepAt (fuel : ℕ) (context : Context) (pc : DwarfAddr) (expr : DwarfExpression) :
    EvalState → Step EvalState EvalOutcome :=
  conditionalStep context pc expr (frameBaseAt fuel context pc)

/-- `evaluate` with conditional branches in its own loop. -/
def conditionalEvaluate : ℕ → Context → DwarfAddr → DwarfExpression → EvalStack →
    Option EvalOutcome
  | 0, _, _, _, _ => none
  | fuel + 1, context, pc, expr, stack =>
    if expr.ops.length < 1 then some (.ok (.error .illegalState 0, stack))
    else StepMachine.runFor (conditionalStepAt fuel context pc expr) fuel (.init stack)

/-- The evaluation runs as one whose branches are conditional: it passes through the same
states and ends in the same way. -/
def BranchesConditionally (context : Context) (pc : DwarfAddr) (expr : DwarfExpression)
    (stack : EvalStack) : Prop :=
  ∀ fuel, SameRun (evalStepAt fuel context pc expr) (conditionalStepAt fuel context pc expr)
    (.init stack)

/-- The lookup of the jump finds no operation, or the jump itself. -/
def DwarfOp.StaysAt (a : DwarfOp) (expr : DwarfExpression) (i : ℕ) : Prop :=
  expr.findOpIndexByOffset a.jumpOffset = none ∨
    expr.findOpIndexByOffset a.jumpOffset = some i

/-- At such a jump the loop goes on with the next operation. -/
theorem DwarfOp.staysAt_iff {a : DwarfOp} {expr : DwarfExpression} {i : ℕ} :
    a.StaysAt expr i ↔ expr.jumpIndex a i = i := by
  unfold StaysAt DwarfExpression.jumpIndex
  cases expr.findOpIndexByOffset a.jumpOffset <;> simp

section

variable {context : Context} {pc : DwarfAddr} {expr : DwarfExpression}
  {frameBase : Bounded EvalResult} {s : EvalState} {a : DwarfOp} {rest : EvalStack}

/-- At an operation the loop with conditional branches takes over its effect. -/
theorem conditionalStep_of_getElem (ha : expr.ops[s.i]? = some a) :
    conditionalStep context pc expr frameBase s =
      (execOp context pc expr frameBase (a.conditional s.stack) s.stack).advance expr s.i a := by
  simp only [conditionalStep, ha]

/-- A branch on zero only drops the zero. -/
theorem conditionalStep_of_zero (ha : expr.ops[s.i]? = some a) (hop : a.opcode = .bra)
    (hstack : s.stack = 0 :: rest) :
    conditionalStep context pc expr frameBase s = .next ⟨s.i + 1, a.off, rest⟩ := by
  have hdrop : a.conditional s.stack = { a with opcode := .drop } := by
    rw [DwarfOp.conditional, if_pos ⟨hop, by rw [hstack]; rfl⟩]
  rw [conditionalStep_of_getElem ha, hdrop, hstack]
  rfl

/-- The source jumps there all the same. -/
theorem evalStep_of_zero (ha : expr.ops[s.i]? = some a) (hop : a.opcode = .bra)
    (hstack : s.stack = 0 :: rest) :
    evalStep context pc expr frameBase s =
      .next ⟨expr.jumpIndex a s.i + 1, a.off, rest⟩ := by
  rw [evalStep_of_getElem ha, hstack]
  simp only [execOp, hop, OpEffect.advance]

/-- In a state that is no branch on zero the two loops do the same. -/
theorem evalStep_eq_conditionalStep
    (hother : ∀ a rest, expr.ops[s.i]? = some a → a.opcode = .bra → s.stack ≠ 0 :: rest) :
    evalStep context pc expr frameBase s = conditionalStep context pc expr frameBase s := by
  cases ha : expr.ops[s.i]? with
  | none => simp only [evalStep, conditionalStep, ha]
  | some a =>
    have hsame : a.conditional s.stack = a := by
      rw [DwarfOp.conditional, if_neg]
      rintro ⟨hop, hzero⟩
      obtain ⟨rest, hstack⟩ := List.head?_eq_some_iff.mp hzero
      exact hother a rest ha hop hstack
    rw [evalStep_of_getElem ha, conditionalStep_of_getElem ha, hsame]

/-- At a branch on zero the two loops do the same exactly if the jump stays. -/
theorem evalStep_eq_conditionalStep_iff (ha : expr.ops[s.i]? = some a) (hop : a.opcode = .bra)
    (hstack : s.stack = 0 :: rest) :
    evalStep context pc expr frameBase s = conditionalStep context pc expr frameBase s ↔
      a.StaysAt expr s.i := by
  rw [evalStep_of_zero ha hop hstack, conditionalStep_of_zero ha hop hstack, DwarfOp.staysAt_iff]
  simp

end

/-- An evaluation runs as one with conditional branches exactly if every branch that it
comes to with a zero on top finds no target, or itself. -/
theorem evaluate_bra_iff (context : Context) (pc : DwarfAddr) (expr : DwarfExpression)
    (stack : EvalStack) :
    BranchesConditionally context pc expr stack ↔
      ∀ s, Visits context pc expr stack s → ∀ a rest, expr.ops[s.i]? = some a →
        a.opcode = .bra → s.stack = 0 :: rest → a.StaysAt expr s.i := by
  constructor
  · rintro hruns s ⟨-, fuel, hreach⟩ a rest ha hop hstack
    have hstep := StepMachine.sameRun_iff.mp (hruns fuel) s hreach
    exact (evalStep_eq_conditionalStep_iff ha hop hstack).mp hstep
  · intro hstays fuel
    rw [StepMachine.sameRun_iff]
    intro s hreach
    by_cases hzero : ∃ a rest, expr.ops[s.i]? = some a ∧ a.opcode = .bra ∧ s.stack = 0 :: rest
    · obtain ⟨a, rest, ha, hop, hstack⟩ := hzero
      have hvisits : Visits context pc expr stack s := by
        refine ⟨?_, fuel, hreach⟩
        intro hnil
        rw [hnil] at ha
        cases ha
      exact (evalStep_eq_conditionalStep_iff ha hop hstack).mpr
        (hstays s hvisits a rest ha hop hstack)
    · apply evalStep_eq_conditionalStep
      intro a rest ha hop hstack
      exact hzero ⟨a, rest, ha, hop, hstack⟩

/-- Evaluations that run as with conditional branches give the same results. -/
theorem BranchesConditionally.evaluate_eq {context : Context} {pc : DwarfAddr}
    {expr : DwarfExpression} {stack : EvalStack}
    (hruns : BranchesConditionally context pc expr stack) (fuel : ℕ) :
    evaluate fuel context pc expr stack = conditionalEvaluate fuel context pc expr stack := by
  cases fuel with
  | zero => rfl
  | succ fuel =>
    by_cases hops : expr.ops = []
    · rw [evaluate_of_nil hops, conditionalEvaluate, if_pos (by rw [hops]; exact Nat.zero_lt_one)]
    · have hlength := List.length_pos_iff.mpr hops
      rw [evaluate_succ hops, conditionalEvaluate, if_neg (by omega)]
      exact StepMachine.runFor_congr (StepMachine.sameRun_iff.mp (hruns fuel)) fuel

/-- `DW_OP_lit0` and a branch behind the `DW_OP_lit1` that follows it. -/
def branchOnZero : DwarfExpression :=
  ⟨[⟨.lit 0, 0, 0, 0, 0⟩, ⟨.bra, 3, 0, 0, 1⟩, ⟨.lit 1, 0, 0, 0, 4⟩, ⟨.nop, 0, 0, 0, 5⟩,
    ⟨.nop, 0, 0, 0, 6⟩, ⟨.nop, 0, 0, 0, 7⟩]⟩

/-- The branch is taken on zero, and the evaluation fails instead of giving the address 1. -/
theorem evaluate_branchOnZero :
    evaluate 9 emptyContext 0 branchOnZero [] = some (.ok (.error .stackIndexInvalid 7, [])) ∧
      conditionalEvaluate 9 emptyContext 0 branchOnZero [] = some (.ok (.address 1, [1])) ∧
      ¬BranchesConditionally emptyContext 0 branchOnZero [] := by
  refine ⟨by decide, by decide, fun hruns => ?_⟩
  have hstates := hruns 0 2
  exact absurd hstates (by decide)

end DwarfExpr
