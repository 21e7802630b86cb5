import DwarfExpr.ExpressionRegisters

/-!
# Expressions evaluated in pieces

Without jumps and `DW_OP_regx` an operation depends on the context and the stack only,
not on the list in which it stands. So an expression can be cut anywhere: the second
piece continues from the stack that the first one leaves behind, unless an operation of
the first piece has ended the evaluation.
-/

namespace DwarfExpr

open StepMachine (Step Reaches)
open Fuel (Returns halting)

/-- Neither a jump nor `DW_OP_regx`. -/
def DwarfOp.isStraight (a : DwarfOp) : Bool :=
  match a.opcode with
  | .skip | .bra | .regx => false
  | _ => true

/-- The evaluation runs past the last operation and leaves the stack `left`. -/
def RunsPast (context : Context) (pc : DwarfAddr) (expr : DwarfExpression)
    (stack left : EvalStack) : Prop :=
  ∃ curOff, Visits context pc expr stack ⟨expr.ops.length, curOff, left⟩

/-- The evaluation stops at one of the operations. -/
def StopsAtOp (context : Context) (pc : DwarfAddr) (expr : DwarfExpression)
    (stack : EvalStack) : Prop :=
  ∃ fuel s outcome, Reaches (evalStepAt fuel context pc expr) (.init stack) s ∧
    s.i < expr.ops.length ∧ evalStepAt fuel context pc expr s = .halt outcome

/-- The same state of the loop, `n` operations further on. -/
def EvalState.shift (n : ℕ) (s : EvalState) : EvalState := { s with i := n + s.i }

variable {context : Context} {pc : DwarfAddr} {stack left : EvalStack} {xs ys : List DwarfOp}

/-- The outcomes of a non-empty expression are those of its loop. -/
theorem evaluate_returns_iff_halting {expr : DwarfExpression} {outcome : EvalOutcome}
    (hops : expr.ops ≠ []) :
    Returns (fun fuel => evaluate fuel context pc expr stack) outcome ↔
      Returns (halting (fun fuel => evalStepAt fuel context pc expr) (.init stack)) outcome := by
  constructor
  · rintro ⟨fuel, hfuel⟩
    cases fuel with
    | zero => cases hfuel
    | succ fuel =>
      simp only [evaluate_succ hops] at hfuel
      exact ⟨fuel, hfuel⟩
  · rintro ⟨fuel, hfuel⟩
    refine ⟨fuel + 1, ?_⟩
    simp only [evaluate_succ hops]
    exact hfuel

/-- A straight operation never jumps. -/
theorem execOp_ne_jump_of_isStraight {expr : DwarfExpression} {frameBase : Bounded EvalResult}
    {a : DwarfOp} (hstraight : a.isStraight = true) (next : EvalStack) :
    execOp context pc expr frameBase a stack ≠ .jump next := by
  intro hjump
  unfold DwarfOp.isStraight at hstraight
  rcases execOp_jump_iff.mp hjump with ⟨hop, -⟩ | ⟨hop, -⟩ <;> simp [hop] at hstraight

/-- A straight operation makes the same step in every list, relative to its index. -/
theorem evalStepAt_shift_of_isStraight (expr expr' : DwarfExpression) {a : DwarfOp}
    (hstraight : a.isStraight = true) {s : EvalState} {n : ℕ} (ha : expr.ops[s.i]? = some a)
    (ha' : expr'.ops[n + s.i]? = some a) (fuel : ℕ) :
    evalStepAt fuel context pc expr' (s.shift n) =
      (evalStepAt fuel context pc expr s).map (EvalState.shift n) := by
  have hregx : a.opcode = .regx → regxNumber expr' a = regxNumber expr a := by
    intro hop
    simp [DwarfOp.isStraight, hop] at hstraight
  have hnojump := @execOp_ne_jump_of_isStraight context pc s.stack expr
    (frameBaseAt fuel context pc) a hstraight
  have hget : expr'.ops[(s.shift n).i]? = some a := ha'
  rw [evalStepAt, evalStepAt, evalStep_of_getElem hget, evalStep_of_getElem ha,
    execOp_congr hregx]
  change (execOp context pc expr (frameBaseAt fuel context pc) a s.stack).advance expr' (n + s.i) a
    = _
  generalize execOp context pc expr (frameBaseAt fuel context pc) a s.stack = effect at hnojump ⊢
  cases effect with
  | jump next => exact absurd rfl (hnojump next)
  | goOn next | finish result next | undefined cause | waiting => rfl

/-- Within the first piece the whole expression makes the steps of that piece. -/
theorem evalStepAt_append_left (hstraight : ∀ a ∈ xs, a.isStraight = true) {s : EvalState}
    (hs : s.i < xs.length) (fuel : ℕ) :
    evalStepAt fuel context pc ⟨xs ++ ys⟩ s = evalStepAt fuel context pc ⟨xs⟩ s := by
  have ha := List.getElem?_eq_getElem hs
  have ha' : (xs ++ ys)[0 + s.i]? = some xs[s.i] := by
    rw [Nat.zero_add, List.getElem?_append_left hs, ha]
  have hstep := @evalStepAt_shift_of_isStraight context pc ⟨xs⟩ ⟨xs ++ ys⟩ _
    (hstraight _ (List.getElem_mem hs)) s 0 ha ha' fuel
  have hshift : EvalState.shift 0 = id := by
    funext t
    simp [EvalState.shift]
  rw [hshift] at hstep
  refine hstep.trans ?_
  cases evalStepAt fuel context pc ⟨xs⟩ s <;> rfl

/-- Behind the first piece the whole expression makes the steps of the second. -/
theorem evalStepAt_append_right (hstraight : ∀ a ∈ ys, a.isStraight = true) (s : EvalState)
    (fuel : ℕ) :
    evalStepAt fuel context pc ⟨xs ++ ys⟩ (s.shift xs.length) =
      (evalStepAt fuel context pc ⟨ys⟩ s).map (EvalState.shift xs.length) := by
  have hget : (xs ++ ys)[xs.length + s.i]? = ys[s.i]? := by
    rw [List.getElem?_append_right (by omega), Nat.add_sub_cancel_left]
  cases ha : ys[s.i]? with
  | none =>
    have hbehind : (xs ++ ys)[(s.shift xs.length).i]? = none := hget.trans ha
    simp only [evalStepAt, evalStep, ha, hbehind]
    rfl
  | some a =>
    exact evalStepAt_shift_of_isStraight ⟨ys⟩ ⟨xs ++ ys⟩
      (hstraight a (List.mem_of_getElem? ha)) ha (hget.trans ha) fuel

/-- A run of the first piece is a run of the whole expression. -/
theorem reaches_append (hstraight : ∀ a ∈ xs, a.isStraight = true) {fuel : ℕ} {s t : EvalState}
    (hreach : Reaches (evalStepAt fuel context pc ⟨xs⟩) s t) :
    Reaches (evalStepAt fuel context pc ⟨xs ++ ys⟩) s t := by
  refine StepMachine.Reaches.congr hreach fun a b _ hnext => ?_
  obtain ⟨hlt, -⟩ := evalStep_next_bound hnext
  rw [evalStepAt_append_left hstraight hlt, hnext]

/-- At an operation the loop does not look at `cur_off`. -/
theorem evalStepAt_curOff {expr : DwarfExpression} {i : ℕ} (hi : i < expr.ops.length)
    (curOff curOff' : DwarfUnsigned) (fuel : ℕ) :
    evalStepAt fuel context pc expr ⟨i, curOff, stack⟩ =
      evalStepAt fuel context pc expr ⟨i, curOff', stack⟩ := by
  have ha := List.getElem?_eq_getElem hi
  simp only [evalStepAt, evalStep, ha]

/-- From behind the first piece the whole expression gives the results of the second. -/
theorem halting_append (hstraight : ∀ a ∈ ys, a.isStraight = true) (hys : ys ≠ [])
    (curOff : DwarfUnsigned) :
    halting (fun fuel => evalStepAt fuel context pc ⟨xs ++ ys⟩) ⟨xs.length, curOff, left⟩ =
      halting (fun fuel => evalStepAt fuel context pc ⟨ys⟩) (.init left) := by
  funext n
  have hlt : xs.length < (xs ++ ys).length := by
    have := List.length_pos_iff.mpr hys
    rw [List.length_append]
    omega
  calc StepMachine.runFor (evalStepAt n context pc ⟨xs ++ ys⟩) n ⟨xs.length, curOff, left⟩
      = StepMachine.runFor (evalStepAt n context pc ⟨xs ++ ys⟩) n
          ((EvalState.init left).shift xs.length) :=
        StepMachine.runFor_congr_start (evalStepAt_curOff hlt _ _ n) n
    _ = StepMachine.runFor (evalStepAt n context pc ⟨ys⟩) n (.init left) :=
        StepMachine.runFor_map (fun s => evalStepAt_append_right hstraight s n) n _

/-- An evaluation that returns has run past the last operation or stopped at one. -/
theorem runsPast_or_stopsAtOp {expr : DwarfExpression} {outcome : EvalOutcome}
    (hops : expr.ops ≠ [])
    (hreturns : Returns (fun fuel => evaluate fuel context pc expr stack) outcome) :
    (∃ left, RunsPast context pc expr stack left) ∨ StopsAtOp context pc expr stack := by
  obtain ⟨fuel, s, hreach, hhalt⟩ := (evaluate_returns_iff hops).mp hreturns
  have hbound : s.i ≤ expr.ops.length :=
    @StepMachine.Reaches.invariant _ _ _ (fun t => t.i ≤ expr.ops.length) _ _ hreach
      (Nat.zero_le _) fun _ _ _ hnext => (evalStep_next_bound hnext).2
  rcases Nat.lt_or_eq_of_le hbound with hlt | hend
  · exact Or.inr ⟨fuel, s, outcome, hreach, hlt, hhalt⟩
  · refine Or.inl ⟨s.stack, s.curOff, hops, fuel, ?_⟩
    rw [← hend]
    exact hreach

/-- An expression of two straight pieces gives what the second gives from the stack that
the first leaves behind, and what the first gives if that stops at an operation: the same
result with the same error offset and the same final stack. -/
theorem evaluate_append (context : Context) (pc : DwarfAddr) {xs ys : List DwarfOp}
    (hxs : xs ≠ []) (hys : ys ≠ []) (hstraight : ∀ a ∈ xs ++ ys, a.isStraight = true)
    (stack : EvalStack) :
    (∀ left, RunsPast context pc ⟨xs⟩ stack left → ∀ outcome,
        Returns (fun fuel => evaluate fuel context pc ⟨xs ++ ys⟩ stack) outcome ↔
          Returns (fun fuel => evaluate fuel context pc ⟨ys⟩ left) outcome) ∧
      (StopsAtOp context pc ⟨xs⟩ stack → ∀ outcome,
        Returns (fun fuel => evaluate fuel context pc ⟨xs ++ ys⟩ stack) outcome ↔
          Returns (fun fuel => evaluate fuel context pc ⟨xs⟩ stack) outcome) := by
  have hleft : ∀ a ∈ xs, a.isStraight = true := fun a ha =>
    hstraight a (List.mem_append_left ys ha)
  have hright : ∀ a ∈ ys, a.isStraight = true := fun a ha =>
    hstraight a (List.mem_append_right xs ha)
  have hboth : xs ++ ys ≠ [] := List.append_ne_nil_of_left_ne_nil hxs ys
  constructor
  · rintro left ⟨curOff, -, fuel, hreach⟩ outcome
    rw [evaluate_returns_iff_halting hboth, evaluate_returns_iff_halting hys,
      (evalStepAt_settlingSteps context pc ⟨xs ++ ys⟩).returns_iff_of_reaches
        (reaches_append hleft hreach)]
    exact iff_of_eq (congrArg (Returns · outcome) (halting_append hright hys curOff))
  · rintro ⟨fuel, s, stopped, hreach, hs, hhalt⟩ outcome
    have hhalt' : evalStepAt fuel context pc ⟨xs ++ ys⟩ s = .halt stopped := by
      rw [evalStepAt_append_left hleft hs, hhalt]
    have hpiece := (evaluate_returns_iff hxs).mpr ⟨fuel, s, hreach, hhalt⟩
    have hwhole := (evaluate_returns_iff hboth).mpr
      ⟨fuel, s, reaches_append hleft hreach, hhalt'⟩
    constructor
    · intro hreturns
      obtain rfl := (evaluate_settles context pc ⟨xs ++ ys⟩ stack).unique hreturns hwhole
      exact hpiece
    · intro hreturns
      obtain rfl := (evaluate_settles context pc ⟨xs⟩ stack).unique hreturns hpiece
      exact hwhole

/-- Two pieces that together add the literals 1 and 2. -/
theorem evaluate_append_add :
    (∀ left, RunsPast emptyContext 0 ⟨[⟨.lit 1, 0, 0, 0, 0⟩]⟩ [] left → ∀ outcome,
        Returns (fun fuel => evaluate fuel emptyContext 0
            ⟨[⟨.lit 1, 0, 0, 0, 0⟩] ++ [⟨.lit 2, 0, 0, 0, 1⟩, ⟨.binary .plus, 0, 0, 0, 2⟩]⟩ [])
          outcome ↔
          Returns (fun fuel => evaluate fuel emptyContext 0
            ⟨[⟨.lit 2, 0, 0, 0, 1⟩, ⟨.binary .plus, 0, 0, 0, 2⟩]⟩ left) outcome) ∧
      (StopsAtOp emptyContext 0 ⟨[⟨.lit 1, 0, 0, 0, 0⟩]⟩ [] → ∀ outcome,
        Returns (fun fuel => evaluate fuel emptyContext 0
            ⟨[⟨.lit 1, 0, 0, 0, 0⟩] ++ [⟨.lit 2, 0, 0, 0, 1⟩, ⟨.binary .plus, 0, 0, 0, 2⟩]⟩ [])
          outcome ↔
          Returns (fun fuel => evaluate fuel emptyContext 0 ⟨[⟨.lit 1, 0, 0, 0, 0⟩]⟩ [])
            outcome) :=
  evaluate_append emptyContext 0 (List.cons_ne_nil _ _) (List.cons_ne_nil _ _) (by decide) []

end DwarfExpr
