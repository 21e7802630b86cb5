import DwarfExpr.ExpressionStack
import DwarfExpr.Lib.Simulation

/-!
# What lies below the entries of an evaluation

The stack that an evaluation gets from its caller may hold more than the evaluation uses.
Entries below those it uses stay where they are and change neither its result nor its
course, jumps and nested evaluations included: a run on a small stack that never lacks an
entry is also the run on every stack that continues it downwards.
-/

namespace DwarfExpr

open StepMachine (Step Follows)
open Fuel (Returns)

/-- The effect with further entries below every stack in it. -/
def OpEffect.above (low : EvalStack) : OpEffect → OpEffect
  | goOn stack => .goOn (stack ++ low)
  | jump stack => .jump (stack ++ low)
  | finish result stack => .finish result (stack ++ low)
  | undefined cause => .undefined cause
  | waiting => .waiting

/-- The effect of lacking an entry: the error of a check, or an access without one. -/
def OpEffect.LacksEntry : OpEffect → Prop
  | finish (.error .stackIndexInvalid _) _ => True
  | undefined .emptyStack => True
  | _ => False

/-- The state with further entries below its stack. -/
def EvalState.above (low : EvalStack) (s : EvalState) : EvalState :=
  { s with stack := s.stack ++ low }

/-- The outcome with further entries below the final stack. -/
def EvalOutcome.above (low : EvalStack) : EvalOutcome → EvalOutcome :=
  Except.map fun (result, stack) => (result, stack ++ low)

/-- The evaluation has ended for want of an entry. -/
def EvalOutcome.LacksEntry : EvalOutcome → Prop
  | .ok (.error .stackIndexInvalid _, _) => True
  | .error .emptyStack => True
  | _ => False

section Steps

variable (context : Context) (pc : DwarfAddr) (expr : DwarfExpression)
  (frameBase : Bounded EvalResult)

/-- `DW_OP_pick` copies the same entry from a stack that goes on further down, unless it
lacks it. -/
theorem execOp_pick_above {a : DwarfOp} (hop : a.opcode = .pick) (stack low : EvalStack) :
    (execOp context pc expr frameBase a stack).LacksEntry ∨
      execOp context pc expr frameBase a (stack ++ low) =
        (execOp context pc expr frameBase a stack).above low := by
  by_cases hchecked : stack.length < (a.op1 + 1).toNat
  · left
    simp only [execOp, hop, if_pos hchecked, OpEffect.LacksEntry]
  have hchecked' : ¬(stack ++ low).length < (a.op1 + 1).toNat := by
    rw [List.length_append]
    omega
  by_cases hsmall : a.op1.toNat < 2 ^ 32
  · have hnext : (a.op1 + 1).toNat = a.op1.toNat + 1 := by
      apply toNat_add_one
      intro hall
      rw [hall] at hsmall
      exact absurd hsmall (by decide)
    have hlength : a.op1.toNat < stack.length := by omega
    have hlength' : a.op1.toNat < (stack ++ low).length := by
      rw [List.length_append]
      omega
    right
    simp only [execOp, hop, if_neg hchecked, if_neg hchecked', pickOp_eq hsmall hlength,
      pickOp_eq hsmall hlength', OpEffect.above, List.cons_append,
      List.getElem_append_left hlength]
  · left
    have hpick : pickOp a.op1 stack = none := by
      rw [pickOp, pickUnload_eq_none (by omega)]
    simp only [execOp, hop, if_neg hchecked, hpick, OpEffect.LacksEntry]

/-- A provider's answer is pushed alike above further entries. -/
theorem pushOrFail_above (stack low : EvalStack) (failure : EvalResult)
    (answer : Option (BitVec 64)) :
    pushOrFail (stack ++ low) failure answer = (pushOrFail stack failure answer).above low := by
  cases answer <;> rfl

/-- The value of an arithmetic operation is pushed alike above further entries. -/
theorem pushArith_above (rest low : EvalStack) (value : Arith) :
    pushArith (rest ++ low) value = (pushArith rest value).above low := by
  cases value <;> rfl

/-- An operation does the same above further entries, unless it lacks one. -/
theorem execOp_above (a : DwarfOp) (stack low : EvalStack) :
    (execOp context pc expr frameBase a stack).LacksEntry ∨
      execOp context pc expr frameBase a (stack ++ low) =
        (execOp context pc expr frameBase a stack).above low := by
  cases hop : a.opcode with
  | pick => exact execOp_pick_above context pc expr frameBase hop stack low
  | unnamed | lit _ | const _ | skip | nop | missing _ =>
    right
    simp only [execOp, hop, OpEffect.above, List.cons_append]
  | reg _ | regx =>
    right
    simp only [execOp, hop]
    split <;> rfl
  | fbreg =>
    right
    simp only [execOp, hop]
    split
    · rfl
    split
    · rfl
    · rfl
    · exact pushOrFail_above stack low _ _
  | breg _ | bregx =>
    right
    simp only [execOp, hop]
    exact pushOrFail_above stack low _ _
  | callFrameCfa =>
    right
    simp only [execOp, hop]
    split
    · rfl
    split <;> rfl
  | dup | drop | bra | stackValue =>
    rcases stack with _ | ⟨x, rest⟩
    · left
      simp only [execOp, hop, OpEffect.LacksEntry]
    · right
      simp only [execOp, hop, OpEffect.above, List.cons_append]
  | unary kind =>
    rcases stack with _ | ⟨x, rest⟩
    · left
      simp only [execOp, hop, OpEffect.LacksEntry]
    · right
      simp only [execOp, hop, List.cons_append]
      exact pushArith_above rest low _
  | «over» | swap | compare _ =>
    rcases stack with _ | ⟨x, _ | ⟨y, rest⟩⟩
    · left
      simp only [execOp, hop, OpEffect.LacksEntry]
    · left
      simp only [execOp, hop, OpEffect.LacksEntry]
    · right
      simp only [execOp, hop, OpEffect.above, List.cons_append]
  | binary kind =>
    rcases stack with _ | ⟨x, _ | ⟨y, rest⟩⟩
    · left
      simp only [execOp, hop, OpEffect.LacksEntry]
    · left
      simp only [execOp, hop, OpEffect.LacksEntry]
    · right
      simp only [execOp, hop, List.cons_append]
      exact pushArith_above rest low _
  | rot =>
    rcases stack with _ | ⟨x, _ | ⟨y, _ | ⟨z, rest⟩⟩⟩
    · left
      simp only [execOp, hop, OpEffect.LacksEntry]
    · left
      simp only [execOp, hop, OpEffect.LacksEntry]
    · left
      simp only [execOp, hop, OpEffect.LacksEntry]
    · right
      simp only [execOp, hop, OpEffect.above, List.cons_append]
  | deref | derefSize =>
    cases hmemory : context.memory with
    | none =>
      right
      simp only [execOp, hop, hmemory, OpEffect.above]
    | some memory =>
      rcases stack with _ | ⟨adr, rest⟩
      · left
        simp only [execOp, hop, hmemory, OpEffect.LacksEntry]
      · right
        simp only [execOp, hop, hmemory, List.cons_append]
        split
        · rfl
        · first
          | rfl
          | split <;> rfl

/-- An operation that lacks an entry ends the loop for that reason. -/
theorem OpEffect.LacksEntry.advance {effect : OpEffect} (hlacks : effect.LacksEntry) (i : ℕ)
    (a : DwarfOp) :
    ∃ outcome, effect.advance expr i a = .halt outcome ∧ EvalOutcome.LacksEntry outcome := by
  cases effect with
  | goOn | jump | waiting => exact hlacks.elim
  | undefined cause =>
    refine ⟨.error cause, rfl, ?_⟩
    cases cause <;> exact hlacks
  | finish result stack =>
    refine ⟨.ok (result, stack), rfl, ?_⟩
    rcases result with ⟨code, addr⟩ | v | v
    · cases code <;> exact hlacks
    · exact hlacks
    · exact hlacks

/-- A loop step does the same above further entries, unless it ends for want of one. -/
theorem evalStep_follows_above (low : EvalStack) :
    Follows EvalOutcome.LacksEntry (EvalState.above low) (EvalOutcome.above low)
      (evalStep context pc expr frameBase) (evalStep context pc expr frameBase) := by
  intro s
  have hget : (s.above low).i = s.i := rfl
  cases ha : expr.ops[s.i]? with
  | none =>
    rcases s with ⟨i, curOff, _ | ⟨v, rest⟩⟩
    · left
      exact ⟨.ok (.error .stackIndexInvalid curOff, []), by simp only [evalStep, ha, endOfLoop],
        trivial⟩
    · right
      simp only [evalStep, hget, ha]
      rfl
  | some a =>
    rw [evalStep_of_getElem ha, evalStep_of_getElem (s := s.above low) ha]
    rcases execOp_above context pc expr frameBase a s.stack low with hlacks | hsame
    · left
      exact hlacks.advance expr s.i a
    · right
      change (execOp context pc expr frameBase a (s.stack ++ low)).advance expr s.i a = _
      rw [hsame]
      cases execOp context pc expr frameBase a s.stack <;> rfl

end Steps

/-- With the same fuel an evaluation above further entries returns what it returns without
them, with these entries left below, unless it ends for want of an entry. -/
theorem evaluate_above (fuel : ℕ) (context : Context) (pc : DwarfAddr) (expr : DwarfExpression)
    (stack low : EvalStack) :
    (∃ outcome, evaluate fuel context pc expr stack = some outcome ∧ outcome.LacksEntry) ∨
      evaluate fuel context pc expr (stack ++ low) =
        (evaluate fuel context pc expr stack).map (EvalOutcome.above low) := by
  cases fuel with
  | zero => exact Or.inr rfl
  | succ fuel =>
    by_cases hops : expr.ops = []
    · right
      rw [evaluate_of_nil hops, evaluate_of_nil hops]
      rfl
    · rw [evaluate_succ hops, evaluate_succ hops]
      exact (evalStep_follows_above context pc expr _ low).runFor fuel (.init stack)

/-- An evaluation that does not end for want of an entry is indifferent to what lies below
its stack: above further entries it returns exactly the outcomes that it returns without
them, with these entries left below the final stack. In particular it returns neither more
nor less often. -/
theorem evaluate_framed_iff (context : Context) (pc : DwarfAddr) (expr : DwarfExpression)
    {stack : EvalStack} (low : EvalStack) (henough : ∀ outcome : EvalOutcome,
      Returns (fun fuel => evaluate fuel context pc expr stack) outcome → ¬outcome.LacksEntry)
    (outcome' : EvalOutcome) :
    Returns (fun fuel => evaluate fuel context pc expr (stack ++ low)) outcome' ↔
      ∃ outcome, Returns (fun fuel => evaluate fuel context pc expr stack) outcome ∧
        outcome' = outcome.above low := by
  have hsame (fuel : ℕ) : evaluate fuel context pc expr (stack ++ low) =
      (evaluate fuel context pc expr stack).map (EvalOutcome.above low) := by
    rcases evaluate_above fuel context pc expr stack low with ⟨outcome, hrun, hlacks⟩ | hsame
    · exact absurd hlacks (henough outcome ⟨fuel, hrun⟩)
    · exact hsame
  constructor
  · rintro ⟨fuel, hrun⟩
    have hmap := (hsame fuel).symm.trans hrun
    obtain ⟨outcome, hsmall, rfl⟩ := Option.map_eq_some_iff.mp hmap
    exact ⟨outcome, ⟨fuel, hsmall⟩, rfl⟩
  · rintro ⟨outcome, ⟨fuel, hrun⟩, rfl⟩
    have hrun' : evaluate fuel context pc expr stack = some outcome := hrun
    exact ⟨fuel, (hsame fuel).trans (by rw [hrun', Option.map_some])⟩

/-- The expression `DW_OP_plus_uconst 8`. -/
def plusEight : DwarfExpression := ⟨[{ opcode := .unary .plusUconst, op1 := 8, off := 0 }]⟩

theorem evaluate_framed_iff_plusEight :
    Returns (fun fuel => evaluate fuel emptyContext 0 plusEight ([16] ++ [7]))
      (.ok (.address 24, [24, 7])) := by
  have hrun : Returns (fun fuel => evaluate fuel emptyContext 0 plusEight [16])
      (.ok (.address 24, [24])) := ⟨3, by decide⟩
  refine (evaluate_framed_iff emptyContext 0 plusEight [7] ?_ _).mpr ⟨_, hrun, rfl⟩
  intro outcome houtcome
  have hsame := (evaluate_settles emptyContext 0 plusEight [16]).unique houtcome hrun
  rw [hsame]
  exact id

end DwarfExpr
