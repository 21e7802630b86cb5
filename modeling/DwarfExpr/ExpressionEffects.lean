import DwarfExpr.EvaluateRuns

/-!
# What an operation can do

The `switch` of `evaluate` read backwards: which operations end the evaluation and with
what, which jump, and which wait for a nested evaluation. The facts about whole runs
are derived from these without unfolding the operations again.
-/

namespace DwarfExpr

open StepMachine (Step Reaches)

variable {context : Context} {pc : DwarfAddr} {expr : DwarfExpression}
  {frameBase : Bounded EvalResult} {a : DwarfOp} {stack stack' : EvalStack} {result : EvalResult}

/-- The register number that `DW_OP_regx` asks for: the operand of the first operation. -/
def regxNumber (expr : DwarfExpression) (a : DwarfOp) : ℕ :=
  ((expr.ops.head?.getD a).op1.setWidth 16).toNat

/-- The register number that an operation asks the register provider for. -/
def DwarfOp.registerNumber (expr : DwarfExpression) (a : DwarfOp) : Option ℕ :=
  match a.opcode with
  | .reg n => some n
  | .regx => some (regxNumber expr a)
  | .breg n => some n
  | .bregx => some (a.op1.setWidth 16).toNat
  | _ => none

/-- An operation that ends the evaluation with the value `v`: a register operation or
`DW_OP_stack_value`. -/
inductive Delivers (context : Context) (expr : DwarfExpression) (a : DwarfOp) :
    EvalStack → DwarfAddr → EvalStack → Prop
  | reg {n : Fin 32} {stack : EvalStack} {v : DwarfAddr} (hop : a.opcode = .reg n)
      (hvalue : context.register n = some v) : Delivers context expr a stack v (v :: stack)
  | regx {stack : EvalStack} {v : DwarfAddr} (hop : a.opcode = .regx)
      (hvalue : context.register (regxNumber expr a) = some v) :
      Delivers context expr a stack v (v :: stack)
  | stackValue {rest : EvalStack} {v : DwarfAddr} (hop : a.opcode = .stackValue) :
      Delivers context expr a (v :: rest) v (v :: rest)

/-- An operation that ends the evaluation delivers a value or reports an error at its
own offset. The code is never that of an address outside all ranges. -/
theorem execOp_finish_cases (h : execOp context pc expr frameBase a stack = .finish result stack') :
    (∃ v, result = .value v ∧ Delivers context expr a stack v stack') ∨
      ∃ code, code ≠ .addressInvalid ∧ result = .error code a.off := by
  have herror {code : ErrorCode} {left : EvalStack} (hcode : code ≠ .addressInvalid)
      (hfinish : OpEffect.finish (.error code a.off) left = .finish result stack') :
      ∃ code, code ≠ .addressInvalid ∧ result = .error code a.off := by
    cases hfinish
    exact ⟨code, hcode, rfl⟩
  cases hop : a.opcode with
  | reg n =>
    simp only [execOp, hop] at h
    cases hvalue : context.register n with
    | none =>
      simp only [hvalue] at h
      exact Or.inr (herror (by decide) h)
    | some v =>
      simp only [hvalue] at h
      cases h
      exact Or.inl ⟨v, rfl, .reg hop hvalue⟩
  | regx =>
    simp only [execOp, hop] at h
    cases hvalue : context.register (regxNumber expr a) with
    | none =>
      simp only [regxNumber] at hvalue
      simp only [hvalue] at h
      exact Or.inr (herror (by decide) h)
    | some v =>
      have hgiven := hvalue
      simp only [regxNumber] at hgiven
      simp only [hgiven] at h
      cases h
      exact Or.inl ⟨v, rfl, .regx hop hvalue⟩
  | stackValue =>
    rcases stack with _ | ⟨v, rest⟩
    · simp only [execOp, hop] at h
      exact Or.inr (herror (by decide) h)
    · simp only [execOp, hop] at h
      cases h
      exact Or.inl ⟨v, rfl, .stackValue hop⟩
  | _ =>
    right
    simp only [execOp, hop, pushOrFail, pushArith] at h
    repeat' split at h
    all_goals first | cases h; done | exact herror (by decide) h

/-- Only `DW_OP_skip` and `DW_OP_bra` jump. -/
theorem execOp_jump_iff :
    execOp context pc expr frameBase a stack = .jump stack' ↔
      (a.opcode = .skip ∧ stack' = stack) ∨ (a.opcode = .bra ∧ ∃ x, stack = x :: stack') := by
  constructor
  · intro h
    cases hop : a.opcode with
    | skip =>
      simp only [execOp, hop] at h
      cases h
      exact Or.inl ⟨rfl, rfl⟩
    | bra =>
      rcases stack with _ | ⟨x, rest⟩
      · simp only [execOp, hop] at h
        cases h
      · simp only [execOp, hop] at h
        cases h
        exact Or.inr ⟨rfl, x, rfl⟩
    | _ =>
      exfalso
      simp only [execOp, hop, pushOrFail, pushArith] at h
      repeat' split at h
      all_goals cases h
  · rintro (⟨hop, rfl⟩ | ⟨hop, x, rfl⟩) <;> simp only [execOp, hop]

/-- Only the frame base and the CFA are waited for. -/
theorem execOp_waiting_iff :
    execOp context pc expr frameBase a stack = .waiting ↔
      (a.opcode = .fbreg ∧ context.frameBaseLoc ≠ none ∧ frameBase = none) ∨
        (a.opcode = .callFrameCfa ∧ ∃ cfa, context.cfa = some cfa ∧ cfa pc = none) := by
  constructor
  · intro h
    cases hop : a.opcode with
    | fbreg =>
      simp only [execOp, hop] at h
      cases hloc : context.frameBaseLoc with
      | none =>
        rw [hloc] at h
        cases h
      | some location =>
        rw [hloc] at h
        rcases frameBase with _ | _ | base
        · exact Or.inl ⟨rfl, by simp, rfl⟩
        · cases h
        · cases base <;> cases h
    | callFrameCfa =>
      simp only [execOp, hop] at h
      cases hcfa : context.cfa with
      | none =>
        rw [hcfa] at h
        cases h
      | some cfa =>
        simp only [hcfa] at h
        refine Or.inr ⟨rfl, cfa, rfl, ?_⟩
        rcases hanswer : cfa pc with _ | _ | addr
        · rfl
        · rw [hanswer] at h
          cases h
        · rw [hanswer] at h
          cases h
    | _ =>
      exfalso
      simp only [execOp, hop, pushOrFail, pushArith] at h
      repeat' split at h
      all_goals cases h
  · rintro (⟨hop, hloc, rfl⟩ | ⟨hop, cfa, hcfa, hanswer⟩)
    · obtain ⟨location, hlocation⟩ := Option.ne_none_iff_exists'.mp hloc
      simp only [execOp, hop, hlocation]
    · simp only [execOp, hop, hcfa, hanswer]

/-- An operation whose register has no value ends the evaluation. -/
theorem execOp_of_register_none {n : ℕ} (hasks : a.registerNumber expr = some n)
    (hfails : context.register n = none) :
    execOp context pc expr frameBase a stack = .finish (.error .registerInvalid a.off) stack := by
  unfold DwarfOp.registerNumber at hasks
  cases hop : a.opcode with
  | reg m =>
    simp only [hop, Option.some.injEq] at hasks
    simp only [execOp, hop, hasks, hfails]
  | regx =>
    simp only [hop, Option.some.injEq, regxNumber] at hasks
    simp only [execOp, hop, hasks, hfails]
  | breg m =>
    simp only [hop, Option.some.injEq] at hasks
    simp only [execOp, hop, hasks, hfails, Option.map_none, pushOrFail]
  | bregx =>
    simp only [hop, Option.some.injEq] at hasks
    simp only [execOp, hop, hasks, hfails, Option.map_none, pushOrFail]
  | _ => simp only [hop, reduceCtorEq] at hasks

/-- The loop is behind the last operation, or it takes over the effect of one. -/
theorem evalStep_cases (context : Context) (pc : DwarfAddr) (expr : DwarfExpression)
    (frameBase : Bounded EvalResult) (s : EvalState) :
    (expr.ops[s.i]? = none ∧
        evalStep context pc expr frameBase s = .halt (.ok (endOfLoop s, s.stack))) ∨
      ∃ a, expr.ops[s.i]? = some a ∧ evalStep context pc expr frameBase s =
        (execOp context pc expr frameBase a s.stack).advance expr s.i a := by
  cases ha : expr.ops[s.i]? with
  | none => exact Or.inl ⟨rfl, by simp only [evalStep, ha]⟩
  | some a => exact Or.inr ⟨a, rfl, evalStep_of_getElem ha⟩

/-- An effect halts the loop with an outcome only as its end or as undefined behaviour. -/
theorem OpEffect.advance_eq_halt_iff {effect : OpEffect} {i : ℕ} {outcome : EvalOutcome} :
    effect.advance expr i a = .halt outcome ↔
      (∃ result stack, effect = .finish result stack ∧ outcome = .ok (result, stack)) ∨
        ∃ cause, effect = .undefined cause ∧ outcome = .error cause := by
  cases effect <;> simp [advance, eq_comm]

/-- The loop returns from behind the last operation or from an operation that ends it. -/
theorem evalStep_halt_cases {s : EvalState}
    (h : evalStep context pc expr frameBase s = .halt (.ok (result, stack'))) :
    (expr.ops[s.i]? = none ∧ result = endOfLoop s ∧ stack' = s.stack) ∨
      ∃ a, expr.ops[s.i]? = some a ∧
        execOp context pc expr frameBase a s.stack = .finish result stack' := by
  rcases evalStep_cases context pc expr frameBase s with ⟨hnone, hstep⟩ | ⟨a, ha, hstep⟩
  · rw [hstep] at h
    cases h
    exact Or.inl ⟨hnone, rfl, rfl⟩
  · rw [hstep] at h
    rcases OpEffect.advance_eq_halt_iff.mp h with ⟨_, _, hfinish, heq⟩ | ⟨_, _, heq⟩
    · cases heq
      exact Or.inr ⟨a, ha, hfinish⟩
    · cases heq

/-- The loop runs into undefined behaviour only at an operation that does. -/
theorem evalStep_undefined_cases {s : EvalState} {cause : Undefined}
    (h : evalStep context pc expr frameBase s = .halt (.error cause)) :
    ∃ a, expr.ops[s.i]? = some a ∧
      execOp context pc expr frameBase a s.stack = .undefined cause := by
  rcases evalStep_cases context pc expr frameBase s with ⟨_, hstep⟩ | ⟨a, ha, hstep⟩
  · rw [hstep] at h
    cases h
  · rw [hstep] at h
    rcases OpEffect.advance_eq_halt_iff.mp h with ⟨_, _, _, heq⟩ | ⟨_, hundefined, heq⟩
    · cases heq
    · cases heq
      exact ⟨a, ha, hundefined⟩

/-- An operation that ends the evaluation in a visited state gives its result. -/
theorem Visits.returns_of_finish {s : EvalState} {fuel : ℕ}
    (hvisits : Visits context pc expr stack s)
    (ha : expr.ops[s.i]? = some a)
    (hfinish : execOp context pc expr (frameBaseAt fuel context pc) a s.stack =
      .finish result stack') :
    Fuel.Returns (fun fuel => evaluate fuel context pc expr stack) (.ok (result, stack')) := by
  have hhalt : evalStepAt fuel context pc expr s = .halt (.ok (result, stack')) := by
    rw [evalStepAt, evalStep_of_getElem ha, hfinish]
    rfl
  exact hvisits.returns hhalt

/-- An operation that delivers a value ends the evaluation with it. -/
theorem Delivers.execOp_eq {v : DwarfAddr} (h : Delivers context expr a stack v stack') :
    execOp context pc expr frameBase a stack = .finish (.value v) stack' := by
  cases h with
  | reg hop hvalue => simp only [execOp, hop, hvalue]
  | regx hop hvalue =>
    simp only [regxNumber] at hvalue
    simp only [execOp, hop, hvalue]
  | stackValue hop => simp only [execOp, hop]

/-- The loop goes on with the next operation or, after a jump, behind its target. -/
theorem evalStep_next_cases {s t : EvalState}
    (h : evalStep context pc expr frameBase s = .next t) :
    ∃ a, expr.ops[s.i]? = some a ∧ t.curOff = a.off ∧
      ((t.i = s.i + 1 ∧ execOp context pc expr frameBase a s.stack = .goOn t.stack) ∨
        (t.i = expr.jumpIndex a s.i + 1 ∧
          execOp context pc expr frameBase a s.stack = .jump t.stack)) := by
  rcases evalStep_cases context pc expr frameBase s with ⟨_, hstep⟩ | ⟨a, ha, hstep⟩
  · rw [hstep] at h
    cases h
  · rw [hstep] at h
    refine ⟨a, ha, ?_⟩
    generalize execOp context pc expr frameBase a s.stack = effect at h ⊢
    cases effect with
    | goOn stack =>
      cases h
      exact ⟨rfl, Or.inl ⟨rfl, rfl⟩⟩
    | jump stack =>
      cases h
      exact ⟨rfl, Or.inr ⟨rfl, rfl⟩⟩
    | finish | undefined | waiting => cases h

/-- The loop waits only at an operation that does. -/
theorem evalStep_stall_cases {s : EvalState}
    (h : evalStep context pc expr frameBase s = .stall) :
    ∃ a, expr.ops[s.i]? = some a ∧ execOp context pc expr frameBase a s.stack = .waiting := by
  rcases evalStep_cases context pc expr frameBase s with ⟨_, hstep⟩ | ⟨a, ha, hstep⟩
  · rw [hstep] at h
    cases h
  · rw [hstep] at h
    refine ⟨a, ha, ?_⟩
    generalize execOp context pc expr frameBase a s.stack = effect at h ⊢
    cases effect with
    | waiting => rfl
    | _ => cases h

/-- A jump found by the offset lookup leads to an operation of the list. -/
theorem DwarfExpression.jumpIndex_lt (expr : DwarfExpression) (a : DwarfOp) {i : ℕ}
    (hi : i < expr.ops.length) : expr.jumpIndex a i < expr.ops.length := by
  unfold jumpIndex findOpIndexByOffset
  cases hfound : expr.ops.findIdx? fun b => decide (b.off = a.jumpOffset) with
  | none => exact hi
  | some j => exact (List.findIdx?_eq_some_iff_getElem.mp hfound).1

/-- A step leaves from an operation and leads to one or behind the last. -/
theorem evalStep_next_bound {s t : EvalState}
    (h : evalStep context pc expr frameBase s = .next t) :
    s.i < expr.ops.length ∧ t.i ≤ expr.ops.length := by
  obtain ⟨a, ha, -, hnext⟩ := evalStep_next_cases h
  have hi : s.i < expr.ops.length := (List.getElem?_eq_some_iff.mp ha).1
  have hjump := expr.jumpIndex_lt a hi
  refine ⟨hi, ?_⟩
  rcases hnext with ⟨hindex, -⟩ | ⟨hindex, -⟩ <;> omega

/-- No expression evaluates to the error of an address outside all ranges. -/
theorem evaluate_ne_addressInvalid {code : ErrorCode} {addr : BitVec 64}
    (h : Fuel.Returns (fun fuel => evaluate fuel context pc expr stack)
      (.ok (.error code addr, stack'))) : code ≠ .addressInvalid := by
  by_cases hops : expr.ops = []
  · cases eq_of_evaluate_of_nil hops h
    decide
  · obtain ⟨fuel, s, _, hhalt⟩ := (evaluate_returns_iff hops).mp h
    rcases evalStep_halt_cases hhalt with ⟨_, hend, _⟩ | ⟨a, _, hfinish⟩
    · unfold endOfLoop at hend
      split at hend <;> cases hend
      decide
    · rcases execOp_finish_cases hfinish with ⟨v, hvalue, _⟩ | ⟨code', hcode, herror⟩
      · cases hvalue
      · cases herror
        exact hcode

end DwarfExpr
