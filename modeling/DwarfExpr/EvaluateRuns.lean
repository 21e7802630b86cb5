import DwarfExpr.Evaluate

/-!
# Runs of the expression machine

More fuel never changes an answer: a nested evaluation that has returned returns
the same with more fuel, and the step function differs only where it was waiting.
So the fuel of `evaluate` can be hidden: an evaluation returns an outcome exactly
when the run of its loop reaches a state that halts with it.
-/

namespace DwarfExpr

open StepMachine (Step Reaches Refines)

/-- The frame base of the context at a pc, evaluated with the given fuel. -/
def frameBaseAt (fuel : ℕ) (context : Context) (pc : DwarfAddr) : Bounded EvalResult :=
  DwarfLocation.select context pc
    (fun e => (evaluate fuel context pc e []).map (·.map Prod.fst))
    ((context.frameBaseLoc.map DwarfLocation.exprs).getD [])

/-- The step function of an evaluation whose nested evaluations get the given fuel. -/
def evalStepAt (fuel : ℕ) (context : Context) (pc : DwarfAddr) (expr : DwarfExpression) :
    EvalState → Step EvalState EvalOutcome :=
  evalStep context pc expr (frameBaseAt fuel context pc)

/-- The empty expression is refused. -/
theorem evaluate_of_nil {expr : DwarfExpression} (hops : expr.ops = []) (fuel : ℕ)
    (context : Context) (pc : DwarfAddr) (stack : EvalStack) :
    evaluate (fuel + 1) context pc expr stack = some (.ok (.error .illegalState 0, stack)) := by
  unfold evaluate
  rw [hops, List.length_nil, if_pos Nat.zero_lt_one]

/-- The empty expression returns nothing but the refusal. -/
theorem eq_of_evaluate_of_nil {expr : DwarfExpression} (hops : expr.ops = [])
    {context : Context} {pc : DwarfAddr} {stack : EvalStack} {outcome : EvalOutcome}
    (hreturns : Fuel.Returns (fun fuel => evaluate fuel context pc expr stack) outcome) :
    outcome = .ok (.error .illegalState 0, stack) := by
  obtain ⟨fuel, hfuel⟩ := hreturns
  cases fuel with
  | zero => cases hfuel
  | succ fuel =>
    simp only [evaluate_of_nil hops] at hfuel
    exact (Option.some.inj hfuel).symm

/-- A non-empty expression is evaluated by running its loop. -/
theorem evaluate_succ {fuel : ℕ} {context : Context} {pc : DwarfAddr} {expr : DwarfExpression}
    {stack : EvalStack} (hops : expr.ops ≠ []) :
    evaluate (fuel + 1) context pc expr stack =
      StepMachine.runFor (evalStepAt fuel context pc expr) fuel (.init stack) := by
  have hlength : ¬expr.ops.length < 1 := by
    have := List.length_pos_iff.mpr hops
    omega
  unfold evaluate
  rw [if_neg hlength]
  rfl

/-- Selecting from a location list answers the same once the expressions do. -/
theorem DwarfLocation.select_refines {context : Context} {pc : DwarfAddr}
    {eval eval' : DwarfExpression → Bounded EvalResult}
    (href : ∀ e, eval e = none ∨ eval e = eval' e) (exprs : List LocationExpression) :
    select context pc eval exprs = none ∨
      select context pc eval exprs = select context pc eval' exprs := by
  induction exprs with
  | nil => exact Or.inr rfl
  | cons e rest ih =>
    unfold select
    by_cases hall : (e.lowAddr = 0 && (e.highAddr = 0 || e.highAddr = maxDwarfUnsigned)) = true
    · simpa only [if_pos hall] using href e.expr
    · rw [if_neg hall, if_neg hall]
      by_cases hin : (e.lowAddr + context.cuLowAddr ≤ pc &&
          pc < e.highAddr + context.cuHighAddr) = true
      · simpa only [if_pos hin] using href e.expr
      · simpa only [if_neg hin] using ih

/-- An operation depends on the nested evaluation only by waiting for it. -/
theorem execOp_refines {context : Context} {pc : DwarfAddr} {expr : DwarfExpression}
    {frameBase frameBase' : Bounded EvalResult}
    (href : frameBase = none ∨ frameBase = frameBase') (a : DwarfOp) (stack : EvalStack) :
    execOp context pc expr frameBase a stack = .waiting ∨
      execOp context pc expr frameBase a stack = execOp context pc expr frameBase' a stack := by
  rcases href with rfl | rfl
  · by_cases hfbreg : a.opcode = .fbreg
    · cases hloc : context.frameBaseLoc with
      | none => exact Or.inr (by simp [execOp, hfbreg, hloc])
      | some location => exact Or.inl (by simp [execOp, hfbreg, hloc])
    · right
      unfold execOp
      cases hop : a.opcode with
      | fbreg => exact absurd hop hfbreg
      | _ => rfl
  · exact Or.inr rfl

/-- The loop depends on its surroundings as its operations do. -/
theorem evalStep_refines_of_execOp {context context' : Context} {pc : DwarfAddr}
    {expr : DwarfExpression} {frameBase frameBase' : Bounded EvalResult}
    (href : ∀ a stack, execOp context pc expr frameBase a stack = .waiting ∨
      execOp context pc expr frameBase a stack = execOp context' pc expr frameBase' a stack) :
    Refines (evalStep context pc expr frameBase) (evalStep context' pc expr frameBase') := by
  intro s
  cases ha : expr.ops[s.i]? with
  | none => exact Or.inr (by simp only [evalStep, ha])
  | some a =>
    rw [evalStep_of_getElem ha, evalStep_of_getElem ha]
    rcases href a s.stack with h | h
    · exact Or.inl (by rw [h]; rfl)
    · exact Or.inr (by rw [h])

/-- The step function with a nested answer agrees with the one without it wherever
the latter does not stall. -/
theorem evalStep_refines {context : Context} {pc : DwarfAddr} {expr : DwarfExpression}
    {frameBase frameBase' : Bounded EvalResult}
    (href : frameBase = none ∨ frameBase = frameBase') :
    Refines (evalStep context pc expr frameBase) (evalStep context pc expr frameBase') := by
  apply evalStep_refines_of_execOp
  intro a stack
  exact execOp_refines href a stack

/-- An evaluation that has returned returns the same with more fuel. -/
theorem evaluate_settles (context : Context) (pc : DwarfAddr) (expr : DwarfExpression)
    (stack : EvalStack) : Fuel.Settles fun fuel => evaluate fuel context pc expr stack := by
  intro m n hmn
  induction m generalizing n expr stack with
  | zero => exact Or.inl rfl
  | succ m ih =>
    obtain ⟨k, rfl⟩ : ∃ k, n = k + 1 := ⟨n - 1, by omega⟩
    have hmk : m ≤ k := by omega
    by_cases hops : expr.ops = []
    · right
      simp only [evaluate_of_nil hops]
    · simp only [evaluate_succ hops]
      have hsteps : Refines (evalStepAt m context pc expr) (evalStepAt k context pc expr) := by
        refine evalStep_refines (DwarfLocation.select_refines (fun e => ?_) _)
        rcases ih e [] hmk with h | h
        · exact Or.inl (by simp only [h]; rfl)
        · exact Or.inr (by simp only [h])
      cases hrun : StepMachine.runFor (evalStepAt m context pc expr) m (.init stack) with
      | none => exact Or.inl rfl
      | some outcome => exact Or.inr (StepMachine.runFor_mono_of_refines hsteps hmk hrun).symm

/-- The value of a location that has been computed is the same with more fuel. -/
theorem DwarfLocation.evalValue_settles (location : DwarfLocation) (context : Context)
    (pc : DwarfAddr) : Fuel.Settles fun fuel => location.evalValue fuel context pc := by
  intro m n hmn
  refine DwarfLocation.select_refines (fun e => ?_) _
  rcases evaluate_settles context pc e [] hmn with h | h
  · exact Or.inl (by simp only [h]; rfl)
  · exact Or.inr (by simp only [h])

/-- The frame base that has been computed is the same with more fuel. -/
theorem frameBaseAt_settles (context : Context) (pc : DwarfAddr) :
    Fuel.Settles fun fuel => frameBaseAt fuel context pc :=
  DwarfLocation.evalValue_settles ⟨(context.frameBaseLoc.map DwarfLocation.exprs).getD []⟩
    context pc

/-- The steps of an evaluation settle. -/
theorem evalStepAt_settlingSteps (context : Context) (pc : DwarfAddr) (expr : DwarfExpression) :
    Fuel.SettlingSteps fun fuel => evalStepAt fuel context pc expr :=
  fun _ _ hmn => evalStep_refines (frameBaseAt_settles context pc hmn)

/-- The loop of an evaluation comes to the state `s`. -/
def Visits (context : Context) (pc : DwarfAddr) (expr : DwarfExpression) (stack : EvalStack)
    (s : EvalState) : Prop :=
  expr.ops ≠ [] ∧ ∃ fuel, Reaches (evalStepAt fuel context pc expr) (.init stack) s

/-- An evaluation of a non-empty expression returns exactly the outcomes with which its
loop halts in a state that it visits. -/
theorem evaluate_returns_iff {context : Context} {pc : DwarfAddr} {expr : DwarfExpression}
    {stack : EvalStack} {outcome : EvalOutcome} (hops : expr.ops ≠ []) :
    Fuel.Returns (fun fuel => evaluate fuel context pc expr stack) outcome ↔
      ∃ fuel s, Reaches (evalStepAt fuel context pc expr) (.init stack) s ∧
        evalStepAt fuel context pc expr s = .halt outcome := by
  have hsettle := evalStepAt_settlingSteps context pc expr
  constructor
  · rintro ⟨fuel, hrun⟩
    cases fuel with
    | zero => simp [evaluate] at hrun
    | succ fuel =>
      simp only [evaluate_succ hops] at hrun
      exact ⟨fuel, StepMachine.exists_runFor_iff.mp ⟨fuel, hrun⟩⟩
  · rintro ⟨fuel, hhalts⟩
    obtain ⟨steps, hrun⟩ := StepMachine.exists_runFor_iff.mpr hhalts
    refine ⟨max fuel steps + 1, ?_⟩
    simp only [evaluate_succ hops]
    exact StepMachine.runFor_mono_of_refines (hsettle (Nat.le_max_left _ _))
      (Nat.le_max_right _ _) hrun

/-- An evaluation that halts in a visited state returns with that outcome. -/
theorem Visits.returns {context : Context} {pc : DwarfAddr} {expr : DwarfExpression}
    {stack : EvalStack} {s : EvalState} {fuel : ℕ} {outcome : EvalOutcome}
    (hvisits : Visits context pc expr stack s)
    (hhalt : evalStepAt fuel context pc expr s = .halt outcome) :
    Fuel.Returns (fun fuel => evaluate fuel context pc expr stack) outcome := by
  obtain ⟨hops, fuel', hreach⟩ := hvisits
  have hsettle := evalStepAt_settlingSteps context pc expr
  rw [evaluate_returns_iff hops]
  exact ⟨max fuel fuel', s, StepMachine.Reaches.mono_of_refines (hsettle (Nat.le_max_right _ _))
    hreach, Refines.halt (hsettle (Nat.le_max_left _ _)) hhalt⟩

/-- An evaluation visits the state in which its loop starts. -/
theorem Visits.init {context : Context} {pc : DwarfAddr} {expr : DwarfExpression}
    (hops : expr.ops ≠ []) (stack : EvalStack) : Visits context pc expr stack (.init stack) :=
  ⟨hops, 0, .refl⟩

end DwarfExpr
