import DwarfExpr.LocationLists

/-!
# Evaluations within an evaluation

`DW_OP_fbreg` evaluates the frame base, whose expression may have a `DW_OP_fbreg` of its own.
What goes wrong in there goes wrong in the evaluation outside as well, and an evaluation only
runs into undefined behaviour at an operation of one of these evaluations or in the CFA
provider.
-/

namespace DwarfExpr

open StepMachine (Reaches)
open Fuel (Returns)

/-- The outer evaluation makes the inner one: they are the same, or it executes a `DW_OP_fbreg`
whose evaluation of the frame base makes the inner one. -/
inductive MadeBy (context : Context) (pc : DwarfAddr) (inner : DwarfExpression)
    (innerStack : EvalStack) : DwarfExpression → EvalStack → Prop
  | same : MadeBy context pc inner innerStack inner innerStack
  | inFrameBase {expr : DwarfExpression} {stack : EvalStack} {s : EvalState} {a : DwarfOp}
      {e : LocationExpression} (hvisits : Visits context pc expr stack s)
      (ha : expr.ops[s.i]? = some a) (hop : a.opcode = .fbreg)
      (hentry : context.frameBaseEntry pc = some e)
      (hmade : MadeBy context pc inner innerStack e.expr []) :
      MadeBy context pc inner innerStack expr stack

/-- An evaluation executes an operation with the property `P`, either itself or while it
evaluates the frame base for a `DW_OP_fbreg`, at any depth. -/
inductive Meets (context : Context) (pc : DwarfAddr)
    (P : DwarfExpression → DwarfOp → EvalStack → Prop) : DwarfExpression → EvalStack → Prop
  | here {expr : DwarfExpression} {stack : EvalStack} {s : EvalState} {a : DwarfOp}
      (hvisits : Visits context pc expr stack s) (ha : expr.ops[s.i]? = some a)
      (hholds : P expr a s.stack) : Meets context pc P expr stack
  | inFrameBase {expr : DwarfExpression} {stack : EvalStack} {s : EvalState} {a : DwarfOp}
      {e : LocationExpression} (hvisits : Visits context pc expr stack s)
      (ha : expr.ops[s.i]? = some a) (hop : a.opcode = .fbreg)
      (hentry : context.frameBaseEntry pc = some e) (hmeets : Meets context pc P e.expr []) :
      Meets context pc P expr stack

/-- The CFA provider of the context runs into undefined behaviour of this kind at the pc. -/
def CfaRunsInto (context : Context) (pc : DwarfAddr) (root : Undefined) : Prop :=
  ∃ cfa cause, context.cfa = some cfa ∧ cfa pc = some (.error cause) ∧ cause.root = root

section

variable {context : Context} {pc : DwarfAddr} {expr inner : DwarfExpression}
  {stack innerStack : EvalStack} {a : DwarfOp} {cause : Undefined}
  {P : DwarfExpression → DwarfOp → EvalStack → Prop}

/-- What is met has every property that follows from the one it is met with. -/
theorem Meets.mono {Q : DwarfExpression → DwarfOp → EvalStack → Prop}
    (hmeets : Meets context pc P expr stack)
    (himp : ∀ expr a stack, P expr a stack → Q expr a stack) : Meets context pc Q expr stack := by
  induction hmeets with
  | here hvisits ha hholds => exact .here hvisits ha (himp _ _ _ hholds)
  | inFrameBase hvisits ha hop hentry _ ih => exact .inFrameBase hvisits ha hop hentry ih

/-- An operation is met if one of the evaluations that are made executes it. -/
theorem MadeBy.meets (hmade : MadeBy context pc inner innerStack expr stack) {s : EvalState}
    (hvisits : Visits context pc inner innerStack s) (ha : inner.ops[s.i]? = some a)
    (hholds : P inner a s.stack) : Meets context pc P expr stack := by
  induction hmade with
  | same => exact .here hvisits ha hholds
  | inFrameBase hvisits' ha' hop hentry _ ih => exact .inFrameBase hvisits' ha' hop hentry ih

/-- What is met is executed by one of the evaluations that are made. -/
theorem Meets.exists_madeBy (hmeets : Meets context pc P expr stack) :
    ∃ inner innerStack s a, MadeBy context pc inner innerStack expr stack ∧
      Visits context pc inner innerStack s ∧ inner.ops[s.i]? = some a ∧ P inner a s.stack := by
  induction hmeets with
  | here hvisits ha hholds => exact ⟨_, _, _, _, .same, hvisits, ha, hholds⟩
  | inFrameBase hvisits ha hop hentry _ ih =>
    obtain ⟨inner, innerStack, s, a', hmade, hrest⟩ := ih
    exact ⟨inner, innerStack, s, a', .inFrameBase hvisits ha hop hentry hmade, hrest⟩

/-- An operation is undefined because the evaluation of the frame base is, because the CFA provider
is, or by itself. -/
theorem execOp_undefined_cases {frameBase : Bounded EvalResult}
    (h : execOp context pc expr frameBase a stack = .undefined cause) :
    (a.opcode = .fbreg ∧ ∃ nested, frameBase = some (.error nested) ∧
        cause = .inFrameBase nested) ∨
      (a.opcode = .callFrameCfa ∧ ∃ cfa nested, context.cfa = some cfa ∧
        cfa pc = some (.error nested) ∧ cause = .inCfa nested) ∨ cause.root = cause := by
  cases hop : a.opcode with
  | fbreg =>
    simp only [execOp, hop] at h
    cases hloc : context.frameBaseLoc with
    | none =>
      rw [hloc] at h
      cases h
    | some location =>
      rw [hloc] at h
      rcases frameBase with _ | nested | base
      · cases h
      · cases h
        exact Or.inl ⟨rfl, nested, rfl, rfl⟩
      · cases hvalue : base.validValue <;> simp [pushOrFail, hvalue] at h
  | callFrameCfa =>
    simp only [execOp, hop] at h
    cases hcfa : context.cfa with
    | none =>
      rw [hcfa] at h
      cases h
    | some cfa =>
      simp only [hcfa] at h
      rcases hanswer : cfa pc with _ | nested | addr
      · rw [hanswer] at h
        cases h
      · rw [hanswer] at h
        cases h
        exact Or.inr (Or.inl ⟨rfl, cfa, nested, rfl, hanswer, rfl⟩)
      · rw [hanswer] at h
        cases h
  | unary kind =>
    refine Or.inr (Or.inr ?_)
    rcases stack with _ | ⟨top, rest⟩
    · simp [execOp, hop] at h
    · cases kind <;> simp only [execOp, hop, unaryOp, Arith.signed] at h <;> (try split at h) <;>
        cases h
  | binary kind =>
    refine Or.inr (Or.inr ?_)
    rcases stack with _ | ⟨e1, _ | ⟨e2, rest⟩⟩
    · simp [execOp, hop] at h
    · simp [execOp, hop] at h
    · cases kind <;> simp only [execOp, hop, binaryOp, Arith.signed] at h <;>
        (repeat' split at h) <;> first | (cases h; done) | (cases h; rfl)
  | _ =>
    refine Or.inr (Or.inr ?_)
    simp only [execOp, hop, pushOrFail] at h
    repeat' split at h
    all_goals first | (cases h; done) | (cases h; rfl)

/-- An evaluation runs into undefined behaviour at an operation that it executes. -/
theorem exists_visits_of_returns_error
    (hreturns : Returns (fun fuel => evaluate fuel context pc expr stack) (.error cause)) :
    ∃ s a fuel, Visits context pc expr stack s ∧ expr.ops[s.i]? = some a ∧
      execOp context pc expr (frameBaseAt fuel context pc) a s.stack = .undefined cause := by
  by_cases hops : expr.ops = []
  · cases eq_of_evaluate_of_nil hops hreturns
  · obtain ⟨fuel, s, hreach, hhalt⟩ := (evaluate_returns_iff hops).mp hreturns
    obtain ⟨a, ha, hundefined⟩ := evalStep_undefined_cases hhalt
    exact ⟨s, a, fuel, ⟨hops, fuel, hreach⟩, ha, hundefined⟩

/-- An operation that is undefined in a visited state ends the evaluation. -/
theorem Visits.returns_error {s : EvalState} {fuel : ℕ} (hvisits : Visits context pc expr stack s)
    (ha : expr.ops[s.i]? = some a)
    (hundefined : execOp context pc expr (frameBaseAt fuel context pc) a s.stack =
      .undefined cause) :
    Returns (fun fuel => evaluate fuel context pc expr stack) (.error cause) := by
  have hhalt : evalStepAt fuel context pc expr s = .halt (.error cause) := by
    rw [evalStepAt, evalStep_of_getElem ha, hundefined]
    rfl
  exact hvisits.returns hhalt

/-- The frame base is undefined exactly if the evaluation of its entry is. -/
theorem frameBaseAt_error_iff :
    Returns (fun fuel => frameBaseAt fuel context pc) (.error cause) ↔
      ∃ e, context.frameBaseEntry pc = some e ∧
        Returns (fun fuel => evaluate fuel context pc e.expr []) (.error cause) := by
  simp only [Returns, frameBaseAt_eq]
  cases context.frameBaseEntry pc with
  | none => simp
  | some e =>
    constructor
    · rintro ⟨fuel, hfuel⟩
      obtain ⟨outcome, houtcome, hmap⟩ := Option.map_eq_some_iff.mp hfuel
      cases outcome with
      | error nested =>
        cases hmap
        exact ⟨e, rfl, fuel, houtcome⟩
      | ok result => cases hmap
    · rintro ⟨_, ⟨⟩, fuel, hfuel⟩
      refine ⟨fuel, Option.map_eq_some_iff.mpr ⟨.error cause, hfuel, rfl⟩⟩

/-- What is undefined in an evaluation is undefined in those that make it. -/
theorem MadeBy.returns_error (hmade : MadeBy context pc inner innerStack expr stack)
    (hreturns : Returns (fun fuel => evaluate fuel context pc inner innerStack) (.error cause)) :
    ∃ outer, outer.root = cause.root ∧
      Returns (fun fuel => evaluate fuel context pc expr stack) (.error outer) := by
  induction hmade with
  | same => exact ⟨cause, rfl, hreturns⟩
  | @inFrameBase expr stack s a e hvisits ha hop hentry _ ih =>
    obtain ⟨nested, hroot, hnested⟩ := ih
    obtain ⟨fuel, hbase⟩ := frameBaseAt_error_iff.mpr ⟨_, hentry, hnested⟩
    obtain ⟨location, hlocation⟩ := Option.ne_none_iff_exists'.mp (frameBaseLoc_ne_none hentry)
    have hundefined : execOp context pc expr (frameBaseAt fuel context pc) a s.stack =
        .undefined (.inFrameBase nested) := by
      simp only [execOp, hop, hlocation, hbase]
    exact ⟨.inFrameBase nested, hroot, hvisits.returns_error ha hundefined⟩

/-- An operation of an evaluation is undefined for a reason of its own, or it asks the CFA provider
and that is. -/
def RunsInto (context : Context) (pc : DwarfAddr) (root : Undefined) (expr : DwarfExpression)
    (a : DwarfOp) (stack : EvalStack) : Prop :=
  (∃ fuel, execOp context pc expr (frameBaseAt fuel context pc) a stack = .undefined root) ∨
    (a.opcode = .callFrameCfa ∧ CfaRunsInto context pc root)

/-- An evaluation that runs into undefined behaviour meets an operation that does. Induction on the
cause. -/
theorem meets_runsInto_of_returns_error
    (hreturns : Returns (fun fuel => evaluate fuel context pc expr stack) (.error cause)) :
    Meets context pc (RunsInto context pc cause.root) expr stack := by
  have hstep {cause : Undefined} {expr : DwarfExpression} {stack : EvalStack}
      (hreturns : Returns (fun fuel => evaluate fuel context pc expr stack) (.error cause))
      (hnested : ∀ nested, cause = .inFrameBase nested → ∀ e : LocationExpression,
        Returns (fun fuel => evaluate fuel context pc e.expr []) (.error nested) →
          Meets context pc (RunsInto context pc nested.root) e.expr []) :
      Meets context pc (RunsInto context pc cause.root) expr stack := by
    obtain ⟨s, a, fuel, hvisits, ha, hundefined⟩ := exists_visits_of_returns_error hreturns
    rcases execOp_undefined_cases hundefined with ⟨hop, nested, hbase, rfl⟩ |
      ⟨hop, cfa, nested, hcfa, hanswer, rfl⟩ | hroot
    · obtain ⟨e, hentry, hfails⟩ := frameBaseAt_error_iff.mp ⟨fuel, hbase⟩
      exact .inFrameBase hvisits ha hop hentry (hnested nested rfl e hfails)
    · exact .here hvisits ha (Or.inr ⟨hop, cfa, nested, hcfa, hanswer, rfl⟩)
    · exact .here hvisits ha (Or.inl ⟨fuel, by rw [hroot, hundefined]⟩)
  induction cause generalizing expr stack with
  | inFrameBase nested ih =>
    apply hstep hreturns
    rintro _ ⟨⟩ e hfails
    exact ih hfails
  | inCfa | emptyStack | division | shiftCount | nullProvider =>
    apply hstep hreturns
    rintro _ ⟨⟩

/-- A CFA provider that runs into undefined behaviour takes the evaluation with it. -/
theorem Visits.exists_returns_error_of_cfa {s : EvalState} {root : Undefined}
    (hvisits : Visits context pc expr stack s) (ha : expr.ops[s.i]? = some a)
    (hop : a.opcode = .callFrameCfa) (hcfa : CfaRunsInto context pc root) :
    ∃ cause, cause.root = root ∧
      Returns (fun fuel => evaluate fuel context pc expr stack) (.error cause) := by
  obtain ⟨cfa, nested, hprovider, hanswer, hroot⟩ := hcfa
  have hundefined : execOp context pc expr (frameBaseAt 0 context pc) a s.stack =
      .undefined (.inCfa nested) := by
    simp only [execOp, hop, hprovider, hanswer]
  exact ⟨.inCfa nested, hroot, hvisits.returns_error ha hundefined⟩

/-- The root of a cause is its own root. -/
theorem Undefined.root_root (cause : Undefined) : cause.root.root = cause.root := by
  induction cause with
  | inFrameBase nested ih | inCfa nested ih => exact ih
  | emptyStack | division | shiftCount | nullProvider => rfl

/-- An evaluation runs into undefined behaviour of a kind exactly if it meets an operation that
does. -/
theorem exists_returns_error_iff {root : Undefined} :
    (∃ cause, cause.root = root.root ∧
        Returns (fun fuel => evaluate fuel context pc expr stack) (.error cause)) ↔
      Meets context pc (RunsInto context pc root.root) expr stack := by
  constructor
  · rintro ⟨cause, hroot, hreturns⟩
    rw [← hroot]
    exact meets_runsInto_of_returns_error hreturns
  · intro hmeets
    obtain ⟨inner, innerStack, s, a, hmade, hvisits, ha, hruns⟩ := hmeets.exists_madeBy
    have hinner : ∃ cause, cause.root = root.root ∧
        Returns (fun fuel => evaluate fuel context pc inner innerStack) (.error cause) := by
      rcases hruns with ⟨fuel, hundefined⟩ | ⟨hop, hcfa⟩
      · exact ⟨root.root, root.root_root, hvisits.returns_error ha hundefined⟩
      · exact hvisits.exists_returns_error_of_cfa ha hop hcfa
    obtain ⟨cause, hroot, hreturns⟩ := hinner
    obtain ⟨outer, houter, hfails⟩ := hmade.returns_error hreturns
    exact ⟨outer, houter.trans hroot, hfails⟩

end

end DwarfExpr
