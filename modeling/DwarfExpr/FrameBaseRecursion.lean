import DwarfExpr.ExpressionLoops
import DwarfExpr.FramesEnds
import DwarfExpr.Lib.NestedCalls
import DwarfExpr.LocationLists

/-!
# Evaluations that call evaluations

`dwarf2line` evaluates variables in a context whose CFA provider is `GetCfa`, bound to a
copy of the context that has no CFA provider itself. An evaluation then calls others in two
ways: `DW_OP_fbreg` evaluates the frame base in the same context at the same pc, and
`DW_OP_call_frame_cfa` evaluates the expressions of the unwind table in the copy. The copy
stops the second kind of recursion. Nothing stops the first: a frame base that comes to
execute `DW_OP_fbreg` evaluates itself again.
-/

namespace DwarfExpr

open StepMachine (Step Reaches Refines)
open Fuel (Returns)
open NestedCalls (Reached WellFoundedFrom)

/-- The copy of the context that is bound into the CFA provider. -/
def Context.bound (context : Context) : Context := { context with cfa := none }

/-- The context with a CFA provider. -/
def Context.withCfa (context : Context) (cfa : CfaProvider) : Context :=
  { context with cfa := some cfa }

/-- `expr_ctx` of `dwarf2line`, with fuel for the CFA provider. -/
def exprCtxAt (fuel : ℕ) (dbg : FrameSections) (context : Context) : Context :=
  context.withCfa fun pc => getCfa dbg context.bound pc fuel

/-- `expr_ctx` of `dwarf2line`: its CFA provider answers what `GetCfa` answers with enough
fuel. -/
noncomputable def exprCtx (dbg : FrameSections) (context : Context) : Context :=
  context.withCfa fun pc => Fuel.limit (getCfa dbg context.bound pc)

section Wiring

variable {context : Context} {pc : DwarfAddr} {cfa cfa' : CfaProvider}

/-- An operation depends on the CFA provider only by its answer at the pc. -/
theorem execOp_refines_cfa (href : cfa pc = none ∨ cfa pc = cfa' pc) (expr : DwarfExpression)
    (frameBase : Bounded EvalResult) (a : DwarfOp) (stack : EvalStack) :
    execOp (context.withCfa cfa) pc expr frameBase a stack = .waiting ∨
      execOp (context.withCfa cfa) pc expr frameBase a stack =
        execOp (context.withCfa cfa') pc expr frameBase a stack := by
  by_cases hcfa : a.opcode = .callFrameCfa
  · rcases href with hnone | hsame
    · exact Or.inl (by simp only [execOp, hcfa, Context.withCfa, hnone])
    · exact Or.inr (by simp only [execOp, hcfa, Context.withCfa, hsame])
  · right
    unfold execOp
    cases hop : a.opcode with
    | callFrameCfa => exact absurd hop hcfa
    | _ => rfl

/-- With the frame base given, the loop depends on the CFA provider in the same way. -/
theorem evalStep_refines_cfa (href : cfa pc = none ∨ cfa pc = cfa' pc) (expr : DwarfExpression)
    (frameBase : Bounded EvalResult) :
    Refines (evalStep (context.withCfa cfa) pc expr frameBase)
      (evalStep (context.withCfa cfa') pc expr frameBase) := by
  apply evalStep_refines_of_execOp
  intro a stack
  exact execOp_refines_cfa href expr frameBase a stack

/-- A CFA provider that answers more often makes an evaluation return more often, and
nothing else. Induction on the fuel. -/
theorem evaluate_refines_cfa (href : cfa pc = none ∨ cfa pc = cfa' pc) (fuel : ℕ)
    (expr : DwarfExpression) (stack : EvalStack) :
    evaluate fuel (context.withCfa cfa) pc expr stack = none ∨
      evaluate fuel (context.withCfa cfa) pc expr stack =
        evaluate fuel (context.withCfa cfa') pc expr stack := by
  induction fuel generalizing expr stack with
  | zero => exact Or.inl rfl
  | succ fuel ih =>
    by_cases hops : expr.ops = []
    · right
      rw [evaluate_of_nil hops, evaluate_of_nil hops]
    · simp only [evaluate_succ hops]
      have hbase : frameBaseAt fuel (context.withCfa cfa) pc = none ∨
          frameBaseAt fuel (context.withCfa cfa) pc =
            frameBaseAt fuel (context.withCfa cfa') pc := by
        rw [frameBaseAt_eq, frameBaseAt_eq]
        have hentry : (context.withCfa cfa').frameBaseEntry pc =
            (context.withCfa cfa).frameBaseEntry pc := rfl
        rw [hentry]
        cases (context.withCfa cfa).frameBaseEntry pc with
        | none => exact Or.inr rfl
        | some e =>
          rcases ih e.expr [] with h | h
          · exact Or.inl (by simp only [h, Option.map_none])
          · exact Or.inr (by simp only [h])
      have hsteps : Refines (evalStepAt fuel (context.withCfa cfa) pc expr)
          (evalStepAt fuel (context.withCfa cfa') pc expr) :=
        (evalStep_refines hbase).trans (evalStep_refines_cfa href expr _)
      cases hrun : StepMachine.runFor (evalStepAt fuel (context.withCfa cfa) pc expr) fuel
          (.init stack) with
      | none => exact Or.inl rfl
      | some outcome =>
        exact Or.inr (StepMachine.runFor_mono_of_refines hsteps (Nat.le_refl fuel) hrun).symm

/-- With one fuel for the evaluation and for its CFA provider, an evaluation returns what
it returns with the provider of `expr_ctx`. -/
theorem evaluate_exprCtxAt_returns_iff {dbg : FrameSections} {expr : DwarfExpression}
    {stack : EvalStack} {outcome : EvalOutcome} :
    Returns (fun fuel => evaluate fuel (exprCtxAt fuel dbg context) pc expr stack) outcome ↔
      Returns (fun fuel => evaluate fuel (exprCtx dbg context) pc expr stack) outcome := by
  have hsettle := getCfa_settles dbg context.bound pc
  constructor
  · rintro ⟨fuel, hfuel⟩
    rcases @evaluate_refines_cfa context pc (fun pc => getCfa dbg context.bound pc fuel)
      (fun pc => Fuel.limit (getCfa dbg context.bound pc)) (hsettle.eq_none_or_eq_limit fuel)
      fuel expr stack with h | h
    · exact absurd (hfuel.symm.trans h) (Option.some_ne_none _)
    · exact ⟨fuel, h.symm.trans hfuel⟩
  · rintro ⟨fuel, hfuel⟩
    obtain ⟨n, hn⟩ := hsettle.exists_eq_limit
    have hlarger : Fuel.limit (getCfa dbg context.bound pc) = none ∨
        Fuel.limit (getCfa dbg context.bound pc) = getCfa dbg context.bound pc (max fuel n) := by
      rw [← hn]
      exact hsettle (Nat.le_max_right fuel n)
    refine ⟨max fuel n, ?_⟩
    apply (evaluate_settles _ pc expr stack).eq_some (Nat.le_max_left fuel n)
    rcases @evaluate_refines_cfa context pc
      (fun pc => Fuel.limit (getCfa dbg context.bound pc))
      (fun pc => getCfa dbg context.bound pc (max fuel n)) hlarger fuel expr stack with h | h
    · exact absurd (hfuel.symm.trans h) (Option.some_ne_none _)
    · exact h.symm.trans hfuel

end Wiring

/-- A call of `evaluate`. -/
structure EvalCall where
  context : Context
  pc : DwarfAddr
  expr : DwarfExpression
  stack : EvalStack

/-- The call comes to execute an operation with this code. -/
def EvalCall.Executes (c : EvalCall) (opcode : Opcode) : Prop :=
  ∃ s a, Visits c.context c.pc c.expr c.stack s ∧ c.expr.ops[s.i]? = some a ∧ a.opcode = opcode

/-- The call returns this outcome. -/
def EvalCall.Returns (c : EvalCall) (outcome : EvalOutcome) : Prop :=
  Fuel.Returns (fun fuel => evaluate fuel c.context c.pc c.expr c.stack) outcome

/-- The call makes a bounded number of jumps back. -/
def EvalCall.LoopEnds (c : EvalCall) : Prop :=
  ∃ k, ∀ fuel, JumpsBackAtMost k fuel c.context c.pc c.expr c.stack

/-- The entry that `DW_OP_fbreg` evaluates in the course of the call. -/
def EvalCall.frameBaseEntry (c : EvalCall) : Option LocationExpression :=
  c.context.frameBaseEntry c.pc

/-- The evaluation of an entry of the frame base in the course of the call. -/
def EvalCall.frameBase (c : EvalCall) (e : LocationExpression) : EvalCall :=
  ⟨c.context, c.pc, e.expr, []⟩

/-- The calls of `evaluate` that a call makes itself. -/
inductive Calls (dbg : FrameSections) (context : Context) : EvalCall → EvalCall → Prop
  | frameBase {c : EvalCall} {e : LocationExpression} (hfbreg : c.Executes .fbreg)
      (hentry : c.frameBaseEntry = some e) : Calls dbg context c (c.frameBase e)
  | cfi {c : EvalCall} {q : DwarfAddr} {e : DwarfExpression} (hcfa : c.Executes .callFrameCfa)
      (hprovider : c.context.cfa ≠ none) (he : CfiEvaluates dbg context.bound c.pc q e) :
      Calls dbg context c ⟨context.bound, q, e, []⟩

/-- The call of `evaluate` for an expression of a variable. -/
noncomputable def variableCall (dbg : FrameSections) (context : Context) (pc : DwarfAddr)
    (expr : DwarfExpression) (stack : EvalStack) : EvalCall :=
  ⟨exprCtx dbg context, pc, expr, stack⟩

section Calls

variable {dbg : FrameSections} {context : Context} {pc : DwarfAddr} {expr : DwarfExpression}
  {stack : EvalStack} {start c d : EvalCall}

/-- An expression whose jumps all lead forward makes no jump back in any call. -/
theorem DwarfExpression.JumpsForward.loopEnds (hforward : c.expr.JumpsForward) : c.LoopEnds :=
  ⟨0, fun fuel => hforward.jumpsBackAtMost fuel c.context c.pc c.stack⟩

/-- All calls are made in the context of `dwarf2line` or in the copy bound to `GetCfa`. -/
theorem context_of_reached
    (hreached : Reached (Calls dbg context) (variableCall dbg context pc expr stack) c) :
    c.context = exprCtx dbg context ∨ c.context = context.bound := by
  induction hreached with
  | refl => exact Or.inl rfl
  | tail _ hcall ih =>
    cases hcall with
    | frameBase => exact ih
    | cfi => exact Or.inr rfl

/-- With enough fuel the frame base that a call executes has been evaluated, if the calls
that it makes itself return. -/
theorem EvalCall.exists_frameBaseAt_ne_none
    (hcalls : ∀ d, Calls dbg context c d → ∃ outcome, d.Returns outcome) :
    ∃ fuel, c.Executes .fbreg → frameBaseAt fuel c.context c.pc ≠ none := by
  by_cases hfbreg : c.Executes .fbreg
  · cases hentry : c.frameBaseEntry with
    | none =>
      unfold frameBaseEntry at hentry
      refine ⟨0, fun _ => ?_⟩
      simp only [frameBaseAt_eq, hentry, ne_eq, reduceCtorEq, not_false_eq_true]
    | some e =>
      obtain ⟨outcome, fuel, hfuel⟩ := hcalls _ (.frameBase hfbreg hentry)
      unfold frameBaseEntry at hentry
      refine ⟨fuel, fun _ => ?_⟩
      simp only [frameBase] at hfuel
      simp only [frameBaseAt_eq, hentry, hfuel, Option.map_some, ne_eq, reduceCtorEq,
        not_false_eq_true]
  · exact ⟨0, fun h => absurd h hfbreg⟩

/-- The CFA provider that a call consults answers, if the calls that it makes itself
return. -/
theorem EvalCall.cfa_ne_none
    (hcontext : c.context = exprCtx dbg context ∨ c.context = context.bound)
    (hcalls : ∀ d, Calls dbg context c d → ∃ outcome, d.Returns outcome)
    (hexecutes : c.Executes .callFrameCfa) {cfa : CfaProvider}
    (hprovider : c.context.cfa = some cfa) : cfa c.pc ≠ none := by
  rcases hcontext with hwired | hbound
  · obtain ⟨answer, hanswer⟩ : Fuel.Ends (getCfa dbg context.bound c.pc) :=
      getCfa_ends_iff.mpr fun q e he => hcalls _ (.cfi hexecutes (by simp [hprovider]) he)
    have hlimit := (getCfa_settles dbg context.bound c.pc).limit_eq_some_iff.mpr hanswer
    rw [hwired] at hprovider
    cases hprovider
    exact fun hnone => absurd (hlimit.symm.trans hnone) (Option.some_ne_none answer)
  · rw [hbound] at hprovider
    cases hprovider

/-- A call returns if the calls that it makes itself return. -/
theorem EvalCall.returns_of_calls
    (hcontext : c.context = exprCtx dbg context ∨ c.context = context.bound)
    (hloop : c.LoopEnds) (hcalls : ∀ d, Calls dbg context c d → ∃ outcome, d.Returns outcome) :
    ∃ outcome, c.Returns outcome := by
  obtain ⟨k, hback⟩ := hloop
  obtain ⟨fuel, hbase⟩ := exists_frameBaseAt_ne_none hcalls
  by_cases hops : c.expr.ops = []
  · exact ⟨_, 1, evaluate_of_nil hops 0 c.context c.pc c.stack⟩
  have hstall (s : EvalState) (hreach : Reaches (evalStepAt fuel c.context c.pc c.expr)
      (.init c.stack) s) : evalStepAt fuel c.context c.pc c.expr s ≠ .stall := by
    intro hstall
    have hvisits : Visits c.context c.pc c.expr c.stack s := ⟨hops, fuel, hreach⟩
    obtain ⟨a, ha, hwaiting⟩ := evalStep_stall_cases hstall
    rcases execOp_waiting_iff.mp hwaiting with ⟨hop, -, hnone⟩ | ⟨hop, cfa, hprovider, hnone⟩
    · exact hbase ⟨s, a, hvisits, ha, hop⟩ hnone
    · exact cfa_ne_none hcontext hcalls ⟨s, a, hvisits, ha, hop⟩ hprovider hnone
  obtain ⟨outcome, hrun⟩ := StepMachine.halts_of_back_le hstall
    (fun _ _ => evalStep_next_bound) (Nat.zero_le _) (hback fuel)
  exact exists_returns_of_runFor hrun

/-- An evaluation that returns has not been left waiting at an operation that it visits. -/
theorem Visits.not_waiting {s : EvalState} {a : DwarfOp} {fuel : ℕ} {outcome : EvalOutcome}
    (hvisits : Visits context pc expr stack s) (ha : expr.ops[s.i]? = some a)
    (hreturns : evaluate (fuel + 1) context pc expr stack = some outcome) :
    execOp context pc expr (frameBaseAt fuel context pc) a s.stack ≠ .waiting := by
  obtain ⟨hops, fuel', hreach⟩ := hvisits
  intro hwaiting
  have hsettle := evalStepAt_settlingSteps context pc expr
  have hlater := StepMachine.Reaches.mono_of_refines (hsettle (Nat.le_max_right fuel fuel')) hreach
  have hstall : evalStepAt fuel context pc expr s = .stall := by
    rw [evalStepAt, evalStep_of_getElem ha, hwaiting]
    rfl
  rw [evaluate_succ hops] at hreturns
  exact (hsettle (Nat.le_max_left fuel fuel')).ne_stall_of_runFor hreturns hlater hstall

/-- So if it executes `DW_OP_fbreg`, the frame base has been evaluated with less fuel. -/
theorem Visits.frameBase_ne_none {s : EvalState} {a : DwarfOp} {fuel : ℕ} {outcome : EvalOutcome}
    {e : LocationExpression} (hvisits : Visits context pc expr stack s)
    (ha : expr.ops[s.i]? = some a) (hop : a.opcode = .fbreg)
    (hentry : context.frameBaseEntry pc = some e)
    (hreturns : evaluate (fuel + 1) context pc expr stack = some outcome) :
    evaluate fuel context pc e.expr [] ≠ none := by
  intro hnone
  apply hvisits.not_waiting ha hreturns
  have hbase : frameBaseAt fuel context pc = none := by
    simp only [frameBaseAt_eq, hentry, hnone, Option.map_none]
  exact execOp_waiting_iff.mpr (Or.inl ⟨hop, frameBaseLoc_ne_none hentry, hbase⟩)

/-- Each call that a returning call makes returns. -/
theorem EvalCall.returns_of_called
    (hcontext : c.context = exprCtx dbg context ∨ c.context = context.bound)
    (hcall : Calls dbg context c d) (hreturns : ∃ outcome, c.Returns outcome) :
    ∃ outcome, d.Returns outcome := by
  obtain ⟨outcome, fuel, hfuel⟩ := hreturns
  cases fuel with
  | zero => cases hfuel
  | succ fuel =>
    cases hcall with
    | frameBase hexecutes hentry =>
      obtain ⟨s, a, hvisits, ha, hop⟩ := hexecutes
      have hbase := hvisits.frameBase_ne_none ha hop hentry hfuel
      obtain ⟨result, hresult⟩ := Option.ne_none_iff_exists'.mp hbase
      exact ⟨result, fuel, hresult⟩
    | cfi hexecutes hprovider he =>
      obtain ⟨s, a, hvisits, ha, hop⟩ := hexecutes
      rcases hcontext with hwired | hbound
      · have hanswer : Fuel.limit (getCfa dbg context.bound c.pc) ≠ none := by
          intro hnone
          apply hvisits.not_waiting ha hfuel
          have hwiring : c.context.cfa =
              some fun pc => Fuel.limit (getCfa dbg context.bound pc) := by
            rw [hwired]
            rfl
          exact execOp_waiting_iff.mpr (Or.inr ⟨hop, _, hwiring, hnone⟩)
        obtain ⟨v, hv⟩ := Option.ne_none_iff_exists'.mp hanswer
        have hends := (getCfa_settles dbg context.bound c.pc).limit_eq_some_iff.mp hv
        exact getCfa_ends_iff.mp ⟨v, hends⟩ _ _ he
      · rw [hbound] at hprovider
        exact absurd rfl hprovider

/-- The evaluation of a frame base that executes `DW_OP_fbreg` never returns: it could
only do so after having returned with less fuel. Induction on the fuel. -/
theorem evaluate_eq_none_of_circular {e : LocationExpression} {s : EvalState} {a : DwarfOp}
    (hentry : context.frameBaseEntry pc = some e) (hvisits : Visits context pc e.expr [] s)
    (ha : e.expr.ops[s.i]? = some a) (hop : a.opcode = .fbreg) (fuel : ℕ) :
    evaluate fuel context pc e.expr [] = none := by
  induction fuel with
  | zero => rfl
  | succ fuel ih =>
    cases hreturns : evaluate (fuel + 1) context pc e.expr [] with
    | none => rfl
    | some outcome => exact absurd ih (hvisits.frameBase_ne_none ha hop hentry hreturns)

/-- So a call of a circular frame base never returns. -/
theorem EvalCall.not_returns_of_circular {e : LocationExpression}
    (hentry : c.frameBaseEntry = some e) (hcircular : (c.frameBase e).Executes .fbreg)
    (outcome : EvalOutcome) : ¬(c.frameBase e).Returns outcome := by
  obtain ⟨s, a, hvisits, ha, hop⟩ := hcircular
  rintro ⟨fuel, hfuel⟩
  have hnone := evaluate_eq_none_of_circular hentry hvisits ha hop fuel
  exact absurd (hfuel.symm.trans hnone) (Option.some_ne_none outcome)

/-- No frame base that is evaluated on the way executes `DW_OP_fbreg`. -/
def FrameBaseNotCircular (dbg : FrameSections) (context : Context) (start : EvalCall) : Prop :=
  ∀ c e, Reached (Calls dbg context) start c → c.Executes .fbreg → c.frameBaseEntry = some e →
    ¬(c.frameBase e).Executes .fbreg

/-- In the copy of the context an evaluation calls at most the frame base. -/
theorem wellFoundedFrom_of_bound_of_noFbreg (hcontext : c.context = context.bound)
    (hfbreg : ¬c.Executes .fbreg) : WellFoundedFrom (Calls dbg context) c := by
  apply WellFoundedFrom.intro
  intro d hcall
  cases hcall with
  | frameBase hexecutes => exact absurd hexecutes hfbreg
  | cfi _ hprovider =>
    rw [hcontext] at hprovider
    exact absurd rfl hprovider

/-- An evaluation of an expression of the unwind table recurses finitely. -/
theorem FrameBaseNotCircular.wellFoundedFrom_of_bound
    (hnot : FrameBaseNotCircular dbg context start)
    (hreached : Reached (Calls dbg context) start c) (hcontext : c.context = context.bound) :
    WellFoundedFrom (Calls dbg context) c := by
  apply WellFoundedFrom.intro
  intro d hcall
  cases hcall with
  | frameBase hexecutes hentry =>
    exact wellFoundedFrom_of_bound_of_noFbreg hcontext (hnot _ _ hreached hexecutes hentry)
  | cfi _ hprovider =>
    rw [hcontext] at hprovider
    exact absurd rfl hprovider

/-- Without a circular frame base every recursion is finite: from a variable to its frame
base, from there to the unwind table and from there to a frame base once more. -/
theorem FrameBaseNotCircular.wellFoundedFrom (hnot : FrameBaseNotCircular dbg context start) :
    WellFoundedFrom (Calls dbg context) start := by
  have hcfi (c : EvalCall) (q : DwarfAddr) (e : DwarfExpression)
      (hreached : Reached (Calls dbg context) start c)
      (hcall : Calls dbg context c ⟨context.bound, q, e, []⟩) :
      WellFoundedFrom (Calls dbg context) ⟨context.bound, q, e, []⟩ :=
    hnot.wellFoundedFrom_of_bound (hreached.tail hcall) rfl
  apply WellFoundedFrom.intro
  intro d hcall
  cases hcall with
  | cfi hexecutes hprovider he => exact hcfi _ _ _ .refl (.cfi hexecutes hprovider he)
  | @frameBase e hexecutes hentry =>
    have hreached : Reached (Calls dbg context) start (start.frameBase e) :=
      .single (.frameBase hexecutes hentry)
    apply WellFoundedFrom.intro
    intro d hcall
    cases hcall with
    | cfi hexecutes hprovider he => exact hcfi _ _ _ hreached (.cfi hexecutes hprovider he)
    | frameBase hagain => exact absurd hagain (hnot start e .refl hexecutes hentry)

/-- With a circular frame base the evaluation of a variable does not return, since this
would have to return. -/
theorem not_returns_of_not_frameBaseNotCircular
    (hcircular : ¬FrameBaseNotCircular dbg context (variableCall dbg context pc expr stack))
    (outcome : EvalOutcome) : ¬(variableCall dbg context pc expr stack).Returns outcome := by
  intro hreturns
  apply hcircular
  intro c e hreached hexecutes hentry hagain
  have hall (d : EvalCall)
      (hd : Reached (Calls dbg context) (variableCall dbg context pc expr stack) d) :
      ∃ outcome, d.Returns outcome := by
    induction hd with
    | refl => exact ⟨outcome, hreturns⟩
    | tail hfirst hcall ih => exact EvalCall.returns_of_called (context_of_reached hfirst) hcall ih
  obtain ⟨result, hresult⟩ := hall _ (hreached.tail (.frameBase hexecutes hentry))
  exact EvalCall.not_returns_of_circular hentry hagain result hresult

/-- A finite recursion makes no circular use of a frame base, since this calls itself. -/
theorem not_circular_of_wellFoundedFrom (h : WellFoundedFrom (Calls dbg context) start) :
    FrameBaseNotCircular dbg context start := by
  intro c e hreached hexecutes hentry hcircular
  have hframe := (h.of_reached hreached).of_reached (.single (.frameBase hexecutes hentry))
  exact hframe.not_self (.frameBase hcircular hentry)

end Calls

/-- The recursion of an evaluation ends: there is no infinite chain of nested calls; if the
loop of each call ends and nothing is undefined, the evaluation returns a result; and
a circular definition, of the frame base or of the CFA, is reported as an error. -/
structure RecursionEnds (dbg : FrameSections) (context : Context) (pc : DwarfAddr)
    (expr : DwarfExpression) (stack : EvalStack) : Prop where
  wellFounded : WellFoundedFrom (Calls dbg context) (variableCall dbg context pc expr stack)
  result : (∀ c, Reached (Calls dbg context) (variableCall dbg context pc expr stack) c →
      c.LoopEnds) →
    (∀ cause, ¬Returns (fun fuel => evaluate fuel (exprCtxAt fuel dbg context) pc expr stack)
      (.error cause)) →
    ∃ result, Returns (fun fuel => evaluate fuel (exprCtxAt fuel dbg context) pc expr stack)
      (.ok result)
  frameBaseInvalid : ∀ c e, Reached (Calls dbg context)
      (variableCall dbg context pc expr stack) c →
    c.Executes .fbreg → c.frameBaseEntry = some e → (c.frameBase e).Executes .fbreg →
    ∃ off stack', (c.frameBase e).Returns (.ok (.error .frameBaseInvalid off, stack'))
  cfaInvalid : ∀ c, Reached (Calls dbg context) (variableCall dbg context pc expr stack) c →
    c.context = context.bound → c.Executes .callFrameCfa →
    ∃ off stack', c.Returns (.ok (.error .cfaInvalid off, stack'))

/-- The recursion of an evaluation ends exactly when no frame base that is evaluated on the
way executes `DW_OP_fbreg`; otherwise the evaluation never returns. -/
theorem recursionEnds_iff (dbg : FrameSections) (context : Context) (pc : DwarfAddr)
    (expr : DwarfExpression) (stack : EvalStack) :
    (RecursionEnds dbg context pc expr stack ↔
        FrameBaseNotCircular dbg context (variableCall dbg context pc expr stack)) ∧
      (¬FrameBaseNotCircular dbg context (variableCall dbg context pc expr stack) →
        ∀ outcome, ¬Returns
          (fun fuel => evaluate fuel (exprCtxAt fuel dbg context) pc expr stack) outcome) := by
  refine ⟨⟨?_, ?_⟩, ?_⟩
  · intro hends
    exact not_circular_of_wellFoundedFrom hends.wellFounded
  · intro hnot
    have hwell := hnot.wellFoundedFrom
    refine ⟨hwell, fun hloops hdefined => ?_, fun c e hreached hexecutes hentry hcircular => ?_,
      fun c hreached hcontext hexecutes => ?_⟩
    · obtain ⟨outcome, houtcome⟩ := @WellFoundedFrom.induction _ _
        (fun c => ∃ outcome, c.Returns outcome) _ hwell fun c hreached hcalls =>
          EvalCall.returns_of_calls (context_of_reached hreached) (hloops c hreached) hcalls
      have hreturns := evaluate_exprCtxAt_returns_iff.mpr houtcome
      cases outcome with
      | error cause => exact absurd hreturns (hdefined cause)
      | ok result => exact ⟨result, hreturns⟩
    · exact absurd hcircular (hnot c e hreached hexecutes hentry)
    · obtain ⟨s, a, hvisits, ha, hop⟩ := hexecutes
      have hfinish : execOp c.context c.pc c.expr (frameBaseAt 0 c.context c.pc) a s.stack =
          .finish (.error .cfaInvalid a.off) s.stack := by
        simp only [execOp, hop, hcontext, Context.bound]
      exact ⟨a.off, s.stack, hvisits.returns_of_finish ha hfinish⟩
  · intro hcircular outcome hreturns
    exact not_returns_of_not_frameBaseNotCircular hcircular outcome
      (evaluate_exprCtxAt_returns_iff.mp hreturns)

/-- The expression that only asks for the frame base. -/
def onlyFbreg : DwarfExpression := ⟨[{ opcode := .fbreg, off := 0 }]⟩

/-- A frame base that is defined by itself. -/
def circularContext : Context :=
  { emptyContext with frameBaseLoc := some ⟨[⟨0, 0, onlyFbreg⟩]⟩ }

/-- With the circular frame base no amount of fuel is enough for a variable in the frame. -/
theorem circularContext_never_ends :
    ¬RecursionEnds ⟨.noEntry, .noEntry⟩ circularContext 0 onlyFbreg [] ∧
      ∀ outcome, ¬Returns (fun fuel =>
        evaluate fuel (exprCtxAt fuel ⟨.noEntry, .noEntry⟩ circularContext) 0 onlyFbreg [])
        outcome := by
  have hexecutes :
      (variableCall ⟨.noEntry, .noEntry⟩ circularContext 0 onlyFbreg []).Executes .fbreg :=
    ⟨.init [], _, Visits.init (List.cons_ne_nil _ _) [], rfl, rfl⟩
  have hentry :
      (variableCall ⟨.noEntry, .noEntry⟩ circularContext 0 onlyFbreg []).frameBaseEntry =
        some ⟨0, 0, onlyFbreg⟩ := rfl
  refine ⟨fun hends => ?_, fun outcome hreturns => ?_⟩
  · exact hends.wellFounded.not_self (.frameBase hexecutes hentry)
  · exact EvalCall.not_returns_of_circular hentry hexecutes outcome
      (evaluate_exprCtxAt_returns_iff.mp hreturns)

end DwarfExpr
