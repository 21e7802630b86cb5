import DwarfExpr.ExpressionLoops
import DwarfExpr.NestedEvaluations

/-!
# Composite locations

A composite location describes a variable in parts, each followed by `DW_OP_piece` or
`DW_OP_bit_piece`. `evaluate` implements neither and reports so, but only when it gets
there: a register operation or `DW_OP_stack_value` in a part in front of them returns at
once, and a jump may lead behind the last of them.
-/

namespace DwarfExpr

open StepMachine (Step Reaches)
open Fuel (Returns)

/-- `DW_OP_piece` and `DW_OP_bit_piece`. -/
def DwarfOp.isPiece (a : DwarfOp) : Bool :=
  a.opcode = .missing .piece || a.opcode = .missing .bitPiece

/-- An operation of a computation: none that is a location or ends one. -/
def DwarfOp.computes (a : DwarfOp) : Bool :=
  match a.opcode with
  | .reg _ | .regx | .stackValue | .missing .piece | .missing .bitPiece => false
  | _ => true

/-- A simple location description: a register, a computed value, or a computed address,
whose computation is empty for a part that is not available. -/
inductive SimpleLocation : List DwarfOp → Prop
  | register {a : DwarfOp} (hop : a.opcode = .regx ∨ ∃ n, a.opcode = .reg n) : SimpleLocation [a]
  | value {ops : List DwarfOp} {a : DwarfOp} (hops : ∀ b ∈ ops, b.computes = true)
      (hop : a.opcode = .stackValue) : SimpleLocation (ops ++ [a])
  | address {ops : List DwarfOp} (hops : ∀ b ∈ ops, b.computes = true) : SimpleLocation ops

/-- A composite location description: parts, each followed by its piece operation. -/
inductive CompositeLocation : List DwarfOp → Prop
  | last {part : List DwarfOp} {piece : DwarfOp} (hpart : SimpleLocation part)
      (hpiece : piece.isPiece = true) : CompositeLocation (part ++ [piece])
  | more {part rest : List DwarfOp} {piece : DwarfOp} (hpart : SimpleLocation part)
      (hpiece : piece.isPiece = true) (hrest : CompositeLocation rest) :
      CompositeLocation (part ++ piece :: rest)

/-- The last operation of a composite location is a piece operation. -/
theorem CompositeLocation.getLast? {ops : List DwarfOp} (hcomposite : CompositeLocation ops) :
    ∃ piece, ops.getLast? = some piece ∧ piece.isPiece = true := by
  induction hcomposite with
  | last _ hpiece => exact ⟨_, List.getLast?_concat, hpiece⟩
  | @more part rest piece _ _ _ ih =>
    obtain ⟨last, hlast, hislast⟩ := ih
    refine ⟨last, ?_, hislast⟩
    rw [List.getLast?_append, List.getLast?_cons, hlast]
    rfl

/-- A piece operation is reported as not implemented. -/
theorem execOp_piece {context : Context} {pc : DwarfAddr} {expr : DwarfExpression}
    {frameBase : Bounded EvalResult} {a : DwarfOp} {stack : EvalStack}
    (hpiece : a.isPiece = true) :
    execOp context pc expr frameBase a stack = .finish (.error .notImplemented a.off) stack := by
  simp only [DwarfOp.isPiece, Bool.or_eq_true, decide_eq_true_eq] at hpiece
  rcases hpiece with hop | hop <;> simp only [execOp, hop]

/-- In the state `s` the run turns past the piece operations: the operation delivers a
value, or it jumps behind the last operation with something on the stack. -/
inductive PassesPieces (context : Context) (expr : DwarfExpression) (s : EvalState) : Prop
  | delivers {a : DwarfOp} {v : DwarfAddr} {stack : EvalStack} (ha : expr.ops[s.i]? = some a)
      (hdelivers : Delivers context expr a s.stack v stack) : PassesPieces context expr s
  | skips {a : DwarfOp} (ha : expr.ops[s.i]? = some a) (hop : a.opcode = .skip)
      (hend : expr.jumpIndex a s.i + 1 = expr.ops.length) (hstack : s.stack ≠ []) :
      PassesPieces context expr s
  | branches {a : DwarfOp} (ha : expr.ops[s.i]? = some a) (hop : a.opcode = .bra)
      (hend : expr.jumpIndex a s.i + 1 = expr.ops.length) (hstack : s.stack.tail ≠ []) :
      PassesPieces context expr s

/-- A jump behind the last operation ends the evaluation with the address on the stack. -/
theorem Visits.returns_of_jump_end {context : Context} {pc : DwarfAddr} {expr : DwarfExpression}
    {stack rest : EvalStack} {s : EvalState} {a : DwarfOp} {v : DwarfAddr}
    (hvisits : Visits context pc expr stack s) (ha : expr.ops[s.i]? = some a)
    (hjump : (a.opcode = .skip ∧ v :: rest = s.stack) ∨
      (a.opcode = .bra ∧ ∃ x, s.stack = x :: v :: rest))
    (hend : expr.jumpIndex a s.i + 1 = expr.ops.length) :
    Returns (fun fuel => evaluate fuel context pc expr stack) (.ok (.address v, v :: rest)) := by
  obtain ⟨hops, fuel, hreach⟩ := hvisits
  have hstep : evalStepAt fuel context pc expr s = .next ⟨expr.ops.length, a.off, v :: rest⟩ := by
    rw [evalStepAt, evalStep_of_getElem ha, execOp_jump_iff.mpr hjump, OpEffect.advance, hend]
  have hvisits' : Visits context pc expr stack ⟨expr.ops.length, a.off, v :: rest⟩ :=
    ⟨hops, fuel, hreach.tail hstep⟩
  have hbehind : expr.ops[expr.ops.length]? = none := List.getElem?_eq_none (Nat.le_refl _)
  have hhalt : evalStepAt fuel context pc expr ⟨expr.ops.length, a.off, v :: rest⟩ =
      .halt (.ok (.address v, v :: rest)) := by
    simp only [evalStepAt, evalStep, hbehind, endOfLoop]
  exact hvisits'.returns hhalt

/-- A run that turns past the piece operations returns a valid result. -/
theorem Visits.returns_of_passesPieces {context : Context} {pc : DwarfAddr}
    {expr : DwarfExpression} {stack : EvalStack} {s : EvalState}
    (hvisits : Visits context pc expr stack s) (hpasses : PassesPieces context expr s) :
    ∃ result stack', result.validValue ≠ none ∧
      Returns (fun fuel => evaluate fuel context pc expr stack) (.ok (result, stack')) := by
  cases hpasses with
  | @delivers a v stack' ha hdelivers =>
    have hfinish := @Delivers.execOp_eq context pc expr (frameBaseAt 0 context pc) _ _ _ _ hdelivers
    exact ⟨.value v, stack', by simp [EvalResult.validValue],
      hvisits.returns_of_finish ha hfinish⟩
  | @skips a ha hop hend hstack =>
    obtain ⟨v, rest, hvalue⟩ := List.exists_cons_of_ne_nil hstack
    exact ⟨.address v, v :: rest, by simp [EvalResult.validValue],
      hvisits.returns_of_jump_end ha (Or.inl ⟨hop, hvalue.symm⟩) hend⟩
  | @branches a ha hop hend hstack =>
    obtain ⟨v, rest, hvalue⟩ := List.exists_cons_of_ne_nil hstack
    obtain ⟨x, hx⟩ : ∃ x, s.stack = x :: v :: rest := by
      cases hs : s.stack with
      | nil => simp [hs] at hvalue
      | cons x tail =>
        rw [hs, List.tail_cons] at hvalue
        exact ⟨x, by rw [hvalue]⟩
    exact ⟨.address v, v :: rest, by simp [EvalResult.validValue],
      hvisits.returns_of_jump_end ha (Or.inr ⟨hop, x, hx⟩) hend⟩

/-- If the last operation is a piece operation, the loop comes to its end only by a jump. -/
theorem passesPieces_of_end {context : Context} {pc : DwarfAddr} {expr : DwarfExpression}
    {s t : EvalState} {fuel : ℕ} {piece : DwarfOp} {v : DwarfAddr} {rest : EvalStack}
    (hlast : expr.ops.getLast? = some piece) (hpiece : piece.isPiece = true)
    (hstep : evalStepAt fuel context pc expr t = .next s) (hend : expr.ops[s.i]? = none)
    (hstack : s.stack = v :: rest) : PassesPieces context expr t := by
  have hbehind := List.getElem?_eq_none_iff.mp hend
  obtain ⟨a, ha, -, ⟨hindex, hgo⟩ | ⟨hindex, hjump⟩⟩ := evalStep_next_cases hstep
  · have hi : t.i < expr.ops.length := (List.getElem?_eq_some_iff.mp ha).1
    have hti : t.i = expr.ops.length - 1 := by omega
    rw [List.getLast?_eq_getElem?, ← hti, ha] at hlast
    cases hlast
    rw [execOp_piece hpiece] at hgo
    cases hgo
  · have hbound := evalStep_next_bound hstep
    have hend' : expr.jumpIndex a t.i + 1 = expr.ops.length := by omega
    rcases execOp_jump_iff.mp hjump with ⟨hop, hsame⟩ | ⟨hop, x, hx⟩
    · exact .skips ha hop hend' (by rw [← hsame, hstack]; exact List.cons_ne_nil v rest)
    · refine .branches ha hop hend' ?_
      rw [hx, List.tail_cons, hstack]
      exact List.cons_ne_nil v rest

/-- A composite location has operations. -/
theorem CompositeLocation.ne_nil {ops : List DwarfOp} (hcomposite : CompositeLocation ops) :
    ops ≠ [] := by
  obtain ⟨piece, hlast, -⟩ := hcomposite.getLast?
  intro hnil
  rw [hnil] at hlast
  cases hlast

/-- The evaluation of a composite location that never turns past the piece operations returns
nothing but invalid results. -/
theorem CompositeLocation.invalid_of_not_passesPieces {context : Context} {pc : DwarfAddr}
    {expr : DwarfExpression} {stack stack' : EvalStack} {result : EvalResult}
    (hcomposite : CompositeLocation expr.ops)
    (hnone : ∀ s, Visits context pc expr stack s → ¬PassesPieces context expr s)
    (hreturns : Returns (fun fuel => evaluate fuel context pc expr stack) (.ok (result, stack'))) :
    result.validValue = none := by
  obtain ⟨piece, hlast, hpiece⟩ := hcomposite.getLast?
  have hops := hcomposite.ne_nil
  obtain ⟨fuel, s, hreach, hhalt⟩ := (evaluate_returns_iff hops).mp hreturns
  rcases evalStep_halt_cases hhalt with ⟨hend, rfl, rfl⟩ | ⟨a, ha, hfinish⟩
  · rcases Relation.ReflTransGen.cases_tail hreach with rfl | ⟨t, hreach', hstep⟩
    · have hpos := List.length_pos_iff.mpr hops
      have hle := List.getElem?_eq_none_iff.mp hend
      exact absurd hpos (by simpa [EvalState.init] using hle)
    · cases hstack : s.stack with
      | nil => simp only [endOfLoop, hstack, EvalResult.validValue]
      | cons v rest =>
        exact absurd (passesPieces_of_end hlast hpiece hstep hend hstack)
          (hnone t ⟨hops, fuel, hreach'⟩)
  · rcases execOp_finish_cases hfinish with ⟨v, rfl, hdelivers⟩ | ⟨code, -, rfl⟩
    · exact absurd (.delivers ha hdelivers) (hnone s ⟨hops, fuel, hreach⟩)
    · rfl

/-- The evaluation returns, and its result is not valid. -/
def ReturnsInvalid (context : Context) (pc : DwarfAddr) (expr : DwarfExpression)
    (stack : EvalStack) : Prop :=
  ∃ result stack', result.validValue = none ∧
    Returns (fun fuel => evaluate fuel context pc expr stack) (.ok (result, stack'))

/-- An evaluation that returns an invalid result returns no other one. -/
theorem ReturnsInvalid.eq_ok {context : Context} {pc : DwarfAddr} {expr : DwarfExpression}
    {stack : EvalStack} {outcome : EvalOutcome} (hinvalid : ReturnsInvalid context pc expr stack)
    (hreturns : Returns (fun fuel => evaluate fuel context pc expr stack) outcome) :
    ∃ result stack', result.validValue = none ∧ outcome = .ok (result, stack') := by
  obtain ⟨result, stack', hvalue, hinvalid⟩ := hinvalid
  exact ⟨result, stack', hvalue,
    (evaluate_settles context pc expr stack).unique hreturns hinvalid⟩

/-- The evaluation of a composite location returns an invalid result exactly when it executes
no register operation whose register is known, no `DW_OP_stack_value` with an entry on the
stack and no jump behind the last operation that leaves one, when nothing that it executes is
undefined, in the frame base and the CFA as well, and when it comes to an end: its jumps back
are bounded and the frame bases and CFAs that it asks for are found. -/
theorem evaluate_composite_iff {expr : DwarfExpression}
    (hcomposite : CompositeLocation expr.ops) (context : Context) (pc : DwarfAddr)
    (stack : EvalStack) :
    ReturnsInvalid context pc expr stack ↔
      (∀ s, Visits context pc expr stack s → ¬PassesPieces context expr s) ∧
        (∀ cause : Undefined, ¬Meets context pc (RunsInto context pc cause.root) expr stack) ∧
          ∃ fuel k, LoopBounded fuel k context pc expr stack := by
  rw [← exists_returns_iff_loopBounded hcomposite.ne_nil]
  constructor
  · intro hinvalid
    refine ⟨fun s hvisits hpasses => ?_, fun cause hmeets => ?_, ?_⟩
    · obtain ⟨result, stack', hvalid, hreturns⟩ := hvisits.returns_of_passesPieces hpasses
      obtain ⟨_, _, hnone, ⟨⟩⟩ := hinvalid.eq_ok hreturns
      exact hvalid hnone
    · obtain ⟨cause, -, hreturns⟩ := exists_returns_error_iff.mpr hmeets
      obtain ⟨_, _, -, ⟨⟩⟩ := hinvalid.eq_ok hreturns
    · obtain ⟨result, stack', -, hreturns⟩ := hinvalid
      exact ⟨.ok (result, stack'), hreturns⟩
  · rintro ⟨hnone, hdefined, outcome, hreturns⟩
    rcases outcome with cause | ⟨result, stack'⟩
    · exact absurd (meets_runsInto_of_returns_error hreturns) (hdefined cause)
    · exact ⟨result, stack', hcomposite.invalid_of_not_passesPieces hnone hreturns, hreturns⟩

/-- A variable in two registers of eight bytes each. -/
def splitVariable : DwarfExpression :=
  ⟨[⟨.reg 0, 0, 0, 0, 0⟩, ⟨.missing .piece, 8, 0, 0, 1⟩, ⟨.reg 1, 0, 0, 0, 3⟩,
    ⟨.missing .piece, 8, 0, 0, 4⟩]⟩

/-- The description is composite. -/
theorem splitVariable_composite : CompositeLocation splitVariable.ops :=
  .more (.register (Or.inr ⟨0, rfl⟩)) rfl (.last (.register (Or.inr ⟨1, rfl⟩)) rfl)

/-- Of the variable in two registers the first is reported. -/
theorem splitVariable_valid :
    CompositeLocation splitVariable.ops ∧
      ¬ReturnsInvalid registersContext 0 splitVariable [] := by
  refine ⟨splitVariable_composite, fun hinvalid => ?_⟩
  obtain ⟨_, _, hnone, ⟨⟩⟩ := @ReturnsInvalid.eq_ok _ _ _ _ (.ok (.value 0, [0])) hinvalid
    ⟨2, rfl⟩
  cases hnone

/-- A variable of twelve bytes, eight of them in the frame and four behind a register. -/
def splitInMemory : DwarfExpression where
  ops := [{ opcode := .fbreg, op1 := 16, off := 0 },
    { opcode := .missing .piece, op1 := 8, off := 2 },
    { opcode := .breg 3, op1 := 4, off := 4 }, { opcode := .missing .piece, op1 := 4, off := 6 }]

/-- The description is composite. -/
theorem splitInMemory_composite : CompositeLocation splitInMemory.ops := by
  refine .more (@SimpleLocation.address [_] ?_) rfl (.last (@SimpleLocation.address [_] ?_) rfl) <;>
    decide

/-- The characterization at two parts in memory. -/
theorem evaluate_composite_iff_splitInMemory :
    ReturnsInvalid framedContext 0 splitInMemory [] ↔
      (∀ s, Visits framedContext 0 splitInMemory [] s →
          ¬PassesPieces framedContext splitInMemory s) ∧
        (∀ cause : Undefined,
            ¬Meets framedContext 0 (RunsInto framedContext 0 cause.root) splitInMemory []) ∧
          ∃ fuel k, LoopBounded fuel k framedContext 0 splitInMemory [] :=
  evaluate_composite_iff splitInMemory_composite framedContext 0 []

end DwarfExpr
