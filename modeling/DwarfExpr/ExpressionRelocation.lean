import DwarfExpr.LocationLists
import DwarfExpr.Lib.Simulation

/-!
# Expressions at other offsets

The offset of an operation is where its byte lies, counted from wherever libdwarf begins
to count. Jumps are relative, so moving all operations of an expression by the same amount
changes nothing but the offsets in the errors. The expressions of the frame base may each
be moved by an amount of their own.
-/

namespace DwarfExpr

open StepMachine (Step Follows)

/-- The operation, `k` bytes further on. -/
def DwarfOp.relocate (k : DwarfUnsigned) (a : DwarfOp) : DwarfOp := { a with off := a.off + k }

/-- The expression, `k` bytes further on. -/
def DwarfExpression.relocate (k : DwarfUnsigned) (expr : DwarfExpression) : DwarfExpression :=
  ⟨expr.ops.map (DwarfOp.relocate k)⟩

/-- The location list with the expression of every entry moved by its own amount. -/
def DwarfLocation.relocate (moved : LocationExpression → DwarfUnsigned)
    (location : DwarfLocation) : DwarfLocation :=
  ⟨location.exprs.map fun e => { e with expr := e.expr.relocate (moved e) }⟩

/-- The context with the expressions of its frame base moved. -/
def Context.relocate (moved : LocationExpression → DwarfUnsigned) (context : Context) : Context :=
  { context with frameBaseLoc := context.frameBaseLoc.map (DwarfLocation.relocate moved) }

/-- The result with the offset of an error moved. `illegalState` is the error of the empty
expression and names no operation. -/
def EvalResult.relocate (k : DwarfUnsigned) : EvalResult → EvalResult
  | error code addr => .error code (if code = .illegalState then addr else addr + k)
  | value v => .value v
  | address v => .address v

/-- The outcome with the offset of an error moved. -/
def EvalOutcome.relocate (k : DwarfUnsigned) : EvalOutcome → EvalOutcome :=
  Except.map fun (result, stack) => (result.relocate k, stack)

/-- The effect with the offset of an error moved. -/
def OpEffect.relocate (k : DwarfUnsigned) : OpEffect → OpEffect
  | finish result stack => .finish (result.relocate k) stack
  | effect => effect

/-- The state with `cur_off` moved. -/
def EvalState.relocate (k : DwarfUnsigned) (s : EvalState) : EvalState :=
  { s with curOff := s.curOff + k }

/-- Moving an expression keeps what a valid result is. -/
@[simp] theorem EvalResult.validValue_relocate (k : DwarfUnsigned) (result : EvalResult) :
    (result.relocate k).validValue = result.validValue := by
  cases result <;> rfl

/-- A jump goes to the operation with the same index. -/
theorem DwarfExpression.relocate_jumpIndex (k : DwarfUnsigned) (expr : DwarfExpression)
    (a : DwarfOp) (i : ℕ) :
    (expr.relocate k).jumpIndex (a.relocate k) i = expr.jumpIndex a i := by
  have htarget : (a.relocate k).jumpOffset = a.jumpOffset + k := by
    simp only [DwarfOp.jumpOffset, DwarfOp.relocate]
    ac_rfl
  have hsame : (fun b : DwarfOp => decide (b.off = a.jumpOffset + k)) ∘ DwarfOp.relocate k =
      fun b => decide (b.off = a.jumpOffset) := by
    funext b
    simp [DwarfOp.relocate]
  simp only [jumpIndex, findOpIndexByOffset, relocate, List.findIdx?_map, htarget, hsame]

/-- What a use of the frame base gets of it: its valid value. -/
def frameBaseValue (frameBase : Bounded EvalResult) : Bounded (Option DwarfAddr) :=
  frameBase.map (Except.map EvalResult.validValue)

section Steps

@[simp] theorem Context.relocate_register (moved : LocationExpression → DwarfUnsigned)
    (context : Context) (n : ℕ) : (context.relocate moved).register n = context.register n := rfl

@[simp] theorem Context.relocate_memory (moved : LocationExpression → DwarfUnsigned)
    (context : Context) : (context.relocate moved).memory = context.memory := rfl

@[simp] theorem Context.relocate_cfa (moved : LocationExpression → DwarfUnsigned)
    (context : Context) : (context.relocate moved).cfa = context.cfa := rfl

/-- A provider's answer is pushed alike; its failure has the moved offset. -/
theorem pushOrFail_relocate (k : DwarfUnsigned) (stack : EvalStack) (failure : EvalResult)
    (answer : Option (BitVec 64)) :
    pushOrFail stack (failure.relocate k) answer =
      (pushOrFail stack failure answer).relocate k := by
  cases answer <;> rfl

/-- The value of an arithmetic operation is pushed alike. -/
theorem pushArith_relocate (k : DwarfUnsigned) (rest : EvalStack) (value : Arith) :
    pushArith rest value = (pushArith rest value).relocate k := by
  cases value <;> rfl

variable (context : Context) (pc : DwarfAddr) (moved : LocationExpression → DwarfUnsigned)
  (k : DwarfUnsigned) (expr : DwarfExpression) {frameBase frameBase' : Bounded EvalResult}

/-- `DW_OP_fbreg` asks for the value of the frame base only. -/
theorem execOp_fbreg_relocate (hbase : frameBaseValue frameBase' = frameBaseValue frameBase)
    {a : DwarfOp} (hop : a.opcode = .fbreg) (stack : EvalStack) :
    execOp (context.relocate moved) pc (expr.relocate k) frameBase' (a.relocate k) stack =
      (execOp context pc expr frameBase a stack).relocate k := by
  have hop' : (a.relocate k).opcode = .fbreg := hop
  cases hloc : context.frameBaseLoc with
  | none =>
    simp only [execOp, hop, hop', Context.relocate, hloc, Option.map_none]
    rfl
  | some location =>
    simp only [execOp, hop, hop', Context.relocate, hloc, Option.map_some]
    rcases frameBase with _ | cause | base <;> rcases frameBase' with _ | cause' | base' <;>
      simp only [frameBaseValue, Option.map_some, Option.map_none, Except.map, Option.some.injEq,
        reduceCtorEq, Except.ok.injEq, Except.error.injEq] at hbase
    · rfl
    · simp only [hbase]
      rfl
    · simp only [hbase]
      cases base.validValue <;> rfl

/-- A moved operation has the same effect, given a frame base with the same value. -/
theorem execOp_relocate (hbase : frameBaseValue frameBase' = frameBaseValue frameBase)
    (a : DwarfOp) (stack : EvalStack) :
    execOp (context.relocate moved) pc (expr.relocate k) frameBase' (a.relocate k) stack =
      (execOp context pc expr frameBase a stack).relocate k := by
  cases hop : a.opcode with
  | fbreg => exact execOp_fbreg_relocate context pc moved k expr hbase hop stack
  | unnamed | lit _ | const _ | skip | nop | missing _ =>
    simp only [execOp, DwarfOp.relocate, hop]
    rfl
  | reg _ =>
    simp only [execOp, DwarfOp.relocate, hop, Context.relocate_register]
    split <;> rfl
  | regx =>
    have hop' : (a.relocate k).opcode = .regx := hop
    have hfirst : ((expr.relocate k).ops.head?.getD (a.relocate k)).op1 =
        (expr.ops.head?.getD a).op1 := by
      unfold DwarfExpression.relocate
      cases expr.ops <;> rfl
    simp only [execOp, hop, hop', Context.relocate_register, hfirst]
    split <;> rfl
  | breg _ | bregx =>
    simp only [execOp, DwarfOp.relocate, hop, Context.relocate_register]
    exact pushOrFail_relocate k stack (.error .registerInvalid a.off) _
  | callFrameCfa =>
    simp only [execOp, DwarfOp.relocate, hop, Context.relocate_cfa]
    split
    · rfl
    split <;> rfl
  | dup | drop | pick | «over» | swap | rot | compare _ | bra | stackValue =>
    simp only [execOp, DwarfOp.relocate, hop]
    repeat' split
    all_goals rfl
  | unary kind | binary kind =>
    simp only [execOp, DwarfOp.relocate, hop]
    split
    · exact pushArith_relocate k _ _
    · rfl
  | deref | derefSize =>
    simp only [execOp, DwarfOp.relocate, hop, Context.relocate_memory]
    repeat' split
    all_goals rfl

/-- The loop over the moved operations makes the same steps, with moved offsets. -/
theorem evalStep_follows_relocate
    (hbase : frameBaseValue frameBase' = frameBaseValue frameBase) :
    Follows (fun _ => False) (EvalState.relocate k) (EvalOutcome.relocate k)
      (evalStep context pc expr frameBase)
      (evalStep (context.relocate moved) pc (expr.relocate k) frameBase') := by
  intro s
  right
  have hget : (expr.relocate k).ops[(s.relocate k).i]? =
      (expr.ops[s.i]?).map (DwarfOp.relocate k) := List.getElem?_map
  cases ha : expr.ops[s.i]? with
  | none =>
    rw [ha] at hget
    rcases s with ⟨i, curOff, _ | ⟨v, rest⟩⟩ <;> simp only [evalStep, ha, hget] <;> rfl
  | some a =>
    rw [ha] at hget
    rw [evalStep_of_getElem ha, evalStep_of_getElem hget]
    change (execOp (context.relocate moved) pc (expr.relocate k) frameBase' (a.relocate k)
      s.stack).advance (expr.relocate k) s.i (a.relocate k) = _
    rw [execOp_relocate context pc moved k expr hbase]
    cases execOp context pc expr frameBase a s.stack with
    | goOn stack | finish result stack | undefined cause | waiting => rfl
    | jump stack =>
      simp only [OpEffect.relocate, OpEffect.advance, DwarfExpression.relocate_jumpIndex]
      rfl

end Steps

/-- The moved frame base selects the same entry, moved. -/
theorem Context.relocate_frameBaseEntry (moved : LocationExpression → DwarfUnsigned)
    (context : Context) (pc : DwarfAddr) :
    (context.relocate moved).frameBaseEntry pc =
      (context.frameBaseEntry pc).map fun e => { e with expr := e.expr.relocate (moved e) } := by
  unfold frameBaseEntry relocate
  cases context.frameBaseLoc with
  | none => rfl
  | some location =>
    simp only [Option.map_some, Option.bind_some, DwarfLocation.relocate, List.find?_map]
    rfl

/-- Moving an expression, and the expressions of the frame base by amounts of their own,
changes nothing about an evaluation but the offset reported with an error. -/
theorem evaluate_relocate (fuel : ℕ) (context : Context) (pc : DwarfAddr)
    (moved : LocationExpression → DwarfUnsigned) (k : DwarfUnsigned) (expr : DwarfExpression)
    (stack : EvalStack) :
    evaluate fuel (context.relocate moved) pc (expr.relocate k) stack =
      (evaluate fuel context pc expr stack).map (EvalOutcome.relocate k) := by
  induction fuel generalizing k expr stack with
  | zero => rfl
  | succ fuel ih =>
    by_cases hops : expr.ops = []
    · have hops' : (expr.relocate k).ops = [] := by
        rw [DwarfExpression.relocate, hops, List.map_nil]
      rw [evaluate_of_nil hops, evaluate_of_nil hops']
      rfl
    have hops' : (expr.relocate k).ops ≠ [] := by
      simpa [DwarfExpression.relocate] using hops
    -- The nested evaluations return moved results, whose values are the same.
    have hbase : frameBaseValue (frameBaseAt fuel (context.relocate moved) pc) =
        frameBaseValue (frameBaseAt fuel context pc) := by
      rw [frameBaseAt_eq, frameBaseAt_eq, Context.relocate_frameBaseEntry]
      cases context.frameBaseEntry pc with
      | none => rfl
      | some e =>
        simp only [Option.map_some, ih, frameBaseValue, Option.map_map]
        cases evaluate fuel context pc e.expr [] with
        | none => rfl
        | some outcome =>
          rcases outcome with cause | ⟨result, stack⟩
          · rfl
          · exact congrArg (fun v => some (Except.ok v)) (result.validValue_relocate _)
    rw [evaluate_succ hops, evaluate_succ hops']
    have hfollows := evalStep_follows_relocate context pc moved k expr hbase
    have hrun := hfollows.runFor_eq fuel (.init stack)
    refine Eq.trans ?_ hrun
    -- Before the first operation `cur_off` is not looked at.
    obtain ⟨a, ha⟩ : ∃ a, (expr.relocate k).ops[0]? = some a := by
      cases hlist : (expr.relocate k).ops with
      | nil => exact absurd hlist hops'
      | cons a rest => exact ⟨a, rfl⟩
    refine StepMachine.runFor_congr_start ?_ fuel
    rw [evalStepAt, evalStep_of_getElem ha]
    exact (evalStep_of_getElem (s := (EvalState.init stack).relocate k) ha).symm

end DwarfExpr
