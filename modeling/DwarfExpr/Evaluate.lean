import DwarfExpr.Expression
import DwarfExpr.Lib.LittleEndian
import DwarfExpr.Lib.StepMachine

/-!
# The expression machine

`DwarfExpression::evaluate` as a step machine over an operation index, the offset
of the operation executed last and the stack, whose top is the head of the list.
One definition states what each operation does to the stack; the step function
adds the loop's own counting. Frame-base evaluation and the CFA provider may run
further evaluations, so a whole evaluation is bounded by fuel.
-/

namespace DwarfExpr

open StepMachine (Step)

/-- The stack of `evaluate`, with its top first. -/
abbrev EvalStack := List DwarfSigned

/-- A signed operation: computed without overflow, computed with an overflow that the
target wraps around, or undefined for the target as well. -/
inductive Arith where
  | exact (value : DwarfSigned)
  | wrapped (value : DwarfSigned)
  | undefined (cause : Undefined)
  deriving DecidableEq, Repr

/-- A signed 64-bit operation with the given exact result. -/
def Arith.signed (x : ℤ) : Arith :=
  if -2 ^ 63 ≤ x ∧ x < 2 ^ 63 then .exact (.ofInt 64 x) else .wrapped (.ofInt 64 x)

/-- The operations on the top entry. Adding the unsigned operand is unsigned. -/
def unaryOp (op1 : DwarfUnsigned) (top : DwarfSigned) : UnaryKind → Arith
  | .abs => .signed |top.toInt|
  | .neg => .signed (-top.toInt)
  | .not => .exact (~~~top)
  | .plusUconst => .exact (top + op1)

/-- Both `/` and `%` trap on these operands. -/
def divisionTraps (e2 e1 : DwarfSigned) : Bool :=
  e1 = 0 || (e2 = BitVec.intMin 64 && e1 = BitVec.allOnes 64)

/-- The count of a shift lies in `0..63`. -/
def shiftDefined (e1 : DwarfSigned) : Bool := e1.toNat < 64

/-- The operations on the top two entries; `e1` is the top and `e2` the second. The
source shifts right arithmetically for `DW_OP_shr` too. -/
def binaryOp (e2 e1 : DwarfSigned) : BinaryKind → Arith
  | .and => .exact (e1 &&& e2)
  | .div => if divisionTraps e2 e1 then .undefined .division else .exact (e2.sdiv e1)
  | .minus => .signed (e2.toInt - e1.toInt)
  | .mod => if divisionTraps e2 e1 then .undefined .division else .exact (e2.srem e1)
  | .mul => .signed (e2.toInt * e1.toInt)
  | .or => .exact (e2 ||| e1)
  | .plus => .signed (e2.toInt + e1.toInt)
  | .shl =>
    if ¬shiftDefined e1 then .undefined .shiftCount
    else if e2.toInt < 0 then .wrapped (e2 <<< e1.toNat)
    else .signed (e2.toInt * 2 ^ e1.toNat)
  | .shr => if shiftDefined e1 then .exact (e2.sshiftRight e1.toNat) else .undefined .shiftCount
  | .shra => if shiftDefined e1 then .exact (e2.sshiftRight e1.toNat) else .undefined .shiftCount
  | .xor => .exact (e2 ^^^ e1)

/-- The comparisons of the second entry with the top. -/
def compareOp (e2 e1 : DwarfSigned) : CompareKind → Bool
  | .le => e2.toInt ≤ e1.toInt
  | .ge => e1.toInt ≤ e2.toInt
  | .eq => e2 = e1
  | .lt => e2.toInt < e1.toInt
  | .gt => e1.toInt < e2.toInt
  | .ne => e2 ≠ e1

/-- The first loop of `DW_OP_pick`: move entries to a second stack, with a 32-bit
counter. `none` is a `top` of the empty stack. -/
def pickUnload (idx : DwarfUnsigned) : EvalStack → BitVec 32 → EvalStack →
    Option (EvalStack × EvalStack)
  | [], i, t => if i.setWidth 64 < idx then none else some ([], t)
  | x :: rest, i, t =>
    if i.setWidth 64 < idx then pickUnload idx rest (i + 1) (x :: t) else some (x :: rest, t)

/-- The second loop of `DW_OP_pick`: move the entries back. -/
def pickReload (idx : DwarfUnsigned) : EvalStack → BitVec 32 → EvalStack → Option EvalStack
  | [], i, stack => if i.setWidth 64 < idx then none else some stack
  | x :: t, i, stack =>
    if i.setWidth 64 < idx then pickReload idx t (i + 1) (x :: stack) else some stack

/-- `DW_OP_pick` after its check. -/
def pickOp (idx : DwarfUnsigned) (stack : EvalStack) : Option EvalStack :=
  match pickUnload idx stack 0 [] with
  | some (pick :: rest, t) => (pickReload idx t 0 (pick :: rest)).map (pick :: ·)
  | _ => none

/-- `DwarfExpression::readMemory` for an eight-byte value. -/
def readMemory (memory : MemoryProvider) (addr : BitVec 64) (defVal : BitVec 64) : BitVec 64 :=
  match memory addr 8 with
  | some buf => if buf.length = 8 then .ofNat 64 (LittleEndian.decode buf) else defVal
  | none => defVal

/-- The value that `DW_OP_deref_size` assembles: the first eight bytes of the buffer,
followed by zeros. -/
def derefValue (buf : List UInt8) : DwarfSigned := .ofNat 64 (LittleEndian.decode (buf.take 8))

/-- What one operation does: go on with the next operation or from a jump target, end
the evaluation, run into undefined behaviour, or wait for a nested evaluation. -/
inductive OpEffect where
  | goOn (stack : EvalStack)
  | jump (stack : EvalStack)
  | finish (result : EvalResult) (stack : EvalStack)
  | undefined (cause : Undefined)
  | waiting
  deriving DecidableEq, Repr

/-- Push the value of a provider call, or fail. -/
def pushOrFail (stack : EvalStack) (failure : EvalResult) : Option (BitVec 64) → OpEffect
  | some v => .goOn (v :: stack)
  | none => .finish failure stack

/-- Push the value of an arithmetic operation. -/
def pushArith (rest : EvalStack) : Arith → OpEffect
  | .exact v => .goOn (v :: rest)
  | .wrapped v => .goOn (v :: rest)
  | .undefined cause => .undefined cause

/-- The value of a register, if there is a provider and it knows the register. -/
def Context.register (context : Context) (regNum : ℕ) : Option (BitVec 64) :=
  context.registers.bind fun registers => registers regNum

/-- The effect of the operation `a` in the loop of `evaluate`. The frame-base location
evaluated at the same pc is given. -/
def execOp (context : Context) (pc : DwarfAddr) (expr : DwarfExpression)
    (frameBase : Bounded EvalResult) (a : DwarfOp) (stack : EvalStack) : OpEffect :=
  let fail (code : ErrorCode) : EvalResult := .error code a.off
  match a.opcode with
  | .unnamed => .finish (fail .illegalOp) stack
  | .reg n =>
    match context.register n with
    | some v => .finish (.value v) (v :: stack)
    | none => .finish (fail .registerInvalid) stack
  | .regx =>
    -- The source takes the operand of the first operation here.
    match context.register ((expr.ops.head?.getD a).op1.setWidth 16).toNat with
    | some v => .finish (.value v) (v :: stack)
    | none => .finish (fail .registerInvalid) stack
  | .lit n => .goOn (.ofNat 64 n :: stack)
  | .const _ => .goOn (a.op1 :: stack)
  | .fbreg =>
    match context.frameBaseLoc with
    | none => .finish (fail .frameBaseInvalid) stack
    | some _ =>
      match frameBase with
      | none => .waiting
      | some (.error cause) => .undefined (.inFrameBase cause)
      | some (.ok base) =>
        pushOrFail stack (fail .frameBaseInvalid) (base.validValue.map (· + a.op1))
  | .breg n =>
    pushOrFail stack (fail .registerInvalid) ((context.register n).map (· + a.op1))
  | .bregx =>
    pushOrFail stack (fail .registerInvalid)
      ((context.register (a.op1.setWidth 16).toNat).map (· + a.op1))
  | .dup =>
    match stack with
    | x :: rest => .goOn (x :: x :: rest)
    | [] => .finish (fail .stackIndexInvalid) stack
  | .drop =>
    match stack with
    | _ :: rest => .goOn rest
    | [] => .finish (fail .stackIndexInvalid) stack
  | .pick =>
    if stack.length < (a.op1 + 1).toNat then .finish (fail .stackIndexInvalid) stack
    else
      match pickOp a.op1 stack with
      | some stack' => .goOn stack'
      | none => .undefined .emptyStack
  | .over =>
    match stack with
    | t :: d :: rest => .goOn (d :: t :: d :: rest)
    | _ => .finish (fail .stackIndexInvalid) stack
  | .swap =>
    match stack with
    | e1 :: e2 :: rest => .goOn (e2 :: e1 :: rest)
    | _ => .finish (fail .stackIndexInvalid) stack
  | .rot =>
    match stack with
    | e1 :: e2 :: e3 :: rest => .goOn (e2 :: e3 :: e1 :: rest)
    | _ => .finish (fail .stackIndexInvalid) stack
  | .deref =>
    match context.memory with
    | none => .finish (fail .memoryInvalid) stack
    | some memory =>
      match stack with
      | [] => .finish (fail .stackIndexInvalid) stack
      | adr :: rest =>
        let v := readMemory memory adr maxDwarfSigned
        if v = maxDwarfSigned then .finish (fail .memoryInvalid) rest else .goOn (v :: rest)
  | .derefSize =>
    match context.memory with
    | none => .finish (fail .memoryInvalid) stack
    | some memory =>
      match stack with
      | [] => .finish (fail .stackIndexInvalid) stack
      | adr :: rest =>
        if a.op1.toNat > 8 || a.op1 = 0 then .finish (fail .illegalOpd) stack
        else
          match memory adr a.op1.toNat with
          | none => .finish (fail .memoryInvalid) rest
          | some buf => .goOn (derefValue buf :: rest)
  | .callFrameCfa =>
    match context.cfa with
    | none => .finish (fail .cfaInvalid) stack
    | some cfa =>
      match cfa pc with
      | none => .waiting
      | some (.error cause) => .undefined (.inCfa cause)
      | some (.ok addr) => .goOn (addr :: stack)
  | .unary kind =>
    match stack with
    | top :: rest => pushArith rest (unaryOp a.op1 top kind)
    | [] => .finish (fail .stackIndexInvalid) stack
  | .binary kind =>
    match stack with
    | e1 :: e2 :: rest => pushArith rest (binaryOp e2 e1 kind)
    | _ => .finish (fail .stackIndexInvalid) stack
  | .compare kind =>
    match stack with
    | e1 :: e2 :: rest => .goOn ((if compareOp e2 e1 kind then 1 else 0) :: rest)
    | _ => .undefined .emptyStack
  | .skip => .jump stack
  | .bra =>
    match stack with
    | _ :: rest => .jump rest
    | [] => .finish (fail .stackIndexInvalid) stack
  | .nop => .goOn stack
  | .stackValue =>
    match stack with
    | v :: _ => .finish (.value v) stack
    | [] => .finish (fail .stackIndexInvalid) stack
  | .missing _ => .finish (fail .notImplemented) stack

/-- The state of the loop: its index, `cur_off` and the stack. -/
structure EvalState where
  i : ℕ
  curOff : DwarfUnsigned
  stack : EvalStack
  deriving DecidableEq, Repr

/-- How an evaluation ends: with its result and the final stack, or undefined. -/
abbrev EvalOutcome := Except Undefined (EvalResult × EvalStack)

/-- The offset that `DW_OP_skip` and `DW_OP_bra` look up. -/
def DwarfOp.jumpOffset (a : DwarfOp) : DwarfUnsigned :=
  a.off + (a.op1.setWidth 16).signExtend 64

/-- The loop index after a jump, before `++i`. -/
def DwarfExpression.jumpIndex (expr : DwarfExpression) (a : DwarfOp) (i : ℕ) : ℕ :=
  (expr.findOpIndexByOffset a.jumpOffset).getD i

/-- What `evaluate` returns when the loop has run past the last operation. -/
def endOfLoop (s : EvalState) : EvalResult :=
  match s.stack with
  | [] => .error .stackIndexInvalid s.curOff
  | v :: _ => .address v

/-- How the loop goes on after the effect of the operation `a` at index `i`. -/
def OpEffect.advance (expr : DwarfExpression) (i : ℕ) (a : DwarfOp) :
    OpEffect → Step EvalState EvalOutcome
  | goOn stack => .next ⟨i + 1, a.off, stack⟩
  | jump stack => .next ⟨expr.jumpIndex a i + 1, a.off, stack⟩
  | finish result stack => .halt (.ok (result, stack))
  | undefined cause => .halt (.error cause)
  | waiting => .stall

/-- One iteration of the loop of `evaluate`, or its end. -/
def evalStep (context : Context) (pc : DwarfAddr) (expr : DwarfExpression)
    (frameBase : Bounded EvalResult) (s : EvalState) : Step EvalState EvalOutcome :=
  match expr.ops[s.i]? with
  | none => .halt (.ok (endOfLoop s, s.stack))
  | some a => (execOp context pc expr frameBase a s.stack).advance expr s.i a

/-- At an operation the loop takes over its effect. -/
theorem evalStep_of_getElem {context : Context} {pc : DwarfAddr} {expr : DwarfExpression}
    {frameBase : Bounded EvalResult} {s : EvalState} {a : DwarfOp} (ha : expr.ops[s.i]? = some a) :
    evalStep context pc expr frameBase s =
      (execOp context pc expr frameBase a s.stack).advance expr s.i a := by
  simp only [evalStep, ha]

/-- The loop starts at the first operation. -/
def EvalState.init (stack : EvalStack) : EvalState := ⟨0, 0, stack⟩

/-- `DwarfLocation::evalValue`, given how an expression of the list is evaluated. -/
def DwarfLocation.select (context : Context) (pc : DwarfAddr)
    (evaluate : DwarfExpression → Bounded EvalResult) : List LocationExpression →
    Bounded EvalResult
  | [] => some (.ok (.error .addressInvalid 0))
  | e :: rest =>
    if e.lowAddr = 0 && (e.highAddr = 0 || e.highAddr = maxDwarfUnsigned) then evaluate e.expr
    else if e.lowAddr + context.cuLowAddr ≤ pc && pc < e.highAddr + context.cuHighAddr then
      evaluate e.expr
    else DwarfLocation.select context pc evaluate rest

/-- `DwarfExpression::evaluate`, with fuel for its steps and for nested evaluations. The stack is
the one that `mystack` points to. Without one the source uses `local_stack` after the end of its
block, which is not modelled; all evaluations here are given a stack. -/
def evaluate : ℕ → Context → DwarfAddr → DwarfExpression → EvalStack → Option EvalOutcome
  | 0, _, _, _, _ => none
  | fuel + 1, context, pc, expr, stack =>
    if expr.ops.length < 1 then some (.ok (.error .illegalState 0, stack))
    else
      let frameBase := DwarfLocation.select context pc
        (fun e => (evaluate fuel context pc e []).map (·.map Prod.fst))
        ((context.frameBaseLoc.map DwarfLocation.exprs).getD [])
      StepMachine.runFor (evalStep context pc expr frameBase) fuel (.init stack)

/-- `DwarfLocation::evalValue`. It passes no stack to `evaluate`, which then points `mystack` at a
`local_stack` whose block ends before the loop begins. The lifetime of `local_stack` is left out
here: a missing stack is one that is empty at the start and lives as long as the evaluation. -/
def DwarfLocation.evalValue (fuel : ℕ) (context : Context) (pc : DwarfAddr)
    (location : DwarfLocation) : Bounded EvalResult :=
  select context pc (fun e => (evaluate fuel context pc e []).map (·.map Prod.fst))
    location.exprs

end DwarfExpr
