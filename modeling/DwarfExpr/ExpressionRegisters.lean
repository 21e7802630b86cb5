import DwarfExpr.ExpressionEffects

/-!
# The two encodings of register operations

A register below 32 can be named by the operation itself or by an operand of
`DW_OP_regx` and `DW_OP_bregx`. In the source the two encodings are separate code:
`DW_OP_regx` takes the operand of the first operation of the list, and `DW_OP_bregx`
adds the register number where it should add its second operand.
-/

namespace DwarfExpr

open StepMachine (Step Reaches)
open Fuel (Returns)

/-- The expression with another operation at an index. -/
def DwarfExpression.replace (expr : DwarfExpression) (i : ℕ) (b : DwarfOp) : DwarfExpression :=
  ⟨expr.ops.set i b⟩

/-- `DW_OP_regx` for a register, in the place of another operation. -/
def DwarfOp.asRegx (a : DwarfOp) (n : Fin 32) : DwarfOp :=
  { a with opcode := .regx, op1 := .ofNat 64 n }

/-- `DW_OP_bregx` for a register, in the place of another operation, whose operand becomes
the second one. -/
def DwarfOp.asBregx (a : DwarfOp) (n : Fin 32) : DwarfOp :=
  { a with opcode := .bregx, op1 := .ofNat 64 n, op2 := a.op1 }

/-- A register number below 32 is its own low part. -/
theorem ofNat_setWidth_toNat (n : Fin 32) :
    ((BitVec.ofNat 64 n.val).setWidth 16).toNat = n.val := by
  have hn := n.isLt
  simp only [BitVec.toNat_setWidth, BitVec.toNat_ofNat]
  omega

section Replace

variable {context : Context} {pc : DwarfAddr} {expr : DwarfExpression} {stack : EvalStack}
  {i : ℕ} {a b : DwarfOp}

/-- The other operations stay. -/
theorem DwarfExpression.replace_ops_of_ne {j : ℕ} (hne : j ≠ i) :
    (expr.replace i b).ops[j]? = expr.ops[j]? :=
  List.getElem?_set_ne hne.symm

/-- The operation at the index is the new one. -/
theorem DwarfExpression.replace_ops_self (ha : expr.ops[i]? = some a) :
    (expr.replace i b).ops[i]? = some b := by
  obtain ⟨hi, -⟩ := List.getElem?_eq_some_iff.mp ha
  exact List.getElem?_set_self hi

/-- An operation at the same offset does not change where jumps lead. -/
theorem DwarfExpression.replace_jumpIndex (ha : expr.ops[i]? = some a) (hoff : b.off = a.off)
    (c : DwarfOp) (j : ℕ) : (expr.replace i b).jumpIndex c j = expr.jumpIndex c j := by
  have hoffsets : (expr.ops.set i b).map DwarfOp.off = expr.ops.map DwarfOp.off := by
    obtain ⟨hi, hget⟩ := List.getElem?_eq_some_iff.mp ha
    rw [List.map_set, hoff, ← hget]
    apply List.ext_getElem? fun k => ?_
    by_cases hk : i = k
    · subst hk
      rw [List.getElem?_set_self (by simpa using hi), List.getElem?_map,
        List.getElem?_eq_getElem hi, Option.map_some]
    · rw [List.getElem?_set_ne hk]
  have hfind (ops : List DwarfOp) : ops.findIdx? (fun a => decide (a.off = c.jumpOffset)) =
      (ops.map DwarfOp.off).findIdx? fun off => decide (off = c.jumpOffset) := by
    rw [List.findIdx?_map]
    rfl
  unfold jumpIndex findOpIndexByOffset replace
  rw [hfind, hfind, hoffsets]

/-- Only `DW_OP_regx` depends on the list in which it stands. -/
theorem execOp_congr {expr' : DwarfExpression} {frameBase : Bounded EvalResult}
    (hregx : a.opcode = .regx → regxNumber expr a = regxNumber expr' a) :
    execOp context pc expr frameBase a stack = execOp context pc expr' frameBase a stack := by
  cases hop : a.opcode with
  | regx =>
    have hsame := hregx hop
    unfold regxNumber at hsame
    simp only [execOp, hop, hsame]
  | _ => simp only [execOp, hop]

/-- At any other index the loop makes the same step, if `DW_OP_regx` finds the same
number. -/
theorem evalStepAt_replace_of_ne (ha : expr.ops[i]? = some a) (hoff : b.off = a.off) {fuel : ℕ}
    {s : EvalState} (hne : s.i ≠ i)
    (hregx : ∀ c, expr.ops[s.i]? = some c → c.opcode = .regx →
      regxNumber (expr.replace i b) c = regxNumber expr c) :
    evalStepAt fuel context pc (expr.replace i b) s = evalStepAt fuel context pc expr s := by
  have hsame := @DwarfExpression.replace_ops_of_ne expr i b s.i hne
  unfold evalStepAt
  cases hc : expr.ops[s.i]? with
  | none =>
    rw [hc] at hsame
    simp only [evalStep, hsame, hc]
  | some c =>
    rw [hc] at hsame
    rw [evalStep_of_getElem hsame, evalStep_of_getElem hc, execOp_congr (hregx c hc)]
    cases execOp context pc expr (frameBaseAt fuel context pc) c s.stack <;>
      simp only [OpEffect.advance, DwarfExpression.replace_jumpIndex ha hoff]

/-- `DW_OP_regx` asks for the number in the operand of the first operation, if there is
one. -/
theorem regxNumber_eq {first : DwarfOp} (hfirst : expr.ops[0]? = some first) (c : DwarfOp) :
    regxNumber expr c = (first.op1.setWidth 16).toNat := by
  rw [regxNumber, List.head?_eq_getElem?, hfirst, Option.getD_some]

/-- Replacing an operation that is not the first leaves the number that `DW_OP_regx`
asks for. -/
theorem regxNumber_replace (hi : i ≠ 0) (c : DwarfOp) :
    regxNumber (expr.replace i b) c = regxNumber expr c := by
  rw [regxNumber, regxNumber, List.head?_eq_getElem?, List.head?_eq_getElem?,
    DwarfExpression.replace_ops_of_ne hi.symm]

/-- Replacing an operation in a list that is not empty leaves it so. -/
theorem DwarfExpression.replace_ops_ne_nil (ha : expr.ops[i]? = some a) :
    (expr.replace i b).ops ≠ [] := by
  intro hnil
  have hself := @replace_ops_self expr i a b ha
  rw [hnil] at hself
  cases hself

/-- The replaced expression is evaluated alike if it makes the same step in every state
that the run visits. -/
theorem evaluate_replace_eq (ha : expr.ops[i]? = some a)
    (hsteps : ∀ fuel s, Visits context pc expr stack s →
      evalStepAt fuel context pc expr s = evalStepAt fuel context pc (expr.replace i b) s)
    (fuel : ℕ) :
    evaluate fuel context pc (expr.replace i b) stack = evaluate fuel context pc expr stack := by
  have hops : expr.ops ≠ [] := by
    intro hnil
    rw [hnil] at ha
    cases ha
  cases fuel with
  | zero => rfl
  | succ fuel =>
    rw [evaluate_succ hops, evaluate_succ (DwarfExpression.replace_ops_ne_nil ha)]
    exact (StepMachine.runFor_congr
      (fun s hreach => hsteps fuel s ⟨hops, fuel, hreach⟩) fuel).symm

end Replace

/-- The effect of a register location whose number is given. -/
def registerLocation (context : Context) (n : ℕ) (a : DwarfOp) (stack : EvalStack) :
    EvalResult × EvalStack :=
  match context.register n with
  | some v => (.value v, v :: stack)
  | none => (.error .registerInvalid a.off, stack)

/-- Two registers give the same location exactly when they have the same value. -/
theorem registerLocation_eq_iff {context : Context} {m n : ℕ} {a : DwarfOp} {stack : EvalStack} :
    registerLocation context m a stack = registerLocation context n a stack ↔
      context.register m = context.register n := by
  unfold registerLocation
  cases context.register m <;> cases context.register n <;> simp

section Regx

variable {context : Context} {pc : DwarfAddr} {expr : DwarfExpression} {stack : EvalStack}
  {i : ℕ} {a : DwarfOp} {n : Fin 32} {s : EvalState}

/-- `DW_OP_reg<n>` ends the loop with its register. -/
theorem evalStepAt_reg (ha : expr.ops[s.i]? = some a) (hop : a.opcode = .reg n) (fuel : ℕ) :
    evalStepAt fuel context pc expr s = .halt (.ok (registerLocation context n a s.stack)) := by
  rw [evalStepAt, evalStep_of_getElem ha]
  unfold registerLocation
  cases hvalue : context.register n <;> simp only [execOp, hop, hvalue, OpEffect.advance]

/-- `DW_OP_regx` ends the loop with the register that the first operation names. -/
theorem evalStepAt_regx (ha : expr.ops[s.i]? = some a) (hop : a.opcode = .regx) (fuel : ℕ) :
    evalStepAt fuel context pc expr s =
      .halt (.ok (registerLocation context (regxNumber expr a) a s.stack)) := by
  rw [evalStepAt, evalStep_of_getElem ha]
  unfold registerLocation
  cases hvalue : context.register (regxNumber expr a) <;>
    simp only [regxNumber] at hvalue <;> simp only [execOp, hop, hvalue, OpEffect.advance]

/-- The replaced operation, where the run comes to it, asks for the operand of the first
operation of the list, which is its own if it stands there. -/
theorem evalStepAt_asRegx (hi : s.i = i) (ha : expr.ops[i]? = some a) (fuel : ℕ) :
    evalStepAt fuel context pc (expr.replace i (a.asRegx n)) s =
      .halt (.ok (registerLocation context
        (if i = 0 then n.val else regxNumber expr a) a s.stack)) := by
  have hself : (expr.replace i (a.asRegx n)).ops[s.i]? = some (a.asRegx n) := by
    rw [hi]
    exact DwarfExpression.replace_ops_self ha
  rw [evalStepAt_regx hself rfl]
  have hnumber : regxNumber (expr.replace i (a.asRegx n)) (a.asRegx n) =
      if i = 0 then n.val else regxNumber expr a := by
    by_cases hzero : i = 0
    · rw [hi, hzero] at hself
      rw [if_pos hzero, hzero, regxNumber_eq hself]
      exact ofNat_setWidth_toNat n
    · have hfirst : expr.ops[0]? = some _ :=
        List.getElem?_eq_getElem (Nat.zero_lt_of_lt (List.getElem?_eq_some_iff.mp ha).1)
      rw [if_neg hzero, regxNumber_replace hzero, regxNumber_eq hfirst, regxNumber_eq hfirst]
  rw [hnumber]
  rfl

/-- The run does not go on from a register operation. -/
theorem not_next_of_reg (ha : expr.ops[s.i]? = some a) (hop : a.opcode = .reg n) {fuel : ℕ}
    {t : EvalState} : evalStepAt fuel context pc expr s ≠ .next t := by
  rw [evalStepAt_reg ha hop]
  exact fun h => nomatch h

/-- A register operation that is not the first in its list may be replaced by
`DW_OP_regx` exactly when the run never comes to it or the register that the first
operation names has the same value. -/
theorem evaluate_asRegx_iff (ha : expr.ops[i]? = some a) (hop : a.opcode = .reg n) :
    (∀ fuel, evaluate fuel context pc (expr.replace i (a.asRegx n)) stack =
        evaluate fuel context pc expr stack) ↔
      ∀ s, Visits context pc expr stack s → s.i = i → 0 < i →
        context.register (regxNumber expr a) = context.register n := by
  have hother (fuel : ℕ) (s : EvalState) (hne : s.i ≠ i) (hi : i ≠ 0) :=
    @evalStepAt_replace_of_ne context pc expr i a (a.asRegx n) ha rfl fuel s hne
      fun c _ _ => regxNumber_replace hi c
  constructor
  · rintro hsame s ⟨hops, fuel, hreach⟩ hsi hpos
    have hreach' : Reaches (evalStepAt fuel context pc (expr.replace i (a.asRegx n)))
        (.init stack) s := by
      refine StepMachine.Reaches.congr hreach fun t u _ hstep => ?_
      by_cases hti : t.i = i
      · exact absurd hstep (not_next_of_reg (by rw [hti]; exact ha) hop)
      · rw [hother fuel t hti (by omega), hstep]
    have hvisits : Visits context pc (expr.replace i (a.asRegx n)) stack s :=
      ⟨DwarfExpression.replace_ops_ne_nil ha, fuel, hreach'⟩
    have hregx := hvisits.returns (evalStepAt_asRegx hsi ha fuel)
    have hreg := (show Visits context pc expr stack s from ⟨hops, fuel, hreach⟩).returns
      (evalStepAt_reg (by rw [hsi]; exact ha) hop fuel)
    simp only [hsame] at hregx
    have hlocation := (evaluate_settles context pc expr stack).unique hregx hreg
    rw [if_neg (by omega)] at hlocation
    exact registerLocation_eq_iff.mp (Except.ok.inj hlocation)
  · intro hregister fuel
    refine evaluate_replace_eq ha (fun fuel s hvisits => ?_) fuel
    by_cases hsi : s.i = i
    · rw [evalStepAt_asRegx hsi ha, evalStepAt_reg (by rw [hsi]; exact ha) hop]
      by_cases hi : i = 0
      · rw [if_pos hi]
      · rw [if_neg hi, registerLocation_eq_iff.mpr (hregister s hvisits hsi (by omega))]
    · by_cases hi : i = 0
      · -- The run ends at its first operation.
        exfalso
        obtain ⟨_, fuel', hreach⟩ := hvisits
        rcases Relation.ReflTransGen.cases_head hreach with rfl | ⟨t, hstep, -⟩
        · exact hsi hi.symm
        · exact not_next_of_reg (by rw [hi] at ha; exact ha) hop hstep
      · exact (hother fuel s hsi hi).symm

end Regx

/-- The encodings of register locations agree in an evaluation: each `DW_OP_reg<n>` may be
replaced by `DW_OP_regx`, and each `DW_OP_regx` that is reached asks for the register in
its own operand. -/
structure RegisterEncodingsAgree (context : Context) (pc : DwarfAddr) (expr : DwarfExpression)
    (stack : EvalStack) : Prop where
  replaceable : ∀ (i : ℕ) (a : DwarfOp) (n : Fin 32), expr.ops[i]? = some a →
    a.opcode = .reg n → ∀ fuel, evaluate fuel context pc (expr.replace i (a.asRegx n)) stack =
      evaluate fuel context pc expr stack
  ownOperand : ∀ (s : EvalState) (a : DwarfOp), Visits context pc expr stack s →
    expr.ops[s.i]? = some a → a.opcode = .regx → a.op1.toNat < 2 ^ 16 →
    a.registerNumber expr = some a.op1.toNat

/-- The encodings of register locations agree exactly when each `DW_OP_reg<n>` reached
behind the first operation has the value of the register that the first operation's
operand names, and each `DW_OP_regx` reached has that operand. -/
theorem registerEncodingsAgree_iff (context : Context) (pc : DwarfAddr) (expr : DwarfExpression)
    (stack : EvalStack) :
    RegisterEncodingsAgree context pc expr stack ↔
      ∀ (s : EvalState) (a : DwarfOp), Visits context pc expr stack s → expr.ops[s.i]? = some a →
        (∀ n, a.opcode = .reg n → 0 < s.i →
          context.register (regxNumber expr a) = context.register n) ∧
        (a.opcode = .regx → a.op1.toNat < 2 ^ 16 → regxNumber expr a = a.op1.toNat) := by
  constructor
  · intro hagree s a hvisits ha
    refine ⟨fun n hop hpos => ?_, fun hop hsmall => ?_⟩
    · exact (evaluate_asRegx_iff ha hop).mp (hagree.replaceable s.i a n ha hop) s hvisits rfl hpos
    · have hasks := hagree.ownOperand s a hvisits ha hop hsmall
      simpa only [DwarfOp.registerNumber, hop, Option.some.injEq] using hasks
  · intro hcond
    constructor
    · intro i a n ha hop
      rw [evaluate_asRegx_iff ha hop]
      rintro s hvisits rfl hpos
      exact (hcond s a hvisits ha).1 n hop hpos
    · intro s a hvisits ha hop hsmall
      simp only [DwarfOp.registerNumber, hop, (hcond s a hvisits ha).2 hop hsmall]

/-- `DW_OP_nop` and then register 5. -/
def registerBehindNop : DwarfExpression :=
  ⟨[{ opcode := .nop, off := 0 }, { opcode := .reg 5, off := 1 }]⟩

/-- As `DW_OP_regx` behind `DW_OP_nop`, register 5 becomes register 0. -/
theorem registerBehindNop_not_replaceable :
    ¬RegisterEncodingsAgree registersContext 0 registerBehindNop [] := by
  intro hagree
  have hsame := hagree.replaceable 1 { opcode := .reg 5, off := 1 } 5 rfl rfl 3
  exact absurd hsame (by decide)

section Bregx

variable {context : Context} {pc : DwarfAddr} {expr : DwarfExpression} {stack : EvalStack}
  {i : ℕ} {a : DwarfOp} {n : Fin 32} {s : EvalState} {v : BitVec 64}

/-- `DW_OP_breg<n>` pushes the register plus the operand. -/
theorem execOp_breg (hop : a.opcode = .breg n) (frameBase : Bounded EvalResult) :
    execOp context pc expr frameBase a stack = pushOrFail stack (.error .registerInvalid a.off)
      ((context.register n).map (· + a.op1)) := by
  simp only [execOp, hop]

/-- `DW_OP_bregx` for a register pushes the register plus its number. -/
theorem execOp_asBregx (frameBase : Bounded EvalResult) :
    execOp context pc expr frameBase (a.asBregx n) stack =
      pushOrFail stack (.error .registerInvalid a.off)
        ((context.register n).map (· + BitVec.ofNat 64 n)) := by
  simp only [execOp, DwarfOp.asBregx, ofNat_setWidth_toNat]

/-- The two operations have the same effect if the register has no value or the operand is
the number of the register. -/
theorem execOp_asBregx_eq (hop : a.opcode = .breg n)
    (hcond : context.register n = none ∨ a.op1 = BitVec.ofNat 64 n)
    (expr' : DwarfExpression) (frameBase : Bounded EvalResult) :
    execOp context pc expr' frameBase (a.asBregx n) stack =
      execOp context pc expr frameBase a stack := by
  rw [execOp_asBregx, execOp_breg hop]
  rcases hcond with hnone | hoperand
  · rw [hnone]
    rfl
  · rw [hoperand]

/-- The replaced operation makes the same step, under the same condition. -/
theorem evalStepAt_asBregx (hi : s.i = i) (ha : expr.ops[i]? = some a) (hop : a.opcode = .breg n)
    (hcond : context.register n = none ∨ a.op1 = BitVec.ofNat 64 n) (fuel : ℕ) :
    evalStepAt fuel context pc (expr.replace i (a.asBregx n)) s =
      evalStepAt fuel context pc expr s := by
  have hself : (expr.replace i (a.asBregx n)).ops[s.i]? = some (a.asBregx n) := by
    rw [hi]
    exact DwarfExpression.replace_ops_self ha
  rw [← hi] at ha
  rw [evalStepAt, evalStepAt, evalStep_of_getElem hself, evalStep_of_getElem ha,
    execOp_asBregx_eq hop hcond (expr.replace i (a.asBregx n)), execOp_breg hop]
  cases (context.register n).map (· + a.op1) <;> rfl

/-- A run whose first operation asks for an unknown register ends there. -/
theorem Visits.eq_init_of_register_none (ha : expr.ops[0]? = some a) (hop : a.opcode = .breg n)
    (hnone : context.register n = none) (hvisits : Visits context pc expr stack s) :
    s = .init stack := by
  obtain ⟨_, fuel, hreach⟩ := hvisits
  rcases Relation.ReflTransGen.cases_head hreach with hinit | ⟨t, hstep, -⟩
  · exact hinit.symm
  · have hfinish : evalStepAt fuel context pc expr (.init stack) =
        .halt (.ok (.error .registerInvalid a.off, stack)) := by
      rw [evalStepAt, evalStep_of_getElem ha, execOp_breg hop, hnone]
      rfl
    rw [hfinish] at hstep
    cases hstep

/-- `DW_OP_breg<n>` may be replaced by `DW_OP_bregx` if, where the run comes to it, the
register has no value or the operand is the number of the register. -/
theorem evaluate_asBregx (ha : expr.ops[i]? = some a) (hop : a.opcode = .breg n)
    (hcond : ∀ s, Visits context pc expr stack s → s.i = i →
      context.register n = none ∨ a.op1 = BitVec.ofNat 64 n) (fuel : ℕ) :
    evaluate fuel context pc (expr.replace i (a.asBregx n)) stack =
      evaluate fuel context pc expr stack := by
  refine evaluate_replace_eq ha (fun fuel s hvisits => ?_) fuel
  symm
  by_cases hsi : s.i = i
  · exact evalStepAt_asBregx hsi ha hop (hcond s hvisits hsi) fuel
  · refine evalStepAt_replace_of_ne ha (show (a.asBregx n).off = a.off from rfl) hsi ?_
    intro c _ _
    by_cases hi : i = 0
    · -- A later `DW_OP_regx` reads the operand of the replaced operation.
      subst hi
      rcases hcond (.init stack) (.init hvisits.1 stack) rfl with hnone | hoperand
      · have hinit := Visits.eq_init_of_register_none ha hop hnone hvisits
        rw [hinit] at hsi
        exact absurd rfl hsi
      · rw [regxNumber_eq (DwarfExpression.replace_ops_self ha), regxNumber_eq ha,
          DwarfOp.asBregx, hoperand]
    · exact regxNumber_replace hi c

end Bregx

/-- The encodings of register-relative addresses agree in an evaluation: each
`DW_OP_breg<n>` may be replaced by `DW_OP_bregx`, and where the run comes to it both push
the register plus the operand. -/
structure RelativeEncodingsAgree (context : Context) (pc : DwarfAddr) (expr : DwarfExpression)
    (stack : EvalStack) : Prop where
  replaceable : ∀ (i : ℕ) (a : DwarfOp) (n : Fin 32), expr.ops[i]? = some a →
    a.opcode = .breg n → ∀ fuel, evaluate fuel context pc (expr.replace i (a.asBregx n)) stack =
      evaluate fuel context pc expr stack
  pushes : ∀ (s : EvalState) (a : DwarfOp) (n : Fin 32) (v : BitVec 64),
    Visits context pc expr stack s → expr.ops[s.i]? = some a → a.opcode = .breg n →
    context.register n = some v → ∀ frameBase,
      execOp context pc expr frameBase a s.stack = .goOn ((v + a.op1) :: s.stack) ∧
      execOp context pc (expr.replace s.i (a.asBregx n)) frameBase (a.asBregx n) s.stack =
        .goOn ((v + a.op1) :: s.stack)

/-- The encodings of register-relative addresses agree exactly when each `DW_OP_breg<n>`
that is reached has an unknown register or the register's own number as its operand. -/
theorem relativeEncodingsAgree_iff (context : Context) (pc : DwarfAddr) (expr : DwarfExpression)
    (stack : EvalStack) :
    RelativeEncodingsAgree context pc expr stack ↔
      ∀ (s : EvalState) (a : DwarfOp) (n : Fin 32), Visits context pc expr stack s →
        expr.ops[s.i]? = some a → a.opcode = .breg n →
        context.register n = none ∨ a.op1 = BitVec.ofNat 64 n := by
  constructor
  · intro hagree s a n hvisits ha hop
    cases hvalue : context.register n with
    | none => exact Or.inl rfl
    | some v =>
      right
      have hpush := (hagree.pushes s a n v hvisits ha hop hvalue none).2
      rw [execOp_asBregx, hvalue, Option.map_some, pushOrFail, OpEffect.goOn.injEq,
        List.cons.injEq] at hpush
      exact (BitVec.add_right_inj v).mp hpush.1.symm
  · intro hcond
    constructor
    · intro i a n ha hop
      apply evaluate_asBregx ha hop
      rintro s hvisits rfl
      exact hcond s a n hvisits ha hop
    · intro s a n v hvisits ha hop hvalue frameBase
      have hpush : execOp context pc expr frameBase a s.stack = .goOn ((v + a.op1) :: s.stack) := by
        rw [execOp_breg hop, hvalue]
        rfl
      refine ⟨hpush, ?_⟩
      rw [execOp_asBregx_eq hop (hcond s a n hvisits ha hop), hpush]

/-- Register 3 plus 16. -/
def registerPlus16 : DwarfExpression := ⟨[{ opcode := .breg 3, op1 := 16, off := 0 }]⟩

/-- As `DW_OP_bregx`, register 3 plus 16 becomes register 3 plus 3. -/
theorem registerPlus16_not_replaceable :
    ¬RelativeEncodingsAgree registersContext 0 registerPlus16 [] := by
  intro hagree
  have hsame := hagree.replaceable 0 { opcode := .breg 3, op1 := 16, off := 0 } 3 rfl rfl 3
  exact absurd hsame (by decide)

end DwarfExpr
