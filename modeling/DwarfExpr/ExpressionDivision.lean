import DwarfExpr.NestedEvaluations

/-!
# Division in the expression machine

`DW_OP_div` and `DW_OP_mod` divide whatever is on the stack. A divisor of zero, and a
division of the least value by -1, trap: the source checks neither. On all other
operands the quotient is truncated towards zero. An evaluation also traps in the frame base and
in the CFA provider.
-/

namespace DwarfExpr

open Fuel (Returns)

/-- The operation divides the operands on the stack, and that traps. -/
def DwarfOp.DividesTrapping (a : DwarfOp) (stack : EvalStack) : Prop :=
  (a.opcode = .binary .div ∨ a.opcode = .binary .mod) ∧
    ∃ e1 e2 rest, stack = e1 :: e2 :: rest ∧ divisionTraps e2 e1 = true

/-- The evaluation never divides operands on which that traps, also while it computes the frame
base and the CFA, but reports an error at the operation; on other operands `DW_OP_div` pushes the
truncated quotient. The same goes for the evaluations of the frame base that it makes. -/
structure DivisionSafe (context : Context) (pc : DwarfAddr) (expr : DwarfExpression)
    (stack : EvalStack) : Prop where
  neverTraps : ∀ cause, Returns (fun fuel => evaluate fuel context pc expr stack)
    (.error cause) → cause.root ≠ .division
  refused : ∀ inner innerStack, MadeBy context pc inner innerStack expr stack →
    ∀ s a, Visits context pc inner innerStack s → inner.ops[s.i]? = some a →
      a.DividesTrapping s.stack → ∃ code stack',
        Returns (fun fuel => evaluate fuel context pc inner innerStack)
          (.ok (.error code a.off, stack'))
  quotient : ∀ inner innerStack, MadeBy context pc inner innerStack expr stack →
    ∀ s a e1 e2 rest, Visits context pc inner innerStack s → inner.ops[s.i]? = some a →
      a.opcode = .binary .div → s.stack = e1 :: e2 :: rest → ¬a.DividesTrapping s.stack →
        ∃ v : DwarfSigned, v.toInt = e2.toInt.tdiv e1.toInt ∧
          ∀ fuel, evalStepAt fuel context pc inner s = .next ⟨s.i + 1, a.off, v :: rest⟩

/-- The operation divides operands on which that traps, or it asks a CFA provider that does. -/
def TrapsAt (context : Context) (pc : DwarfAddr) (_ : DwarfExpression) (a : DwarfOp)
    (stack : EvalStack) : Prop :=
  a.DividesTrapping stack ∨ (a.opcode = .callFrameCfa ∧ CfaRunsInto context pc .division)

section

variable {context : Context} {pc : DwarfAddr} {expr : DwarfExpression}
  {frameBase : Bounded EvalResult} {a : DwarfOp} {stack : EvalStack}

/-- Trapping operands are divided. -/
theorem DwarfOp.DividesTrapping.execOp_eq (htraps : a.DividesTrapping stack) :
    execOp context pc expr frameBase a stack = .undefined .division := by
  obtain ⟨hop | hop, e1, e2, rest, rfl, htrap⟩ := htraps <;>
    simp only [execOp, hop, binaryOp, if_pos htrap, pushArith]

/-- No operation on one entry traps. -/
theorem unaryOp_ne_division (op1 : DwarfUnsigned) (top : DwarfSigned) (kind : UnaryKind) :
    unaryOp op1 top kind ≠ .undefined .division := by
  cases kind <;> simp only [unaryOp, Arith.signed] <;> (try split) <;> simp

/-- Of the operations on two entries only the divisions trap. -/
theorem binaryOp_division_cases {e2 e1 : DwarfSigned} {kind : BinaryKind}
    (h : binaryOp e2 e1 kind = .undefined .division) :
    (kind = .div ∨ kind = .mod) ∧ divisionTraps e2 e1 = true := by
  cases kind with
  | div =>
    by_cases htrap : divisionTraps e2 e1 = true
    · exact ⟨Or.inl rfl, htrap⟩
    · simp [binaryOp, htrap] at h
  | mod =>
    by_cases htrap : divisionTraps e2 e1 = true
    · exact ⟨Or.inr rfl, htrap⟩
    · simp [binaryOp, htrap] at h
  | _ =>
    exfalso
    simp only [binaryOp, Arith.signed] at h
    repeat' split at h
    all_goals cases h

/-- An operation traps only by dividing trapping operands. -/
theorem execOp_undefined_division
    (h : execOp context pc expr frameBase a stack = .undefined .division) :
    a.DividesTrapping stack := by
  cases hop : a.opcode with
  | unary kind =>
    exfalso
    rcases stack with _ | ⟨top, rest⟩
    · simp only [execOp, hop] at h
      cases h
    · simp only [execOp, hop] at h
      cases harith : unaryOp a.op1 top kind with
      | undefined cause =>
        rw [harith] at h
        cases h
        exact unaryOp_ne_division _ _ _ harith
      | exact v | wrapped v =>
        rw [harith] at h
        cases h
  | binary kind =>
    rcases stack with _ | ⟨e1, _ | ⟨e2, rest⟩⟩
    · simp only [execOp, hop] at h
      cases h
    · simp only [execOp, hop] at h
      cases h
    · simp only [execOp, hop] at h
      cases harith : binaryOp e2 e1 kind with
      | undefined cause =>
        rw [harith] at h
        cases h
        obtain ⟨hkind | hkind, htrap⟩ := binaryOp_division_cases harith
        · exact ⟨Or.inl (by rw [hop, hkind]), e1, e2, rest, rfl, htrap⟩
        · exact ⟨Or.inr (by rw [hop, hkind]), e1, e2, rest, rfl, htrap⟩
      | exact v | wrapped v =>
        rw [harith] at h
        cases h
  | _ =>
    exfalso
    simp only [execOp, hop, pushOrFail] at h
    repeat' split at h
    all_goals cases h

/-- On other operands `DW_OP_div` pushes the quotient truncated towards zero. -/
theorem execOp_div {e1 e2 : DwarfSigned} {rest : EvalStack} (hop : a.opcode = .binary .div)
    (hsafe : ¬a.DividesTrapping (e1 :: e2 :: rest)) :
    ∃ v : DwarfSigned, v.toInt = e2.toInt.tdiv e1.toInt ∧
      execOp context pc expr frameBase a (e1 :: e2 :: rest) = .goOn (v :: rest) := by
  have htrap : divisionTraps e2 e1 ≠ true :=
    fun htrap => hsafe ⟨Or.inl hop, e1, e2, rest, rfl, htrap⟩
  refine ⟨e2.sdiv e1, ?_, ?_⟩
  · apply BitVec.toInt_sdiv_of_ne_or_ne
    by_contra! hboth
    obtain ⟨hdividend, hdivisor⟩ := hboth
    exact htrap (by rw [hdividend, hdivisor]; decide)
  · simp only [execOp, hop, binaryOp, if_neg htrap, pushArith]

end

/-- An evaluation traps exactly if it meets a division of trapping operands, in its loop, in one
that evaluates the frame base for it or in the CFA provider. -/
theorem evaluate_traps_iff {context : Context} {pc : DwarfAddr} {expr : DwarfExpression}
    {stack : EvalStack} :
    (∃ cause, cause.root = .division ∧
        Returns (fun fuel => evaluate fuel context pc expr stack) (.error cause)) ↔
      Meets context pc (TrapsAt context pc) expr stack := by
  refine (@exists_returns_error_iff context pc expr stack .division).trans ?_
  constructor
  · intro hmeets
    refine hmeets.mono fun inner a stack hruns => ?_
    rcases hruns with ⟨fuel, hundefined⟩ | hcfa
    · exact Or.inl (execOp_undefined_division hundefined)
    · exact Or.inr hcfa
  · intro hmeets
    refine hmeets.mono fun inner a stack htraps => ?_
    rcases htraps with hdivides | hcfa
    · exact Or.inl ⟨0, hdivides.execOp_eq⟩
    · exact Or.inr hcfa

/-- An evaluation is safe from trapping divisions exactly if it meets none. -/
theorem evaluate_division_iff (context : Context) (pc : DwarfAddr) (expr : DwarfExpression)
    (stack : EvalStack) :
    DivisionSafe context pc expr stack ↔ ¬Meets context pc (TrapsAt context pc) expr stack := by
  constructor
  · intro hsafe hmeets
    obtain ⟨cause, hroot, hreturns⟩ := evaluate_traps_iff.mpr hmeets
    exact hsafe.neverTraps cause hreturns hroot
  · intro hnone
    refine ⟨?_, ?_, ?_⟩
    · intro cause hreturns hroot
      exact hnone (evaluate_traps_iff.mp ⟨cause, hroot, hreturns⟩)
    · intro inner innerStack hmade s a hvisits ha htraps
      exact absurd (hmade.meets hvisits ha (Or.inl htraps)) hnone
    · intro inner innerStack _ s a e1 e2 rest hvisits ha hop hstack hsafe
      rw [hstack] at hsafe
      have hstep (fuel : ℕ) := @execOp_div context pc inner (frameBaseAt fuel context pc) a e1 e2
        rest hop hsafe
      obtain ⟨v, hv, -⟩ := hstep 0
      refine ⟨v, hv, fun fuel => ?_⟩
      obtain ⟨w, hw, hexec⟩ := hstep fuel
      have hvw : v = w := BitVec.toInt_inj.mp (by rw [hv, hw])
      rw [evalStepAt, evalStep_of_getElem ha, hstack, hexec, hvw]
      rfl

/-- A division of one by zero. -/
def divideByZero : DwarfExpression :=
  ⟨[⟨.lit 1, 0, 0, 0, 0⟩, ⟨.lit 0, 0, 0, 0, 1⟩, ⟨.binary .div, 0, 0, 0, 2⟩]⟩

/-- The division by zero is carried out. -/
theorem evaluate_divideByZero : ¬DivisionSafe emptyContext 0 divideByZero [] := by
  intro hsafe
  exact hsafe.neverTraps .division ⟨4, by decide⟩ rfl

end DwarfExpr
