import DwarfExpr.ExpressionStack
import DwarfExpr.Lib.SignedWord

/-!
# Arithmetic and shifts of the expression machine

DWARF calculates with unsigned numbers modulo `2 ^ 64`. The source calculates with signed
ones, so its sums, differences and products are right as long as they do not overflow,
its remainder on some operands only, and its shifts for counts below 64, with
`DW_OP_shr` an arithmetic shift.
-/

namespace DwarfExpr

open SignedWord (RemainderAgrees ofInt_toNat)

/-- The arithmetic that an operation does on a stack, if it has its operands. -/
def DwarfOp.arith (a : DwarfOp) (stack : EvalStack) : Option Arith :=
  match a.opcode, stack with
  | .unary kind, top :: _ => some (unaryOp a.op1 top kind)
  | .binary kind, e1 :: e2 :: _ => some (binaryOp e2 e1 kind)
  | _, _ => none

/-- The arithmetic decides the effect of the operation, which takes its operands. -/
theorem execOp_of_arith {context : Context} {pc : DwarfAddr} {expr : DwarfExpression}
    {frameBase : Bounded EvalResult} {a : DwarfOp} {stack : EvalStack} {r : Arith}
    (harith : a.arith stack = some r) :
    execOp context pc expr frameBase a stack = pushArith (stack.drop (a.needs context)) r := by
  unfold DwarfOp.arith at harith
  cases hop : a.opcode with
  | unary kind =>
    rcases stack with _ | ⟨top, rest⟩
    · simp [hop] at harith
    · simp only [hop, Option.some.injEq] at harith
      simp only [execOp, hop, harith, DwarfOp.needs, List.drop_succ_cons, List.drop_zero]
  | binary kind =>
    rcases stack with _ | ⟨e1, _ | ⟨e2, rest⟩⟩
    · simp [hop] at harith
    · simp [hop] at harith
    · simp only [hop, Option.some.injEq] at harith
      simp only [execOp, hop, harith, DwarfOp.needs, List.drop_succ_cons, List.drop_zero]
  | _ => simp [hop] at harith

/-- A signed operation gives a result modulo `2 ^ 64` without overflow exactly if its own
result lies in the signed range. -/
theorem Arith.signed_eq_exact_iff {x y : ℤ} (hsame : BitVec.ofInt 64 y = .ofInt 64 x) :
    Arith.signed y = .exact (.ofInt 64 x) ↔ -2 ^ 63 ≤ y ∧ y < 2 ^ 63 := by
  unfold Arith.signed
  rw [hsame]
  by_cases hrange : -2 ^ 63 ≤ y ∧ y < 2 ^ 63
  · rw [if_pos hrange]
    exact ⟨fun _ => hrange, fun _ => rfl⟩
  · rw [if_neg hrange]
    exact iff_of_false (by simp) hrange

/-- The exact result that DWARF reduces modulo `2 ^ 64`, for the operations that are
arithmetic on addresses. There is none for a remainder by zero. -/
def unsignedResult (op1 : DwarfUnsigned) : Opcode → EvalStack → Option ℤ
  | .unary .abs, top :: _ => some |top.toInt|
  | .unary .neg, top :: _ => some (-(top.toNat : ℤ))
  | .unary .plusUconst, top :: _ => some (top.toNat + op1.toNat)
  | .binary .plus, e1 :: e2 :: _ => some (e2.toNat + e1.toNat)
  | .binary .minus, e1 :: e2 :: _ => some (e2.toNat - e1.toNat)
  | .binary .mul, e1 :: e2 :: _ => some (e2.toNat * e1.toNat)
  | .binary .mod, e1 :: e2 :: _ => if e1 = 0 then none else some (e2.toNat % e1.toNat : ℕ)
  | _, _ => none

/-- The signed operation of the source has the unsigned result: its exact result lies in the
signed range, and of a remainder the signs of the operands allow it. -/
def SignedSuffices : Opcode → EvalStack → Prop
  | .unary .abs, top :: _ => |top.toInt| < 2 ^ 63
  | .unary .neg, top :: _ => -top.toInt < 2 ^ 63
  | .binary .plus, e1 :: e2 :: _ =>
    -2 ^ 63 ≤ e2.toInt + e1.toInt ∧ e2.toInt + e1.toInt < 2 ^ 63
  | .binary .minus, e1 :: e2 :: _ =>
    -2 ^ 63 ≤ e2.toInt - e1.toInt ∧ e2.toInt - e1.toInt < 2 ^ 63
  | .binary .mul, e1 :: e2 :: _ =>
    -2 ^ 63 ≤ e2.toInt * e1.toInt ∧ e2.toInt * e1.toInt < 2 ^ 63
  | .binary .mod, e1 :: e2 :: _ =>
    (0 ≤ e2.toInt ∧ (0 < e1.toInt ∨ e2.toInt < -e1.toInt)) ∨
      (e2.toInt < 0 ∧ ((0 < e1.toInt ∧ e1.toInt ∣ e2.toInt ∧ e1.toInt ∣ 2 ^ 64) ∨
        e2.toInt = e1.toInt))
  | _, _ => True

/-- The operation replaces its operands by `x` modulo `2 ^ 64`, and no signed operation on
the way has a result outside the signed range. -/
structure PushesModulo (context : Context) (pc : DwarfAddr) (expr : DwarfExpression)
    (frameBase : Bounded EvalResult) (a : DwarfOp) (stack : EvalStack) (x : ℤ) : Prop where
  pushed : execOp context pc expr frameBase a stack =
    .goOn (.ofInt 64 x :: stack.drop (a.needs context))
  inRange : ∃ v, a.arith stack = some (.exact v)

/-- It does so exactly if the arithmetic of the operation is exact with that result. -/
theorem pushesModulo_iff {context : Context} {pc : DwarfAddr} {expr : DwarfExpression}
    {frameBase : Bounded EvalResult} {a : DwarfOp} {stack : EvalStack} {r : Arith} {x : ℤ}
    (harith : a.arith stack = some r) :
    PushesModulo context pc expr frameBase a stack x ↔ r = .exact (.ofInt 64 x) := by
  have hexec := @execOp_of_arith context pc expr frameBase a stack r harith
  constructor
  · rintro ⟨hpushed, v, hv⟩
    obtain rfl : r = .exact v := Option.some.inj (harith.symm.trans hv)
    rw [hexec, pushArith, OpEffect.goOn.injEq, List.cons.injEq] at hpushed
    rw [hpushed.1]
  · rintro rfl
    exact ⟨hexec, _, harith⟩

/-- The least signed value is the only one whose magnitude does not fit. -/
theorem unaryOp_exact_iff {op1 : DwarfUnsigned} {top : DwarfSigned} {kind : UnaryKind} {x : ℤ}
    {rest : EvalStack} (hlaw : unsignedResult op1 (.unary kind) (top :: rest) = some x) :
    unaryOp op1 top kind = .exact (.ofInt 64 x) ↔
      SignedSuffices (.unary kind) (top :: rest) := by
  have hlow := BitVec.le_toInt top
  have hhigh := BitVec.toInt_lt (x := top)
  cases kind with
  | abs =>
    cases hlaw
    have hnonneg := abs_nonneg top.toInt
    simp only [unaryOp, Arith.signed_eq_exact_iff, SignedSuffices]
    omega
  | neg =>
    have hsame : BitVec.ofInt 64 (-top.toInt) = .ofInt 64 (-(top.toNat : ℤ)) := by
      rw [BitVec.ofInt_neg, BitVec.ofInt_neg, BitVec.ofInt_toInt, ofInt_toNat]
    cases hlaw
    simp only [unaryOp, Arith.signed_eq_exact_iff hsame, SignedSuffices]
    omega
  | not => cases hlaw
  | plusUconst =>
    cases hlaw
    simp only [unaryOp, BitVec.ofInt_add, ofInt_toNat, SignedSuffices]

/-- The signed remainder is the unsigned one exactly if their readings agree. -/
theorem srem_eq_iff (e2 e1 : DwarfSigned) :
    e2.srem e1 = .ofInt 64 (e2.toNat % e1.toNat : ℕ) ↔
      RemainderAgrees (2 ^ 63) e2.toInt e1.toInt := by
  have hlt : e2.toNat % e1.toNat < 2 ^ 64 := Nat.lt_of_le_of_lt (Nat.mod_le _ _) e2.isLt
  rw [BitVec.ofInt_natCast, ← BitVec.toNat_inj, BitVec.toNat_ofNat, Nat.mod_eq_of_lt hlt,
    ← Int.natCast_inj, SignedWord.toNat_eq_toInt_emod, BitVec.toInt_srem, Int.natCast_emod,
    SignedWord.toNat_eq_toInt_emod, SignedWord.toNat_eq_toInt_emod]
  rfl

/-- A remainder that does not trap is computed by the target's signed remainder. -/
theorem mod_exact_iff {e1 e2 : DwarfSigned} (hne : e1 ≠ 0) :
    binaryOp e2 e1 .mod = .exact (.ofInt 64 (e2.toNat % e1.toNat : ℕ)) ↔
      RemainderAgrees (2 ^ 63) e2.toInt e1.toInt := by
  by_cases htrap : divisionTraps e2 e1 = true
  · have hboth : e2 = BitVec.intMin 64 ∧ e1 = BitVec.allOnes 64 := by
      rcases (Bool.or_eq_true _ _).mp htrap with hzero | hboth
      · exact absurd (of_decide_eq_true hzero) hne
      · simpa only [Bool.and_eq_true, decide_eq_true_eq] using hboth
    obtain ⟨rfl, rfl⟩ := hboth
    refine iff_of_false (by decide) ?_
    unfold RemainderAgrees
    decide
  · rw [binaryOp, if_neg htrap, Arith.exact.injEq, srem_eq_iff]

/-- The sums, differences and products of the source are right without overflow, its
remainders where the signs of the operands allow it. -/
theorem binaryOp_exact_iff {op1 : DwarfUnsigned} {e1 e2 : DwarfSigned} {kind : BinaryKind}
    {x : ℤ} {rest : EvalStack}
    (hlaw : unsignedResult op1 (.binary kind) (e1 :: e2 :: rest) = some x) :
    binaryOp e2 e1 kind = .exact (.ofInt 64 x) ↔
      SignedSuffices (.binary kind) (e1 :: e2 :: rest) := by
  cases kind with
  | plus =>
    have hsame : BitVec.ofInt 64 (e2.toInt + e1.toInt) = .ofInt 64 (e2.toNat + e1.toNat) := by
      simp only [BitVec.ofInt_add, BitVec.ofInt_toInt, ofInt_toNat]
    cases hlaw
    simp only [binaryOp, Arith.signed_eq_exact_iff hsame, SignedSuffices]
  | minus =>
    have hsame : BitVec.ofInt 64 (e2.toInt - e1.toInt) = .ofInt 64 (e2.toNat - e1.toNat) := by
      simp only [Int.sub_eq_add_neg, BitVec.ofInt_add, BitVec.ofInt_neg, BitVec.ofInt_toInt,
        ofInt_toNat]
    cases hlaw
    simp only [binaryOp, Arith.signed_eq_exact_iff hsame, SignedSuffices]
  | mul =>
    have hsame : BitVec.ofInt 64 (e2.toInt * e1.toInt) = .ofInt 64 (e2.toNat * e1.toNat) := by
      simp only [BitVec.ofInt_mul, BitVec.ofInt_toInt, ofInt_toNat]
    cases hlaw
    simp only [binaryOp, Arith.signed_eq_exact_iff hsame, SignedSuffices]
  | mod =>
    by_cases hzero : e1 = 0
    · simp only [unsignedResult, if_pos hzero] at hlaw
      cases hlaw
    · simp only [unsignedResult, if_neg hzero] at hlaw
      cases hlaw
      have hne : e1.toInt ≠ 0 := by
        intro h
        exact hzero (BitVec.toInt_inj.mp h)
      rw [mod_exact_iff hzero, SignedWord.remainderAgrees_iff ⟨BitVec.le_toInt e2,
        BitVec.toInt_lt⟩ ⟨BitVec.le_toInt e1, BitVec.toInt_lt⟩ hne]
      rfl
  | _ => cases hlaw

/-- An operation that is arithmetic on addresses has its arithmetic, and it is exact with
the unsigned result exactly if signed arithmetic suffices for that. -/
theorem arith_exact_iff {a : DwarfOp} {stack : EvalStack} {x : ℤ}
    (hlaw : unsignedResult a.op1 a.opcode stack = some x) :
    ∃ r, a.arith stack = some r ∧
      (r = .exact (.ofInt 64 x) ↔ SignedSuffices a.opcode stack) := by
  cases hop : a.opcode with
  | unary kind =>
    rw [hop] at hlaw
    rcases stack with _ | ⟨top, rest⟩
    · cases kind <;> cases hlaw
    · exact ⟨unaryOp a.op1 top kind, by simp only [DwarfOp.arith, hop], unaryOp_exact_iff hlaw⟩
  | binary kind =>
    rw [hop] at hlaw
    rcases stack with _ | ⟨e1, _ | ⟨e2, rest⟩⟩
    · cases kind <;> cases hlaw
    · cases kind <;> cases hlaw
    · exact ⟨binaryOp e2 e1 kind, by simp only [DwarfOp.arith, hop], binaryOp_exact_iff hlaw⟩
  | _ =>
    rw [hop] at hlaw
    cases hlaw

/-- An operation that is arithmetic on addresses pushes the unsigned result modulo `2 ^ 64`,
without a signed overflow, exactly if signed arithmetic suffices for it. -/
theorem execOp_arithmetic_iff (context : Context) (pc : DwarfAddr) (expr : DwarfExpression)
    (frameBase : Bounded EvalResult) {a : DwarfOp} {stack : EvalStack} {x : ℤ}
    (hlaw : unsignedResult a.op1 a.opcode stack = some x) :
    PushesModulo context pc expr frameBase a stack x ↔ SignedSuffices a.opcode stack := by
  obtain ⟨r, harith, hexact⟩ := arith_exact_iff hlaw
  rw [pushesModulo_iff harith, hexact]

/-- The characterization at a sum. -/
theorem execOp_arithmetic_iff_plus :
    PushesModulo emptyContext 0 ⟨[]⟩ none ⟨.binary .plus, 0, 0, 0, 0⟩ [1, 2] 3 ↔
      SignedSuffices (.binary .plus) [1, 2] :=
  @execOp_arithmetic_iff emptyContext 0 ⟨[]⟩ none ⟨.binary .plus, 0, 0, 0, 0⟩ [1, 2] 3 (by decide)

/-- The greatest unsigned value modulo ten is pushed as -1 instead of 5, and the sum of the
greatest signed value and one overflows. -/
theorem execOp_mod_signed :
    unsignedResult 0 (.binary .mod) [10, -1] = some 5 ∧
      ¬PushesModulo emptyContext 0 ⟨[]⟩ none ⟨.binary .mod, 0, 0, 0, 0⟩ [10, -1] 5 := by
  refine ⟨by decide, fun hpushes => ?_⟩
  exact absurd hpushes.pushed (by decide)

/-- The value that DWARF gives to the shifts of `v` by the unsigned count `n`: the product
modulo `2 ^ 64`, the floor of the unsigned and of the signed quotient. -/
def shiftLaw (v n : DwarfSigned) : BinaryKind → Option DwarfSigned
  | .shl => some (.ofNat 64 (v.toNat * 2 ^ n.toNat))
  | .shr => some (.ofNat 64 (v.toNat / 2 ^ n.toNat))
  | .shra => some (.ofInt 64 (v.toInt / 2 ^ n.toNat))
  | _ => none

/-- The shift is one that the source carries out as DWARF says. -/
def ShiftSuffices (v n : DwarfSigned) (kind : BinaryKind) : Prop :=
  n.toNat < 64 ∧ (kind = .shr → 0 ≤ v.toInt ∨ n = 0)

section

variable {rest : EvalStack} {v n law : DwarfSigned}

/-- A count in range is shifted to the left modulo `2 ^ 64`, also when the exact product does
not fit. -/
theorem pushArith_shl_iff :
    pushArith rest (binaryOp v n .shl) = .goOn (.ofNat 64 (v.toNat * 2 ^ n.toNat) :: rest) ↔
      n.toNat < 64 := by
  have hvalue : v <<< n.toNat = .ofNat 64 (v.toNat * 2 ^ n.toNat) := by
    rw [← BitVec.toNat_inj, BitVec.toNat_shiftLeft, BitVec.toNat_ofNat, Nat.shiftLeft_eq]
  by_cases hcount : n.toNat < 64
  · simp only [binaryOp, shiftDefined, hcount, decide_true, not_true_eq_false, if_false, iff_true]
    by_cases hsign : v.toInt < 0
    · rw [if_pos hsign, pushArith, hvalue]
    · have hnonneg : v.toInt = v.toNat := by
        rw [BitVec.toInt_eq_toNat_of_msb ((SignedWord.toInt_nonneg_iff v).mp (by omega))]
      have hproduct : BitVec.ofInt 64 (v.toInt * 2 ^ n.toNat) =
          .ofNat 64 (v.toNat * 2 ^ n.toNat) := by
        rw [hnonneg, ← BitVec.ofInt_natCast]
        push_cast
        rfl
      rw [if_neg hsign, Arith.signed, hproduct]
      split <;> rfl
  · simp [binaryOp, shiftDefined, hcount, pushArith]

/-- The logical shift to the right is carried out as an arithmetic one. -/
theorem pushArith_shr_iff :
    pushArith rest (binaryOp v n .shr) = .goOn (.ofNat 64 (v.toNat / 2 ^ n.toNat) :: rest) ↔
      n.toNat < 64 ∧ (0 ≤ v.toInt ∨ n = 0) := by
  have hvalue : v >>> n.toNat = .ofNat 64 (v.toNat / 2 ^ n.toNat) := by
    have hle := Nat.div_le_self v.toNat (2 ^ n.toNat)
    rw [← BitVec.toNat_inj, BitVec.toNat_ushiftRight, BitVec.toNat_ofNat,
      Nat.shiftRight_eq_div_pow, Nat.mod_eq_of_lt (Nat.lt_of_le_of_lt hle v.isLt)]
  have hzero : n = 0 ↔ n.toNat = 0 := by
    rw [← BitVec.toNat_inj]
    rfl
  by_cases hcount : n.toNat < 64
  · simp only [binaryOp, shiftDefined, hcount, decide_true, if_true, true_and, pushArith,
      OpEffect.goOn.injEq, List.cons.injEq, and_true]
    rw [← hvalue, SignedWord.sshiftRight_eq_ushiftRight_iff, hzero]
  · simp [binaryOp, shiftDefined, hcount, pushArith]

/-- The arithmetic shift to the right is the floor of the signed quotient. -/
theorem pushArith_shra_iff :
    pushArith rest (binaryOp v n .shra) = .goOn (.ofInt 64 (v.toInt / 2 ^ n.toNat) :: rest) ↔
      n.toNat < 64 := by
  have hvalue : v.sshiftRight n.toNat = .ofInt 64 (v.toInt / 2 ^ n.toNat) := by
    rw [BitVec.sshiftRight, Int.shiftRight_eq_div_pow]
    rfl
  by_cases hcount : n.toNat < 64
  · simp only [binaryOp, shiftDefined, hcount, decide_true, if_true, pushArith, hvalue]
  · simp [binaryOp, shiftDefined, hcount, pushArith]

end

/-- A shift pushes the value that DWARF gives to it, and shifts by a count in `0..63` only,
exactly if the count is in that range and `DW_OP_shr` by a count other than zero shifts a
value whose top bit is clear. -/
theorem execOp_shift_iff (context : Context) (pc : DwarfAddr) (expr : DwarfExpression)
    (frameBase : Bounded EvalResult) {a : DwarfOp} {kind : BinaryKind} {v n law : DwarfSigned}
    (rest : EvalStack) (hop : a.opcode = .binary kind) (hlaw : shiftLaw v n kind = some law) :
    execOp context pc expr frameBase a (n :: v :: rest) = .goOn (law :: rest) ↔
      ShiftSuffices v n kind := by
  have hexec : execOp context pc expr frameBase a (n :: v :: rest) =
      pushArith rest (binaryOp v n kind) := by
    simp only [execOp, hop]
  rw [hexec, ShiftSuffices]
  cases kind with
  | shl =>
    cases hlaw
    simp [pushArith_shl_iff]
  | shr =>
    cases hlaw
    simp [pushArith_shr_iff]
  | shra =>
    cases hlaw
    simp [pushArith_shra_iff]
  | _ => cases hlaw

/-- The characterization at a shift of one by three. -/
theorem execOp_shift_iff_shl :
    execOp emptyContext 0 ⟨[]⟩ none ⟨.binary .shl, 0, 0, 0, 0⟩ [3, 1] = .goOn [8] ↔
      ShiftSuffices 1 3 .shl :=
  execOp_shift_iff emptyContext 0 ⟨[]⟩ none [] rfl rfl

/-- `DW_OP_shr` of -1 by one leaves -1 instead of `2 ^ 63 - 1`, and a shift by 64 is carried
out although the language leaves it undefined. -/
theorem execOp_shr_signed :
    execOp emptyContext 0 ⟨[]⟩ none ⟨.binary .shr, 0, 0, 0, 0⟩ [1, -1] = .goOn [-1] ∧
      shiftLaw (-1) 1 .shr = some (BitVec.intMax 64) ∧
      execOp emptyContext 0 ⟨[]⟩ none ⟨.binary .shl, 0, 0, 0, 0⟩ [64, 1] =
        .undefined .shiftCount := by
  decide

end DwarfExpr
