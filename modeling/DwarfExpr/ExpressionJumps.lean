import DwarfExpr.EvaluateRuns

/-!
# Jump targets of the expression machine

DWARF counts the operand of `DW_OP_skip` and `DW_OP_bra` from the byte after the
operation. The source looks for the operation at the jump's own offset plus the
operand, and continues with the operation after that one. The two agree when the
operation found is three bytes long, as the jumps themselves are. If there is none,
the source goes on with the operation after the jump instead of failing.
-/

namespace DwarfExpr

open StepMachine (Step)

/-- `DW_OP_skip` and `DW_OP_bra`, the operations with a two-byte signed operand. -/
def DwarfOp.isJump (a : DwarfOp) : Bool := a.opcode = .skip || a.opcode = .bra

/-- The signed 16-bit operand of a jump. -/
def DwarfOp.displacement (a : DwarfOp) : ℤ := (a.op1.setWidth 16).toInt

/-- The byte offset at which the operation with this index starts, given the encoded
lengths of all operations. For their number it is the end of the expression. -/
def startOf (lengths : List ℕ) (k : ℕ) : ℕ := (lengths.take k).sum

/-- The offsets of an operation list are the byte offsets of an encoded expression
whose operations have these lengths. -/
structure DwarfExpression.EncodedWith (expr : DwarfExpression) (lengths : List ℕ) : Prop where
  length_eq : lengths.length = expr.ops.length
  positive : ∀ length ∈ lengths, 0 < length
  off_eq : ∀ k a, expr.ops[k]? = some a → a.off.toNat = startOf lengths k
  jump_length : ∀ (k : ℕ) (a : DwarfOp), expr.ops[k]? = some a → a.isJump = true →
    lengths[k]? = some 3

/-- The next operation starts where the operation ends. -/
theorem startOf_succ {lengths : List ℕ} {k length : ℕ} (hlength : lengths[k]? = some length) :
    startOf lengths (k + 1) = startOf lengths k + length := by
  unfold startOf
  rw [List.take_add_one, hlength, List.sum_append]
  simp

/-- Operations of positive length start at increasing offsets. -/
theorem startOf_strictMono {lengths : List ℕ} (hpositive : ∀ length ∈ lengths, 0 < length)
    {j k : ℕ} (hjk : j < k) (hk : k ≤ lengths.length) : startOf lengths j < startOf lengths k := by
  induction k, hjk using Nat.le_induction with
  | base =>
    have hget := List.getElem?_eq_getElem (show j < lengths.length by omega)
    have hpos := hpositive _ (List.getElem_mem (show j < lengths.length by omega))
    rw [startOf_succ hget]
    omega
  | succ k hjk ih =>
    have hget := List.getElem?_eq_getElem (show k < lengths.length by omega)
    have hlt := ih (by omega)
    rw [startOf_succ hget]
    omega

/-- An offset belongs to at most one operation boundary. -/
theorem startOf_injective {lengths : List ℕ} (hpositive : ∀ length ∈ lengths, 0 < length)
    {j k : ℕ} (hj : j ≤ lengths.length) (hk : k ≤ lengths.length)
    (heq : startOf lengths j = startOf lengths k) : j = k := by
  rcases Nat.lt_trichotomy j k with hlt | hsame | hgt
  · have := startOf_strictMono hpositive hlt hk
    omega
  · exact hsame
  · have := startOf_strictMono hpositive hgt hj
    omega

/-- An operation ends at or before a boundary, or begins at or behind it. -/
theorem startOf_succ_le_or_le {lengths : List ℕ} (hpositive : ∀ length ∈ lengths, 0 < length)
    {i j : ℕ} (hi : i ≤ lengths.length) (hj : j ≤ lengths.length) :
    startOf lengths (j + 1) ≤ startOf lengths i ∨ startOf lengths i ≤ startOf lengths j := by
  rcases Nat.lt_trichotomy j i with hlt | heq | hgt
  · rcases Nat.lt_or_eq_of_le (show j + 1 ≤ i by omega) with hlt' | heq'
    · exact Or.inl (Nat.le_of_lt (startOf_strictMono hpositive hlt' hi))
    · exact Or.inl (by rw [heq'])
  · exact Or.inr (by rw [heq])
  · exact Or.inr (Nat.le_of_lt (startOf_strictMono hpositive hgt hj))

/-- The jump is taken: a skip always, a branch when the top of the stack is not zero. -/
def DwarfOp.Taken (a : DwarfOp) (stack : EvalStack) : Prop :=
  a.opcode = .skip ∨ (a.opcode = .bra ∧ ∃ top rest, stack = top :: rest ∧ top ≠ 0)

/-- After a taken jump the run goes on at the boundary that the operand names, which may
be the end of the expression, and reports an error if there is no such boundary. -/
structure JumpLands (lengths : List ℕ) (a : DwarfOp) (next : Step EvalState EvalOutcome) :
    Prop where
  boundary : ∀ k ≤ lengths.length, (startOf lengths k : ℤ) = a.off.toNat + 3 + a.displacement →
    ∃ t, next = .next t ∧ t.i = k
  noBoundary : (¬∃ k ≤ lengths.length,
      (startOf lengths k : ℤ) = a.off.toNat + 3 + a.displacement) →
    ∃ code addr stack, next = .halt (.ok (.error code addr, stack))

/-- The operation at the jump's offset plus its operand exists and is three bytes long. -/
def ThreeByteOpAt (lengths : List ℕ) (a : DwarfOp) : Prop :=
  ∃ j, lengths[j]? = some 3 ∧ (startOf lengths j : ℤ) = a.off.toNat + a.displacement

/-- A taken jump moves the loop behind the operation that the offset lookup finds. -/
theorem evalStepAt_of_taken {fuel : ℕ} {context : Context} {pc : DwarfAddr}
    {expr : DwarfExpression} {s : EvalState} {a : DwarfOp} (ha : expr.ops[s.i]? = some a)
    (htaken : a.Taken s.stack) :
    ∃ stack, evalStepAt fuel context pc expr s =
      .next ⟨expr.jumpIndex a s.i + 1, a.off, stack⟩ := by
  rw [evalStepAt, evalStep_of_getElem ha]
  rcases htaken with hskip | ⟨hbra, top, rest, hstack, _⟩
  · exact ⟨s.stack, by simp [execOp, hskip, OpEffect.advance]⟩
  · exact ⟨rest, by simp [execOp, hbra, hstack, OpEffect.advance]⟩

/-- The offset that a jump looks up is the exact sum reduced to 64 bits. -/
theorem DwarfOp.jumpOffset_toNat (a : DwarfOp) :
    (a.jumpOffset.toNat : ℤ) = (a.off.toNat + a.displacement) % 2 ^ 64 := by
  unfold DwarfOp.jumpOffset DwarfOp.displacement BitVec.signExtend
  rw [BitVec.toNat_add, BitVec.toNat_ofInt]
  omega

/-- The operand of a jump lies in the signed 16-bit range. -/
theorem DwarfOp.displacement_bounds (a : DwarfOp) :
    -2 ^ 15 ≤ a.displacement ∧ a.displacement < 2 ^ 15 := by
  have hlow := BitVec.le_toInt (a.op1.setWidth 16)
  have hhigh := @BitVec.toInt_lt 16 (a.op1.setWidth 16)
  unfold DwarfOp.displacement
  omega

/-- The offset lookup finds the operation that starts at the offset. -/
theorem DwarfExpression.EncodedWith.findOpIndexByOffset_eq_some_iff {expr : DwarfExpression}
    {lengths : List ℕ} (henc : expr.EncodedWith lengths) (off : DwarfUnsigned) (j : ℕ) :
    expr.findOpIndexByOffset off = some j ↔
      j < lengths.length ∧ startOf lengths j = off.toNat := by
  have hstart (k : ℕ) (hk : k < expr.ops.length) : (expr.ops[k].off = off ↔
      startOf lengths k = off.toNat) := by
    rw [← henc.off_eq k _ (List.getElem?_eq_getElem hk)]
    exact ⟨fun h => by rw [h], BitVec.eq_of_toNat_eq⟩
  unfold DwarfExpression.findOpIndexByOffset
  rw [List.findIdx?_eq_some_iff_getElem, henc.length_eq]
  constructor
  · rintro ⟨hj, hoff, _⟩
    exact ⟨hj, (hstart j hj).mp (by simpa using hoff)⟩
  · rintro ⟨hj, hoff⟩
    refine ⟨hj, by simpa using (hstart j hj).mpr hoff, fun k hkj => ?_⟩
    have hlt := startOf_strictMono henc.positive hkj (by rw [henc.length_eq]; omega)
    have hne := mt (hstart k (by omega)).mp (by omega)
    simpa using hne

/-- A taken jump lands where its operand says exactly when the operation that the
lookup should find is there and three bytes long. -/
theorem jumpLands_iff {fuel : ℕ} {context : Context} {pc : DwarfAddr} {expr : DwarfExpression}
    {lengths : List ℕ} (henc : expr.EncodedWith lengths) {s : EvalState} {a : DwarfOp}
    (ha : expr.ops[s.i]? = some a) (htaken : a.Taken s.stack) :
    JumpLands lengths a (evalStepAt fuel context pc expr s) ↔ ThreeByteOpAt lengths a := by
  obtain ⟨stack, hstep⟩ := @evalStepAt_of_taken fuel context pc expr s a ha htaken
  have hi : s.i < lengths.length := by
    rw [henc.length_eq]
    exact (List.getElem?_eq_some_iff.mp ha).1
  have hjump : a.isJump = true := by
    rcases htaken with h | ⟨h, _⟩ <;> simp [DwarfOp.isJump, h]
  have hoff := henc.off_eq _ _ ha
  have hnext := startOf_succ (henc.jump_length _ _ ha hjump)
  have hmod := a.jumpOffset_toNat
  have hbounds := a.displacement_bounds
  have hlt := a.off.isLt
  have hfind := henc.findOpIndexByOffset_eq_some_iff a.jumpOffset
  rw [hstep]
  constructor
  · intro hlands
    have htarget : ∃ k ≤ lengths.length,
        (startOf lengths k : ℤ) = a.off.toNat + 3 + a.displacement := by
      by_contra hnone
      obtain ⟨code, addr, stack', h⟩ := hlands.noBoundary hnone
      cases h
    obtain ⟨k, hk, htarget⟩ := htarget
    obtain ⟨t, ht, htk⟩ := hlands.boundary k hk htarget
    obtain rfl := Step.next.inj ht
    cases hfound : expr.findOpIndexByOffset a.jumpOffset with
    | none =>
      -- Going on after the jump is right only for a displacement of zero, and then the
      -- lookup finds the jump itself.
      have hindex : k = s.i + 1 := by
        rw [← htk, DwarfExpression.jumpIndex, hfound]
        rfl
      subst hindex
      have hself := (hfind s.i).mpr ⟨hi, by omega⟩
      rw [hfound] at hself
      cases hself
    | some j =>
      have hindex : k = j + 1 := by
        rw [← htk, DwarfExpression.jumpIndex, hfound]
        rfl
      subst hindex
      obtain ⟨hj, hstart⟩ := (hfind j).mp hfound
      have hget := List.getElem?_eq_getElem hj
      have hsucc := startOf_succ hget
      -- The lookup works modulo `2 ^ 64`; the boundary found excludes a wrapped sum.
      have horder := startOf_succ_le_or_le henc.positive hi.le hj.le
      refine ⟨j, ?_, by omega⟩
      rw [hget]
      congr 1
      omega
  · rintro ⟨j, hlength, hstart⟩
    have hj : j < lengths.length := (List.getElem?_eq_some_iff.mp hlength).1
    have hsucc := startOf_succ hlength
    have hop : ∃ b, expr.ops[j]? = some b := by
      rw [henc.length_eq] at hj
      exact ⟨_, List.getElem?_eq_getElem hj⟩
    obtain ⟨b, hb⟩ := hop
    have hsmall := b.off.isLt
    have hboff := henc.off_eq _ _ hb
    have hfound : expr.findOpIndexByOffset a.jumpOffset = some j := by
      rw [hfind]
      exact ⟨hj, by omega⟩
    have hindex : expr.jumpIndex a s.i = j := by
      rw [DwarfExpression.jumpIndex, hfound]
      rfl
    rw [hindex]
    constructor
    · intro k hk htarget
      have hkj : k = j + 1 := startOf_injective henc.positive hk (by omega) (by omega)
      exact ⟨_, rfl, hkj.symm⟩
    · intro hnone
      exact absurd ⟨j + 1, by omega, by omega⟩ hnone

/-- In the state `s`, a jump that is taken lands where its operand says. -/
def JumpsWell (context : Context) (pc : DwarfAddr) (expr : DwarfExpression)
    (lengths : List ℕ) (s : EvalState) : Prop :=
  ∀ a, expr.ops[s.i]? = some a → a.Taken s.stack →
    ∀ fuel, JumpLands lengths a (evalStepAt fuel context pc expr s)

/-- In a run of an encoded expression every jump taken lands where its operand says
exactly when at every such jump the operation at its own offset plus the operand, three
bytes before the target, exists and is three bytes long. -/
theorem evaluate_jumps_iff {expr : DwarfExpression} {lengths : List ℕ}
    (henc : expr.EncodedWith lengths) (context : Context) (pc : DwarfAddr) (stack : EvalStack) :
    (∀ s, Visits context pc expr stack s → JumpsWell context pc expr lengths s) ↔
      ∀ s, Visits context pc expr stack s →
        ∀ a, expr.ops[s.i]? = some a → a.Taken s.stack → ThreeByteOpAt lengths a := by
  apply forall_congr'
  intro s
  apply imp_congr_right
  intro hvisits
  apply forall_congr'
  intro a
  apply imp_congr_right
  intro ha
  apply imp_congr_right
  intro htaken
  constructor
  · intro h
    exact (jumpLands_iff henc ha htaken).mp (h 0)
  · intro h fuel
    exact (jumpLands_iff henc ha htaken).mpr h

/-- A jump over one byte, `DW_OP_lit3` and `DW_OP_lit4`. -/
def skipOverLiteral : DwarfExpression :=
  ⟨[⟨.skip, 1, 0, 0, 0⟩, ⟨.lit 3, 0, 0, 0, 3⟩, ⟨.lit 4, 0, 0, 0, 4⟩]⟩

/-- The offsets of the example are those of its encoding. -/
theorem skipOverLiteral_encodedWith : skipOverLiteral.EncodedWith [3, 1, 1] where
  length_eq := rfl
  positive := by decide
  off_eq := by
    intro k a ha
    rcases k with _ | _ | _ | k <;> simp [skipOverLiteral] at ha <;> subst ha <;> rfl
  jump_length := by
    intro k a ha hjump
    rcases k with _ | _ | _ | k <;> simp [skipOverLiteral] at ha <;> subst ha <;>
      first | rfl | cases hjump

/-- The jump over `DW_OP_lit3` goes on with `DW_OP_lit3`. -/
theorem evaluate_skip_misses :
    skipOverLiteral.EncodedWith [3, 1, 1] ∧
      ¬∀ s, Visits emptyContext 0 skipOverLiteral [] s →
        JumpsWell emptyContext 0 skipOverLiteral [3, 1, 1] s := by
  refine ⟨skipOverLiteral_encodedWith, fun h => ?_⟩
  have hvisits : Visits emptyContext 0 skipOverLiteral [] (.init []) :=
    ⟨by simp [skipOverLiteral], 0, .refl⟩
  have hlands := h _ hvisits _ rfl (Or.inl rfl) 0
  obtain ⟨t, ht, hi⟩ := hlands.boundary 2 (by decide) (by decide)
  have hone : t = ⟨1, 0, []⟩ := (Step.next.inj ht).symm
  rw [hone] at hi
  cases hi

/-- The characterization at the example. -/
theorem evaluate_jumps_iff_skipOverLiteral :
    (∀ s, Visits emptyContext 0 skipOverLiteral [] s →
        JumpsWell emptyContext 0 skipOverLiteral [3, 1, 1] s) ↔
      ∀ s, Visits emptyContext 0 skipOverLiteral [] s →
        ∀ a, skipOverLiteral.ops[s.i]? = some a → a.Taken s.stack →
          ThreeByteOpAt [3, 1, 1] a :=
  evaluate_jumps_iff skipOverLiteral_encodedWith emptyContext 0 []

end DwarfExpr
