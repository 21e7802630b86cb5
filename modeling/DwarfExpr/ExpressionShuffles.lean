import DwarfExpr.ExpressionStack

/-!
# Stack shuffles of the expression machine

The operations that only move stack entries, written as sequences of pops and pushes.
`DW_OP_pick` unloads the stack into a second one and loads it again; its loops count in
32 bits, so they never end for an index from `2 ^ 32` on.
-/

namespace DwarfExpr

/-- The operations that move stack entries and look at nothing else. -/
def DwarfOp.isShuffle (a : DwarfOp) : Bool :=
  match a.opcode with
  | .dup | .drop | .pick | .over | .swap | .rot => true
  | _ => false

/-- The shuffles do on this stack what they are for: `DW_OP_pick` copies the entry with the
given index, `DW_OP_dup` and `DW_OP_over` are its cases for 0 and 1, `DW_OP_swap` and
`DW_OP_rot` are permutations of order two and three, and no shuffle changes the entries
below the ones it needs. -/
structure ShufflesExact (context : Context) (pc : DwarfAddr) (expr : DwarfExpression)
    (frameBase : Bounded EvalResult) (stack : EvalStack) (i : DwarfUnsigned) : Prop where
  pick : ∀ a x, a.opcode = .pick → a.op1 = i → stack[i.toNat]? = some x →
    execOp context pc expr frameBase a stack = .goOn (x :: stack)
  dup_eq_pick : ∀ a d, a.opcode = .dup → d.opcode = .pick → d.op1 = 0 → 1 ≤ stack.length →
    execOp context pc expr frameBase a stack = execOp context pc expr frameBase d stack
  over_eq_pick : ∀ a d, a.opcode = .over → d.opcode = .pick → d.op1 = 1 → 2 ≤ stack.length →
    execOp context pc expr frameBase a stack = execOp context pc expr frameBase d stack
  swap_swap : ∀ a, a.opcode = .swap → 2 ≤ stack.length →
    ∃ t, execOp context pc expr frameBase a stack = .goOn t ∧
      execOp context pc expr frameBase a t = .goOn stack
  rot : ∀ a x y z rest, a.opcode = .rot → stack = x :: y :: z :: rest →
    execOp context pc expr frameBase a stack = .goOn (y :: z :: x :: rest)
  rot_rot_rot : ∀ a, a.opcode = .rot → 3 ≤ stack.length →
    ∃ t u, execOp context pc expr frameBase a stack = .goOn t ∧
      execOp context pc expr frameBase a t = .goOn u ∧
        execOp context pc expr frameBase a u = .goOn stack
  below : ∀ a t, a.isShuffle = true → execOp context pc expr frameBase a stack = .goOn t →
    stack.drop (a.needs context) <:+ t

section

variable {context : Context} {pc : DwarfAddr} {expr : DwarfExpression}
  {frameBase : Bounded EvalResult} {a : DwarfOp} {stack : EvalStack}

/-- On a stack with an entry at the index the check of `DW_OP_pick` passes. -/
theorem execOp_pick_eq (hop : a.opcode = .pick) (hlength : a.op1.toNat < stack.length) :
    execOp context pc expr frameBase a stack =
      match pickOp a.op1 stack with
      | some stack' => .goOn stack'
      | none => .undefined .emptyStack := by
  have hcheck : ¬stack.length < (a.op1 + 1).toNat := by
    have hle : (a.op1 + 1).toNat ≤ a.op1.toNat + 1 := by
      rw [BitVec.toNat_add]
      exact Nat.mod_le _ _
    omega
  cases hpick : pickOp a.op1 stack <;> simp only [execOp, hop, if_neg hcheck, hpick]

/-- `DW_OP_pick` copies the entry with the index of its operand exactly if the operand fits
the counter of its loops. -/
theorem execOp_pick_iff (hop : a.opcode = .pick) {x : DwarfSigned}
    (hx : stack[a.op1.toNat]? = some x) :
    execOp context pc expr frameBase a stack = .goOn (x :: stack) ↔ a.op1.toNat < 2 ^ 32 := by
  obtain ⟨hlength, rfl⟩ := List.getElem?_eq_some_iff.mp hx
  rw [execOp_pick_eq hop hlength]
  by_cases hsmall : a.op1.toNat < 2 ^ 32
  · rw [pickOp_eq hsmall hlength]
    exact iff_of_true rfl hsmall
  · rw [pickOp, pickUnload_eq_none (by omega)]
    exact iff_of_false (by simp) hsmall

/-- `DW_OP_dup` copies the entry with index 0. -/
theorem execOp_dup_eq_pick {d : DwarfOp} (hop : a.opcode = .dup) (hpick : d.opcode = .pick)
    (hzero : d.op1 = 0) (hlength : 1 ≤ stack.length) :
    execOp context pc expr frameBase a stack = execOp context pc expr frameBase d stack := by
  obtain ⟨x, rest, rfl⟩ := List.exists_cons_of_length_pos hlength
  have hx : (x :: rest)[d.op1.toNat]? = some x := by
    rw [hzero]
    rfl
  rw [(execOp_pick_iff hpick hx).mpr (by rw [hzero]; decide)]
  simp only [execOp, hop]

/-- `DW_OP_over` copies the entry with index 1. -/
theorem execOp_over_eq_pick {d : DwarfOp} (hop : a.opcode = .over) (hpick : d.opcode = .pick)
    (hone : d.op1 = 1) (hlength : 2 ≤ stack.length) :
    execOp context pc expr frameBase a stack = execOp context pc expr frameBase d stack := by
  rcases stack with _ | ⟨x, _ | ⟨y, rest⟩⟩
  · exact absurd hlength (by simp)
  · exact absurd hlength (by simp)
  · have hy : (x :: y :: rest)[d.op1.toNat]? = some y := by
      rw [hone]
      rfl
    rw [(execOp_pick_iff hpick hy).mpr (by rw [hone]; decide)]
    simp only [execOp, hop]

/-- Two swaps undo each other. -/
theorem execOp_swap_swap (hop : a.opcode = .swap) (hlength : 2 ≤ stack.length) :
    ∃ t, execOp context pc expr frameBase a stack = .goOn t ∧
      execOp context pc expr frameBase a t = .goOn stack := by
  rcases stack with _ | ⟨x, _ | ⟨y, rest⟩⟩
  · exact absurd hlength (by simp)
  · exact absurd hlength (by simp)
  · exact ⟨y :: x :: rest, by simp only [execOp, hop], by simp only [execOp, hop]⟩

/-- Three rotations come back to the stack. -/
theorem execOp_rot_rot_rot (hop : a.opcode = .rot) (hlength : 3 ≤ stack.length) :
    ∃ t u, execOp context pc expr frameBase a stack = .goOn t ∧
      execOp context pc expr frameBase a t = .goOn u ∧
        execOp context pc expr frameBase a u = .goOn stack := by
  rcases stack with _ | ⟨x, _ | ⟨y, _ | ⟨z, rest⟩⟩⟩
  · exact absurd hlength (by simp)
  · exact absurd hlength (by simp)
  · exact absurd hlength (by simp)
  · exact ⟨y :: z :: x :: rest, z :: x :: y :: rest, by simp only [execOp, hop],
      by simp only [execOp, hop], by simp only [execOp, hop]⟩

/-- The entries below the ones that a shuffle needs stay in place. -/
theorem execOp_shuffle_below {t : EvalStack} (hshuffle : a.isShuffle = true)
    (hexec : execOp context pc expr frameBase a stack = .goOn t) :
    stack.drop (a.needs context) <:+ t := by
  unfold DwarfOp.isShuffle at hshuffle
  cases hop : a.opcode with
  | dup =>
    rcases stack with _ | ⟨x, rest⟩ <;> simp only [execOp, hop] at hexec <;> cases hexec
    exact ⟨[x, x], by simp only [DwarfOp.needs, hop]; rfl⟩
  | drop =>
    rcases stack with _ | ⟨x, rest⟩ <;> simp only [execOp, hop] at hexec <;> cases hexec
    exact ⟨[], by simp only [DwarfOp.needs, hop]; rfl⟩
  | «over» =>
    rcases stack with _ | ⟨x, _ | ⟨y, rest⟩⟩ <;> simp only [execOp, hop] at hexec <;> cases hexec
    exact ⟨[y, x, y], by simp only [DwarfOp.needs, hop]; rfl⟩
  | swap =>
    rcases stack with _ | ⟨x, _ | ⟨y, rest⟩⟩ <;> simp only [execOp, hop] at hexec <;> cases hexec
    exact ⟨[y, x], by simp only [DwarfOp.needs, hop]; rfl⟩
  | rot =>
    rcases stack with _ | ⟨x, _ | ⟨y, _ | ⟨z, rest⟩⟩⟩ <;> simp only [execOp, hop] at hexec <;>
      cases hexec
    exact ⟨[y, z, x], by simp only [DwarfOp.needs, hop]; rfl⟩
  | pick =>
    by_cases hlength : a.op1.toNat < stack.length
    · have hx : stack[a.op1.toNat]? = some stack[a.op1.toNat] := List.getElem?_eq_getElem hlength
      by_cases hsmall : a.op1.toNat < 2 ^ 32
      · rw [(execOp_pick_iff hop hx).mpr hsmall] at hexec
        cases hexec
        exact (List.drop_suffix _ _).trans (List.suffix_cons _ _)
      · rw [execOp_pick_eq hop hlength, pickOp, pickUnload_eq_none (by omega)] at hexec
        cases hexec
    · have hnil : stack.drop (a.needs context) = [] := by
        simp only [DwarfOp.needs, hop]
        exact List.drop_eq_nil_of_le (by omega)
      rw [hnil]
      exact List.nil_suffix
  | _ => simp [hop] at hshuffle

end

/-- On every stack the shuffles do what they are for exactly if the index given to `DW_OP_pick`
is below `2 ^ 32`. -/
theorem shuffles_iff (context : Context) (pc : DwarfAddr) (expr : DwarfExpression)
    (frameBase : Bounded EvalResult) {stack : EvalStack} {i : DwarfUnsigned}
    (hi : i.toNat < stack.length) :
    ShufflesExact context pc expr frameBase stack i ↔ i.toNat < 2 ^ 32 := by
  have hx : stack[i.toNat]? = some stack[i.toNat] := List.getElem?_eq_getElem hi
  constructor
  · intro hexact
    have hpick := hexact.pick ⟨.pick, i, 0, 0, 0⟩ _ rfl rfl hx
    exact (execOp_pick_iff rfl hx).mp hpick
  · intro hsmall
    refine ⟨?_, ?_, ?_, ?_, ?_, ?_, ?_⟩
    · rintro a x hop rfl hget
      exact (execOp_pick_iff hop hget).mpr hsmall
    · intro a d hop hpick hzero hlength
      exact execOp_dup_eq_pick hop hpick hzero hlength
    · intro a d hop hpick hone hlength
      exact execOp_over_eq_pick hop hpick hone hlength
    · intro a hop hlength
      exact execOp_swap_swap hop hlength
    · rintro a x y z rest hop rfl
      simp only [execOp, hop]
    · intro a hop hlength
      exact execOp_rot_rot_rot hop hlength
    · intro a t hshuffle hexec
      exact execOp_shuffle_below hshuffle hexec

/-- The characterization at the second entry of three. -/
theorem shuffles_iff_three :
    ShufflesExact emptyContext 0 ⟨[]⟩ none [7, 8, 9] 1 ↔ (1 : DwarfUnsigned).toNat < 2 ^ 32 :=
  shuffles_iff emptyContext 0 ⟨[]⟩ none (by decide)

/-- On a stack of `2 ^ 32 + 1` entries `DW_OP_pick` of the last one empties the stack. -/
theorem execOp_pick_last :
    (BitVec.ofNat 64 (2 ^ 32)).toNat < (List.replicate (2 ^ 32 + 1) (0 : DwarfSigned)).length ∧
      execOp emptyContext 0 ⟨[]⟩ none ⟨.pick, .ofNat 64 (2 ^ 32), 0, 0, 0⟩
        (List.replicate (2 ^ 32 + 1) 0) = .undefined .emptyStack := by
  have hlength : (BitVec.ofNat 64 (2 ^ 32)).toNat <
      (List.replicate (2 ^ 32 + 1) (0 : DwarfSigned)).length := by
    rw [List.length_replicate]
    decide
  refine ⟨hlength, ?_⟩
  rw [execOp_pick_eq rfl hlength, pickOp, pickUnload_eq_none (by decide)]

end DwarfExpr
