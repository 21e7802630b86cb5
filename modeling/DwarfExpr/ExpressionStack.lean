import DwarfExpr.NestedEvaluations

/-!
# Stack discipline of the expression machine

An operation that needs more entries than the stack holds should end the evaluation
with `stackIndexInvalid` and touch nothing. All operations do so except the six
comparisons, which take two entries unchecked, and `DW_OP_pick` with an operand of
at least `2 ^ 32`: its loops count in 32 bits, and its check wraps at `2 ^ 64 - 1`. The same
goes for the evaluations of the frame base that an evaluation makes.
-/

namespace DwarfExpr

open Fuel (Returns)

/-- The number of stack entries that an operation needs. -/
def DwarfOp.needs (context : Context) (a : DwarfOp) : ℕ :=
  match a.opcode with
  | .dup | .drop | .unary _ | .bra | .stackValue => 1
  | .over | .swap | .binary _ | .compare _ => 2
  | .rot => 3
  | .pick => a.op1.toNat + 1
  | .deref | .derefSize => if context.memory.isSome then 1 else 0
  | _ => 0

/-- The effect of the operation `a` respects the stack: it does not access an empty
stack, and with too few entries it reports just that. -/
structure OpEffect.Disciplined (effect : OpEffect) (needs : ℕ) (a : DwarfOp)
    (stack : EvalStack) : Prop where
  noEmptyAccess : effect ≠ .undefined .emptyStack
  tooFew : stack.length < needs → effect = .finish (.error .stackIndexInvalid a.off) stack

/-- The stacks on which the checks of the source suffice for the operation. -/
def DwarfOp.StackSafe (a : DwarfOp) (stack : EvalStack) : Prop :=
  match a.opcode with
  | .compare _ => 2 ≤ stack.length
  | .pick => a.op1.toNat < 2 ^ 32 ∨ (a.op1 ≠ BitVec.allOnes 64 ∧ stack.length ≤ a.op1.toNat)
  | _ => True

/-- The loops of `DW_OP_pick` compare their 32-bit counter with the 64-bit operand. -/
theorem pickCounter_lt_iff (i : BitVec 32) (idx : DwarfUnsigned) :
    i.setWidth 64 < idx ↔ i.toNat < idx.toNat := by
  have hi := i.isLt
  rw [BitVec.lt_def, BitVec.toNat_setWidth, Nat.mod_eq_of_lt (by omega)]

/-- Below an operand under `2 ^ 32` the counter does not wrap. -/
theorem pickCounter_succ {i : BitVec 32} {idx : DwarfUnsigned} (hidx : idx.toNat < 2 ^ 32)
    (hi : i.toNat < idx.toNat) : (i + 1).toNat = i.toNat + 1 := by
  rw [BitVec.toNat_add]
  exact Nat.mod_eq_of_lt (by simp; omega)

/-- With an operand below `2 ^ 32` the first loop of `DW_OP_pick` moves that many
entries, if there are as many. Induction on the stack. -/
theorem pickUnload_eq {idx : DwarfUnsigned} (hidx : idx.toNat < 2 ^ 32) (stack t : EvalStack)
    {i : BitVec 32} (hi : i.toNat ≤ idx.toNat) :
    pickUnload idx stack i t =
      if idx.toNat - i.toNat ≤ stack.length then
        some (stack.drop (idx.toNat - i.toNat), (stack.take (idx.toNat - i.toNat)).reverse ++ t)
      else none := by
  induction stack generalizing i t with
  | nil =>
    unfold pickUnload
    by_cases hmore : i.toNat < idx.toNat
    · rw [if_pos ((pickCounter_lt_iff i idx).mpr hmore),
        if_neg (by simp only [List.length_nil]; omega)]
    · have hzero : idx.toNat - i.toNat = 0 := by omega
      rw [if_neg (mt (pickCounter_lt_iff i idx).mp hmore), hzero]
      rfl
  | cons x rest ih =>
    unfold pickUnload
    by_cases hmore : i.toNat < idx.toNat
    · have hnext := pickCounter_succ hidx hmore
      obtain ⟨k, hk⟩ : ∃ k, idx.toNat - i.toNat = k + 1 := ⟨idx.toNat - i.toNat - 1, by omega⟩
      have hrest : idx.toNat - (i + 1).toNat = k := by omega
      rw [if_pos ((pickCounter_lt_iff i idx).mpr hmore), ih _ (by omega), hrest, hk]
      simp
    · have hzero : idx.toNat - i.toNat = 0 := by omega
      rw [if_neg (mt (pickCounter_lt_iff i idx).mp hmore), hzero]
      rfl

/-- The second loop moves the entries back. Induction on the second stack. -/
theorem pickReload_eq {idx : DwarfUnsigned} (hidx : idx.toNat < 2 ^ 32) (t stack : EvalStack)
    {i : BitVec 32} (hi : i.toNat + t.length = idx.toNat) :
    pickReload idx t i stack = some (t.reverse ++ stack) := by
  induction t generalizing i stack with
  | nil =>
    unfold pickReload
    have hdone : ¬i.toNat < idx.toNat := by
      simp only [List.length_nil] at hi
      omega
    rw [if_neg (mt (pickCounter_lt_iff i idx).mp hdone)]
    rfl
  | cons x t ih =>
    unfold pickReload
    have hmore : i.toNat < idx.toNat := by
      simp only [List.length_cons] at hi
      omega
    have hnext := pickCounter_succ hidx hmore
    have hrest : (i + 1).toNat + t.length = idx.toNat := by
      simp only [List.length_cons] at hi
      omega
    rw [if_pos ((pickCounter_lt_iff i idx).mpr hmore), ih _ hrest]
    simp

/-- With an operand below `2 ^ 32` that the stack covers, `DW_OP_pick` copies the
entry with that index to the top. -/
theorem pickOp_eq {idx : DwarfUnsigned} {stack : EvalStack} (hidx : idx.toNat < 2 ^ 32)
    (hlength : idx.toNat < stack.length) :
    pickOp idx stack = some (stack[idx.toNat] :: stack) := by
  have hzero : (0 : BitVec 32).toNat = 0 := rfl
  have hunload : pickUnload idx stack 0 [] =
      some (stack.drop idx.toNat, (stack.take idx.toNat).reverse) := by
    rw [pickUnload_eq hidx _ _ (Nat.zero_le _), hzero, Nat.sub_zero,
      if_pos (Nat.le_of_lt hlength), List.append_nil]
  have hdrop : stack.drop idx.toNat = stack[idx.toNat] :: stack.drop (idx.toNat + 1) :=
    List.drop_eq_getElem_cons hlength
  have hback : pickReload idx (stack.take idx.toNat).reverse 0 (stack.drop idx.toNat) =
      some stack := by
    rw [pickReload_eq hidx _ _ (by simp; omega), List.reverse_reverse, List.take_append_drop]
  unfold pickOp
  rw [hunload, hdrop]
  simp only [← hdrop, hback, Option.map_some]

/-- With an operand from `2 ^ 32` on the first loop never ends by itself: it runs
until the stack is empty. -/
theorem pickUnload_eq_none {idx : DwarfUnsigned} (hidx : 2 ^ 32 ≤ idx.toNat)
    (stack t : EvalStack) (i : BitVec 32) : pickUnload idx stack i t = none := by
  have hmore (i : BitVec 32) : i.setWidth 64 < idx := by
    have hi := i.isLt
    rw [pickCounter_lt_iff]
    omega
  induction stack generalizing i t with
  | nil => rw [pickUnload, if_pos (hmore i)]
  | cons x rest ih => rw [pickUnload, if_pos (hmore i), ih]

/-- An operation without demands on the stack is disciplined if it does not access an
empty one. -/
theorem OpEffect.disciplined_of_needs_eq_zero {effect : OpEffect} {needs : ℕ} {a : DwarfOp}
    {stack : EvalStack} (hneeds : needs = 0) (heffect : effect ≠ .undefined .emptyStack) :
    effect.Disciplined needs a stack where
  noEmptyAccess := heffect
  tooFew hshort := by omega

/-- Pushing the outcome of a provider call does not access the stack. -/
theorem pushOrFail_ne_emptyStack (stack : EvalStack) (failure : EvalResult)
    (v : Option (BitVec 64)) : pushOrFail stack failure v ≠ .undefined .emptyStack := by
  cases v <;> simp [pushOrFail]

/-- No arithmetic operation is undefined because of the stack. -/
theorem pushArith_unaryOp_ne_emptyStack (rest : EvalStack) (op1 : DwarfUnsigned)
    (top : DwarfSigned) (kind : UnaryKind) :
    pushArith rest (unaryOp op1 top kind) ≠ .undefined .emptyStack := by
  cases kind <;> simp only [unaryOp, Arith.signed] <;> (try split) <;> simp [pushArith]

theorem pushArith_binaryOp_ne_emptyStack (rest : EvalStack) (e2 e1 : DwarfSigned)
    (kind : BinaryKind) : pushArith rest (binaryOp e2 e1 kind) ≠ .undefined .emptyStack := by
  cases kind <;> simp only [binaryOp, Arith.signed] <;> (repeat' split) <;> simp [pushArith]

/-- The sum in the check of `DW_OP_pick` wraps around for one operand only. -/
theorem toNat_add_one {x : BitVec 64} (hne : x ≠ BitVec.allOnes 64) :
    (x + 1).toNat = x.toNat + 1 := by
  have hlt := x.isLt
  have hneNat : x.toNat ≠ 2 ^ 64 - 1 := by
    intro heq
    exact hne (BitVec.eq_of_toNat_eq (by rw [heq]; rfl))
  rw [BitVec.toNat_add]
  exact Nat.mod_eq_of_lt (by simp; omega)

/-- `DW_OP_pick` is disciplined exactly on the stacks that its checks suit. -/
theorem pick_disciplined_iff {context : Context} {pc : DwarfAddr} {expr : DwarfExpression}
    {frameBase : Bounded EvalResult} {a : DwarfOp} {stack : EvalStack} (hop : a.opcode = .pick) :
    (execOp context pc expr frameBase a stack).Disciplined (a.needs context) a stack ↔
      a.StackSafe stack := by
  have hrefused (h : stack.length < (a.op1 + 1).toNat) :
      execOp context pc expr frameBase a stack =
        .finish (.error .stackIndexInvalid a.off) stack := by
    simp only [execOp, hop, if_pos h]
  have hpicked (h : ¬stack.length < (a.op1 + 1).toNat) {stack' : EvalStack}
      (hpick : pickOp a.op1 stack = some stack') :
      execOp context pc expr frameBase a stack = .goOn stack' := by
    simp only [execOp, hop, if_neg h, hpick]
  have hstuck (h : ¬stack.length < (a.op1 + 1).toNat) (hpick : pickOp a.op1 stack = none) :
      execOp context pc expr frameBase a stack = .undefined .emptyStack := by
    simp only [execOp, hop, if_neg h, hpick]
  have hneeds : a.needs context = a.op1.toNat + 1 := by simp only [DwarfOp.needs, hop]
  have hsafe : a.StackSafe stack ↔ a.op1.toNat < 2 ^ 32 ∨
      (a.op1 ≠ BitVec.allOnes 64 ∧ stack.length ≤ a.op1.toNat) := by
    simp only [DwarfOp.StackSafe, hop]
  rw [hneeds, hsafe]
  by_cases hsmall : a.op1.toNat < 2 ^ 32
  · have hne : a.op1 ≠ BitVec.allOnes 64 := by
      intro heq
      rw [heq] at hsmall
      exact absurd hsmall (by decide)
    simp only [hsmall, true_or, iff_true]
    by_cases hshort : stack.length < a.op1.toNat + 1
    · rw [hrefused (by rw [toNat_add_one hne]; exact hshort)]
      exact ⟨by simp, fun _ => rfl⟩
    · rw [hpicked (by rw [toNat_add_one hne]; exact hshort) (pickOp_eq hsmall (by omega))]
      exact ⟨by simp, fun h => absurd h hshort⟩
  · have hnone : pickOp a.op1 stack = none := by
      unfold pickOp
      rw [pickUnload_eq_none (by omega)]
    simp only [hsmall, false_or]
    constructor
    · intro hdisc
      have hcheck : stack.length < (a.op1 + 1).toNat := by
        by_contra hpass
        exact hdisc.noEmptyAccess (hstuck hpass hnone)
      have hne : a.op1 ≠ BitVec.allOnes 64 := by
        intro heq
        rw [heq] at hcheck
        exact absurd hcheck (by simp)
      rw [toNat_add_one hne] at hcheck
      exact ⟨hne, by omega⟩
    · rintro ⟨hne, hlength⟩
      rw [hrefused (by rw [toNat_add_one hne]; omega)]
      exact ⟨by simp, fun _ => rfl⟩

/-- The comparisons are disciplined exactly on stacks with two entries. -/
theorem compare_disciplined_iff {context : Context} {pc : DwarfAddr} {expr : DwarfExpression}
    {frameBase : Bounded EvalResult} {a : DwarfOp} {stack : EvalStack} {kind : CompareKind}
    (hop : a.opcode = .compare kind) :
    (execOp context pc expr frameBase a stack).Disciplined (a.needs context) a stack ↔
      a.StackSafe stack := by
  have hsafe : a.StackSafe stack ↔ 2 ≤ stack.length := by simp only [DwarfOp.StackSafe, hop]
  rw [hsafe]
  rcases stack with _ | ⟨e1, _ | ⟨e2, rest⟩⟩
  · simp only [execOp, hop, List.length_nil]
    exact ⟨fun h => absurd rfl h.noEmptyAccess, fun h => absurd h (by omega)⟩
  · simp only [execOp, hop, List.length_singleton]
    exact ⟨fun h => absurd rfl h.noEmptyAccess, fun h => absurd h (by omega)⟩
  · have hneeds : a.needs context = 2 := by simp only [DwarfOp.needs, hop]
    simp only [execOp, hop, hneeds, List.length_cons]
    refine ⟨fun _ => by omega, fun _ => ⟨by simp, fun h => ?_⟩⟩
    simp only [List.length_cons] at h
    omega

/-- Every other operation is disciplined on all stacks. The cases follow the number of
entries that the operation needs. -/
theorem execOp_disciplined_of_checked (context : Context) (pc : DwarfAddr)
    (expr : DwarfExpression) (frameBase : Bounded EvalResult) {a : DwarfOp} (stack : EvalStack)
    (hpick : a.opcode ≠ .pick) (hcompare : ∀ kind, a.opcode ≠ .compare kind) :
    (execOp context pc expr frameBase a stack).Disciplined (a.needs context) a stack := by
  have hpush := pushOrFail_ne_emptyStack stack
  cases hop : a.opcode with
  | pick => exact absurd hop hpick
  | compare kind => exact absurd hop (hcompare kind)
  | dup | drop | bra | stackValue =>
    rcases stack with _ | ⟨x, rest⟩ <;> constructor <;>
      simp [execOp, DwarfOp.needs, hop]
  | unary kind =>
    rcases stack with _ | ⟨x, rest⟩
    · constructor <;> simp [execOp, DwarfOp.needs, hop]
    · constructor <;> simp [execOp, DwarfOp.needs, hop, pushArith_unaryOp_ne_emptyStack]
  | «over» | swap =>
    rcases stack with _ | ⟨x, _ | ⟨y, rest⟩⟩ <;> constructor <;>
      simp [execOp, DwarfOp.needs, hop]
  | binary kind =>
    rcases stack with _ | ⟨x, _ | ⟨y, rest⟩⟩ <;> constructor <;>
      simp [execOp, DwarfOp.needs, hop, pushArith_binaryOp_ne_emptyStack]
  | rot =>
    rcases stack with _ | ⟨x, _ | ⟨y, _ | ⟨z, rest⟩⟩⟩ <;> constructor <;>
      simp [execOp, DwarfOp.needs, hop]
  | deref | derefSize =>
    cases hmemory : context.memory with
    | none => constructor <;> simp [execOp, DwarfOp.needs, hop, hmemory]
    | some memory =>
      rcases stack with _ | ⟨x, rest⟩ <;> constructor <;>
        simp [execOp, DwarfOp.needs, hop, hmemory]
      repeat' split
      all_goals simp
  | reg n | regx =>
    apply OpEffect.disciplined_of_needs_eq_zero (by simp only [DwarfOp.needs, hop])
    simp only [execOp, hop]
    split <;> simp
  | breg n | bregx =>
    apply OpEffect.disciplined_of_needs_eq_zero (by simp only [DwarfOp.needs, hop])
    simp only [execOp, hop]
    exact hpush _ _
  | fbreg =>
    apply OpEffect.disciplined_of_needs_eq_zero (by simp only [DwarfOp.needs, hop])
    simp only [execOp, hop]
    cases context.frameBaseLoc with
    | none => simp
    | some location =>
      rcases frameBase with _ | _ | base
      · simp
      · simp
      · exact hpush _ _
  | callFrameCfa =>
    apply OpEffect.disciplined_of_needs_eq_zero (by simp only [DwarfOp.needs, hop])
    simp only [execOp, hop]
    cases context.cfa with
    | none => simp
    | some cfa =>
      rcases hcfa : cfa pc with _ | _ | addr <;> simp [hcfa]
  | lit n | const kind | skip | nop | missing kind | unnamed =>
    apply OpEffect.disciplined_of_needs_eq_zero (by simp only [DwarfOp.needs, hop])
    simp [execOp, hop]

/-- Every operation is disciplined exactly on the stacks that its checks suit. -/
theorem execOp_disciplined_iff (context : Context) (pc : DwarfAddr) (expr : DwarfExpression)
    (frameBase : Bounded EvalResult) (a : DwarfOp) (stack : EvalStack) :
    (execOp context pc expr frameBase a stack).Disciplined (a.needs context) a stack ↔
      a.StackSafe stack := by
  by_cases hpick : a.opcode = .pick
  · exact pick_disciplined_iff hpick
  by_cases hcompare : ∃ kind, a.opcode = .compare kind
  · obtain ⟨kind, hop⟩ := hcompare
    exact compare_disciplined_iff hop
  · have hchecked := execOp_disciplined_of_checked context pc expr frameBase stack hpick
      fun kind hop => hcompare ⟨kind, hop⟩
    have hsafe : a.StackSafe stack := by
      unfold DwarfOp.StackSafe
      cases hop : a.opcode with
      | pick => exact absurd hop hpick
      | compare kind => exact absurd ⟨kind, hop⟩ hcompare
      | _ => trivial
    exact iff_of_true hchecked hsafe

/-- In the state `s` the loop respects the stack: its operation does not access an empty
stack, and with too few entries `evaluate` returns `stackIndexInvalid` with the offset
of the operation and the stack as it was. -/
def KeepsStackDiscipline (context : Context) (pc : DwarfAddr) (expr : DwarfExpression)
    (s : EvalState) : Prop :=
  ∀ a, expr.ops[s.i]? = some a → ∀ fuel,
    evalStepAt fuel context pc expr s ≠ .halt (.error .emptyStack) ∧
      (s.stack.length < a.needs context →
        evalStepAt fuel context pc expr s =
          .halt (.ok (.error .stackIndexInvalid a.off, s.stack)))

/-- The loop respects the stack in a state exactly when its operation is safe there. -/
theorem keepsStackDiscipline_iff (context : Context) (pc : DwarfAddr) (expr : DwarfExpression)
    (s : EvalState) :
    KeepsStackDiscipline context pc expr s ↔
      ∀ a, expr.ops[s.i]? = some a → a.StackSafe s.stack := by
  unfold KeepsStackDiscipline
  apply forall_congr'
  intro a
  apply imp_congr_right
  intro ha
  constructor
  · intro hkeeps
    obtain ⟨hempty, hfew⟩ := hkeeps 0
    rw [evalStepAt, evalStep_of_getElem ha] at hempty hfew
    rw [← execOp_disciplined_iff context pc expr (frameBaseAt 0 context pc)]
    generalize execOp context pc expr (frameBaseAt 0 context pc) a s.stack = effect
      at hempty hfew ⊢
    refine ⟨?_, fun hshort => ?_⟩
    · rintro rfl
      exact hempty rfl
    · have hhalt := hfew hshort
      cases effect <;> simp_all [OpEffect.advance]
  · intro hsafe fuel
    rw [evalStepAt, evalStep_of_getElem ha]
    have hdisc := (execOp_disciplined_iff context pc expr (frameBaseAt fuel context pc) a
      s.stack).mpr hsafe
    refine ⟨fun hhalt => ?_, fun hshort => ?_⟩
    · have hempty := hdisc.noEmptyAccess
      generalize execOp context pc expr (frameBaseAt fuel context pc) a s.stack = effect
        at hhalt hempty
      cases effect <;> simp_all [OpEffect.advance]
    · rw [hdisc.tooFew hshort]
      rfl

/-- The evaluation never accesses an empty stack, also while it computes the frame base and the
CFA, and it respects the stack in each state of its loop and of those that evaluate the frame
base for it. -/
structure RespectsStack (context : Context) (pc : DwarfAddr) (expr : DwarfExpression)
    (stack : EvalStack) : Prop where
  noEmptyAccess : ∀ cause, Returns (fun fuel => evaluate fuel context pc expr stack)
    (.error cause) → cause.root ≠ .emptyStack
  disciplined : ∀ inner innerStack, MadeBy context pc inner innerStack expr stack →
    ∀ s, Visits context pc inner innerStack s → KeepsStackDiscipline context pc inner s

/-- The checks of the source do not suffice for the operation, or it asks a CFA provider that
accesses an empty stack. -/
def BeyondStack (context : Context) (pc : DwarfAddr) (_ : DwarfExpression) (a : DwarfOp)
    (stack : EvalStack) : Prop :=
  ¬a.StackSafe stack ∨ (a.opcode = .callFrameCfa ∧ CfaRunsInto context pc .emptyStack)

/-- An evaluation respects the stack throughout exactly when in each state of its run, and of
those that evaluate the frame base, a comparison finds two entries, a `DW_OP_pick` has an operand
below `2 ^ 32` or one that its 64-bit check refuses, and a CFA provider that is asked does not
access an empty stack itself. -/
theorem evaluate_stackDiscipline_iff (context : Context) (pc : DwarfAddr)
    (expr : DwarfExpression) (stack : EvalStack) :
    RespectsStack context pc expr stack ↔
      ¬Meets context pc (BeyondStack context pc) expr stack := by
  constructor
  · intro hrespects hmeets
    obtain ⟨inner, innerStack, s, a, hmade, hvisits, ha, hunsafe | ⟨hop, hcfa⟩⟩ :=
      hmeets.exists_madeBy
    · have hkeeps := hrespects.disciplined inner innerStack hmade s hvisits
      exact hunsafe ((keepsStackDiscipline_iff context pc inner s).mp hkeeps a ha)
    · obtain ⟨cause, hroot, hreturns⟩ := hvisits.exists_returns_error_of_cfa ha hop hcfa
      obtain ⟨outer, houter, hfails⟩ := hmade.returns_error hreturns
      exact hrespects.noEmptyAccess outer hfails (houter.trans hroot)
  · intro hnone
    refine ⟨fun cause hreturns hroot => ?_, fun inner innerStack hmade s hvisits => ?_⟩
    · have hmeets := meets_runsInto_of_returns_error hreturns
      rw [hroot] at hmeets
      refine hnone (hmeets.mono fun inner a stack hruns => ?_)
      rcases hruns with ⟨fuel, hundefined⟩ | hcfa
      · refine Or.inl fun hsafe => ?_
        have hdisc := (execOp_disciplined_iff context pc inner (frameBaseAt fuel context pc) a
          stack).mpr hsafe
        exact hdisc.noEmptyAccess hundefined
      · exact Or.inr hcfa
    · rw [keepsStackDiscipline_iff]
      intro a ha
      by_contra hunsafe
      exact hnone (hmade.meets hvisits ha (Or.inl hunsafe))

/-- A single comparison on the empty stack takes entries that are not there. -/
theorem evaluate_compare_emptyStack :
    ¬RespectsStack emptyContext 0 ⟨[⟨.compare .eq, 0, 0, 0, 0⟩]⟩ [] := by
  intro hrespects
  exact hrespects.noEmptyAccess .emptyStack ⟨2, rfl⟩ rfl

end DwarfExpr
