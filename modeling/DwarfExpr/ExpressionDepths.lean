import DwarfExpr.ExpressionLoops
import DwarfExpr.ExpressionStack
import DwarfExpr.Lib.StepMachine

/-!
# The path through an expression

Where the loop of `evaluate` goes on depends on the operation only, also at `DW_OP_bra`, and
each operation changes the depth of the stack by an amount of its own. So all runs of an
expression follow one path, a run that comes to the end does so without coming to a place
twice, and depths that fit the operations along the path are kept in every run.
-/

namespace DwarfExpr

open StepMachine (after)

/-- The operation may be followed by another one. -/
def DwarfOp.GoesOn (a : DwarfOp) : Prop :=
  match a.opcode with
  | .unnamed | .reg _ | .regx | .stackValue | .missing _ => False
  | _ => True

/-- The operation goes on from a jump target. -/
def DwarfOp.jumps (a : DwarfOp) : Bool :=
  match a.opcode with
  | .skip | .bra => true
  | _ => false

/-- The depth of the stack behind the operation, if it is followed by another one. -/
def DwarfOp.depthAfter (a : DwarfOp) (depth : ℕ) : ℕ :=
  match a.opcode with
  | .lit _ | .const _ | .fbreg | .breg _ | .bregx | .callFrameCfa | .dup | .pick | .over =>
    depth + 1
  | .drop | .bra | .binary _ | .compare _ => depth - 1
  | _ => depth

/-- Where the loop goes on behind an operation. -/
def DwarfExpression.nextIndex (expr : DwarfExpression) (a : DwarfOp) (i : ℕ) : ℕ :=
  if a.jumps then expr.jumpIndex a i + 1 else i + 1

/-- Depths for the places of an expression: each operation finds what it needs in any context,
the next one what it has been promised, and the end a result. -/
structure DepthsFit (expr : DwarfExpression) (depth : ℕ → ℕ) : Prop where
  enough : ∀ (context : Context) (i : ℕ) (a : DwarfOp), expr.ops[i]? = some a →
    a.needs context ≤ depth i
  pick : ∀ (i : ℕ) (a : DwarfOp), expr.ops[i]? = some a → a.opcode = .pick → a.op1.toNat < 2 ^ 32
  next : ∀ (i : ℕ) (a : DwarfOp), expr.ops[i]? = some a → a.GoesOn →
    depth (expr.nextIndex a i) ≤ a.depthAfter (depth i)
  result : ∀ i, expr.ops.length ≤ i → 0 < depth i

/-- What an operation that finds what it needs may do: go on with the depth of its own, or end
without lacking an entry. -/
def OpEffect.Keeps (a : DwarfOp) (depth : ℕ) : OpEffect → Prop
  | goOn stack => a.GoesOn ∧ a.jumps = false ∧ stack.length = a.depthAfter depth
  | jump stack => a.GoesOn ∧ a.jumps = true ∧ stack.length = a.depthAfter depth
  | finish result _ => ∀ off, result ≠ .error .stackIndexInvalid off
  | undefined cause => cause ≠ .emptyStack
  | waiting => True

/-- An operation needs most where there is a memory provider. -/
theorem DwarfOp.needs_le_needs (a : DwarfOp) (context : Context) {context' : Context}
    (hmemory : context'.memory ≠ none) : a.needs context ≤ a.needs context' := by
  obtain ⟨memory, hmemory⟩ := Option.ne_none_iff_exists'.mp hmemory
  unfold DwarfOp.needs
  cases a.opcode <;> simp [hmemory] <;> split <;> simp

/-- A deeper stack stays deeper. -/
theorem DwarfOp.depthAfter_mono (a : DwarfOp) {d e : ℕ} (hde : d ≤ e) :
    a.depthAfter d ≤ a.depthAfter e := by
  unfold DwarfOp.depthAfter
  split <;> omega

section

variable {context : Context} {pc : DwarfAddr} {expr : DwarfExpression}
  {frameBase : Bounded EvalResult} {a : DwarfOp} {stack : EvalStack}

/-- An operation that pushes the value of a provider. -/
theorem pushOrFail_keeps {failure : EvalResult} (v : Option (BitVec 64)) (hgoes : a.GoesOn)
    (hjumps : a.jumps = false) (hdepth : a.depthAfter stack.length = stack.length + 1)
    (hfailure : ∀ off, failure ≠ .error .stackIndexInvalid off) :
    (pushOrFail stack failure v).Keeps a stack.length := by
  cases v with
  | none => exact hfailure
  | some v => exact ⟨hgoes, hjumps, by rw [hdepth, List.length_cons]⟩

/-- An arithmetic operation. -/
theorem pushArith_keeps {value : Arith} {rest : EvalStack} {depth : ℕ} (hgoes : a.GoesOn)
    (hjumps : a.jumps = false) (hdepth : a.depthAfter depth = rest.length + 1)
    (hvalue : pushArith rest value ≠ .undefined .emptyStack) :
    (pushArith rest value).Keeps a depth := by
  cases value with
  | exact v => exact ⟨hgoes, hjumps, by rw [hdepth, List.length_cons]⟩
  | wrapped v => exact ⟨hgoes, hjumps, by rw [hdepth, List.length_cons]⟩
  | undefined cause =>
    intro hcause
    rw [hcause] at hvalue
    exact hvalue rfl

/-- An operation that finds what it needs keeps its depth. -/
theorem execOp_keeps (hneeds : a.needs context ≤ stack.length)
    (hpick : a.opcode = .pick → a.op1.toNat < 2 ^ 32) :
    (execOp context pc expr frameBase a stack).Keeps a stack.length := by
  have hlength {n : ℕ} (hn : a.needs context = n) : n ≤ stack.length := hn ▸ hneeds
  cases hop : a.opcode with
  | dup | drop | bra | stackValue =>
    have hone := hlength (by simp only [DwarfOp.needs, hop] : a.needs context = 1)
    obtain ⟨x, rest, rfl⟩ := List.exists_cons_of_length_pos hone
    simp [execOp, OpEffect.Keeps, DwarfOp.GoesOn, DwarfOp.jumps, DwarfOp.depthAfter, hop]
  | «over» | swap =>
    have htwo := hlength (by simp only [DwarfOp.needs, hop] : a.needs context = 2)
    rcases stack with _ | ⟨x, _ | ⟨y, rest⟩⟩
    · simp at htwo
    · simp at htwo
    · simp [execOp, OpEffect.Keeps, DwarfOp.GoesOn, DwarfOp.jumps, DwarfOp.depthAfter, hop]
  | rot =>
    have hthree := hlength (by simp only [DwarfOp.needs, hop] : a.needs context = 3)
    rcases stack with _ | ⟨x, _ | ⟨y, _ | ⟨z, rest⟩⟩⟩
    · simp at hthree
    · simp at hthree
    · simp at hthree
    · simp [execOp, OpEffect.Keeps, DwarfOp.GoesOn, DwarfOp.jumps, DwarfOp.depthAfter, hop]
  | unary kind =>
    have hone := hlength (by simp only [DwarfOp.needs, hop] : a.needs context = 1)
    obtain ⟨x, rest, rfl⟩ := List.exists_cons_of_length_pos hone
    simp only [execOp, hop]
    exact pushArith_keeps (by simp [DwarfOp.GoesOn, hop]) (by simp [DwarfOp.jumps, hop])
      (by simp [DwarfOp.depthAfter, hop]) (pushArith_unaryOp_ne_emptyStack _ _ _ _)
  | binary kind =>
    have htwo := hlength (by simp only [DwarfOp.needs, hop] : a.needs context = 2)
    rcases stack with _ | ⟨x, _ | ⟨y, rest⟩⟩
    · simp at htwo
    · simp at htwo
    · simp only [execOp, hop]
      exact pushArith_keeps (by simp [DwarfOp.GoesOn, hop]) (by simp [DwarfOp.jumps, hop])
        (by simp [DwarfOp.depthAfter, hop]) (pushArith_binaryOp_ne_emptyStack _ _ _ _)
  | compare kind =>
    have htwo := hlength (by simp only [DwarfOp.needs, hop] : a.needs context = 2)
    rcases stack with _ | ⟨x, _ | ⟨y, rest⟩⟩
    · simp at htwo
    · simp at htwo
    · simp [execOp, OpEffect.Keeps, DwarfOp.GoesOn, DwarfOp.jumps, DwarfOp.depthAfter, hop]
  | pick =>
    have hidx := hpick hop
    have hmore := hlength (by simp only [DwarfOp.needs, hop] : a.needs context = a.op1.toNat + 1)
    have hne : a.op1 ≠ BitVec.allOnes 64 := by
      intro heq
      rw [heq] at hidx
      exact absurd hidx (by decide)
    have hcheck : ¬stack.length < (a.op1 + 1).toNat := by
      rw [toNat_add_one hne]
      omega
    simp only [execOp, hop, if_neg hcheck, pickOp_eq hidx hmore]
    simp [OpEffect.Keeps, DwarfOp.GoesOn, DwarfOp.jumps, DwarfOp.depthAfter, hop]
  | deref | derefSize =>
    cases hmemory : context.memory with
    | none => simp [execOp, OpEffect.Keeps, hop, hmemory]
    | some memory =>
      have hone := hlength (by simp [DwarfOp.needs, hop, hmemory] : a.needs context = 1)
      obtain ⟨x, rest, rfl⟩ := List.exists_cons_of_length_pos hone
      simp only [execOp, hop, hmemory]
      repeat' split
      all_goals
        simp [OpEffect.Keeps, DwarfOp.GoesOn, DwarfOp.jumps, DwarfOp.depthAfter, hop]
  | breg n | bregx =>
    simp only [execOp, hop]
    exact pushOrFail_keeps _ (by simp [DwarfOp.GoesOn, hop]) (by simp [DwarfOp.jumps, hop])
      (by simp [DwarfOp.depthAfter, hop]) (by simp)
  | fbreg =>
    simp only [execOp, hop]
    cases context.frameBaseLoc with
    | none => simp [OpEffect.Keeps]
    | some location =>
      rcases frameBase with _ | _ | base
      · trivial
      · simp [OpEffect.Keeps]
      · exact pushOrFail_keeps _ (by simp [DwarfOp.GoesOn, hop]) (by simp [DwarfOp.jumps, hop])
          (by simp [DwarfOp.depthAfter, hop]) (by simp)
  | callFrameCfa =>
    simp only [execOp, hop]
    cases context.cfa with
    | none => simp [OpEffect.Keeps]
    | some cfa =>
      rcases hcfa : cfa pc with _ | _ | addr <;>
        simp [OpEffect.Keeps, DwarfOp.GoesOn, DwarfOp.jumps, DwarfOp.depthAfter, hop, hcfa]
  | reg n | regx =>
    simp only [execOp, hop]
    split <;> simp [OpEffect.Keeps]
  | lit n | const kind | skip | nop | missing kind | unnamed =>
    simp [execOp, OpEffect.Keeps, DwarfOp.GoesOn, DwarfOp.jumps, DwarfOp.depthAfter, hop]

/-- One step of the loop: the next state finds what it has been promised, and the end is not
for the lack of an entry. -/
theorem evalStep_keeps {depth : ℕ → ℕ} (hfit : DepthsFit expr depth) {s : EvalState}
    (hdeep : depth s.i ≤ s.stack.length) :
    (∀ t, evalStep context pc expr frameBase s = .next t → depth t.i ≤ t.stack.length) ∧
      evalStep context pc expr frameBase s ≠ .halt (.error .emptyStack) ∧
      ∀ off final, evalStep context pc expr frameBase s ≠
        .halt (.ok (.error .stackIndexInvalid off, final)) := by
  cases ha : expr.ops[s.i]? with
  | none =>
    have hresult := hfit.result s.i (List.getElem?_eq_none_iff.mp ha)
    obtain ⟨v, rest, hstack⟩ := List.exists_cons_of_length_pos (by omega : 0 < s.stack.length)
    simp [evalStep, ha, endOfLoop, hstack]
  | some a =>
    have hkeeps := @execOp_keeps context pc expr frameBase a s.stack
      ((hfit.enough context s.i a ha).trans hdeep) (hfit.pick s.i a ha)
    have hnext (stack : EvalStack) (hgoes : a.GoesOn)
        (hlength : stack.length = a.depthAfter s.stack.length) :
        depth (expr.nextIndex a s.i) ≤ stack.length :=
      calc
        depth (expr.nextIndex a s.i) ≤ a.depthAfter (depth s.i) := hfit.next s.i a ha hgoes
        _ ≤ a.depthAfter s.stack.length := a.depthAfter_mono hdeep
        _ = stack.length := hlength.symm
    rw [evalStep_of_getElem ha]
    cases heffect : execOp context pc expr frameBase a s.stack with
    | goOn stack =>
      rw [heffect] at hkeeps
      obtain ⟨hgoes, hjumps, hlength⟩ := hkeeps
      have hindex := hnext stack hgoes hlength
      rw [DwarfExpression.nextIndex, hjumps] at hindex
      simpa [OpEffect.advance] using hindex
    | jump stack =>
      rw [heffect] at hkeeps
      obtain ⟨hgoes, hjumps, hlength⟩ := hkeeps
      have hindex := hnext stack hgoes hlength
      rw [DwarfExpression.nextIndex, if_pos hjumps] at hindex
      simpa [OpEffect.advance] using hindex
    | finish result stack =>
      rw [heffect] at hkeeps
      have hresult : ∀ off, result ≠ .error .stackIndexInvalid off := hkeeps
      simpa [OpEffect.advance] using hresult
    | undefined cause =>
      rw [heffect] at hkeeps
      have hcause : cause ≠ .emptyStack := hkeeps
      simpa [OpEffect.advance] using hcause
    | waiting => simp [OpEffect.advance]

end

/-- In a run of an expression with fitting depths every state is as deep as its place says. -/
theorem Visits.depth_le {context : Context} {pc : DwarfAddr} {expr : DwarfExpression}
    {depth : ℕ → ℕ} {stack : EvalStack} {s : EvalState} (hfit : DepthsFit expr depth)
    (hstack : depth 0 ≤ stack.length) (hvisits : Visits context pc expr stack s) :
    depth s.i ≤ s.stack.length := by
  obtain ⟨-, fuel, hreach⟩ := hvisits
  exact hreach.invariant hstack fun s t hs hnext => (evalStep_keeps hfit hs).1 t hnext

/-- The expression of the frame base at the pc has depths that fit from an empty stack on. -/
def Context.FrameBaseFits (context : Context) (pc : DwarfAddr) : Prop :=
  ∀ e, context.frameBaseEntry pc = some e → ∃ depth, DepthsFit e.expr depth ∧ depth 0 = 0

/-- With fitting depths in the frame base as well no empty stack is accessed at any depth of the
evaluation. Induction on the depth. -/
theorem not_meets_emptyStack {context : Context} {pc : DwarfAddr} {expr : DwarfExpression}
    {stack : EvalStack} (hbase : context.FrameBaseFits pc)
    (hcfa : ¬CfaRunsInto context pc .emptyStack)
    (hmeets : Meets context pc (RunsInto context pc .emptyStack) expr stack) {depth : ℕ → ℕ}
    (hfit : DepthsFit expr depth) (hstack : depth 0 ≤ stack.length) : False := by
  induction hmeets generalizing depth with
  | @here expr stack s a hvisits ha hruns =>
    have hdeep := hvisits.depth_le hfit hstack
    rcases hruns with ⟨fuel, hundefined⟩ | ⟨-, hruns⟩
    · have hkeeps := @execOp_keeps context pc expr (frameBaseAt fuel context pc) a s.stack
        ((hfit.enough context s.i a ha).trans hdeep) (hfit.pick s.i a ha)
      rw [hundefined] at hkeeps
      exact hkeeps rfl
    · exact hcfa hruns
  | inFrameBase _ _ _ hentry _ ih =>
    obtain ⟨depth', hfit', hzero⟩ := hbase _ hentry
    exact ih hfit' (by simp [hzero])

/-- An expression with fitting depths never lacks an entry: on every stack that is deep enough
at the beginning, in every context, every state that a run visits is as deep as the depth of
its place says, and no evaluation accesses an empty stack or returns `stackIndexInvalid`. Neither
is an empty stack accessed in the frame base and the CFA, if the depths of the frame base fit and
the CFA provider accesses none. -/
theorem evaluate_within_depths {expr : DwarfExpression} {depth : ℕ → ℕ}
    (hfit : DepthsFit expr depth) (context : Context) (pc : DwarfAddr) {stack : EvalStack}
    (hstack : depth 0 ≤ stack.length) :
    (∀ s, Visits context pc expr stack s → depth s.i ≤ s.stack.length) ∧
      (∀ outcome, Fuel.Returns (fun fuel => evaluate fuel context pc expr stack) outcome →
        outcome ≠ .error .emptyStack ∧
          ∀ off final, outcome ≠ .ok (.error .stackIndexInvalid off, final)) ∧
      (context.FrameBaseFits pc → ¬CfaRunsInto context pc .emptyStack → ∀ cause,
        Fuel.Returns (fun fuel => evaluate fuel context pc expr stack) (.error cause) →
          cause.root ≠ .emptyStack) := by
  refine ⟨fun s hvisits => hvisits.depth_le hfit hstack, ?_, ?_⟩
  · intro outcome hreturns
    by_cases hops : expr.ops = []
    · rw [eq_of_evaluate_of_nil hops hreturns]
      simp
    · obtain ⟨fuel, s, hreach, hhalt⟩ := (evaluate_returns_iff hops).mp hreturns
      have hvisits : Visits context pc expr stack s := ⟨hops, fuel, hreach⟩
      obtain ⟨-, hempty, hindex⟩ := evalStep_keeps hfit (hvisits.depth_le hfit hstack)
      constructor
      · rintro rfl
        exact hempty hhalt
      · rintro off final rfl
        exact hindex off final hhalt
  · intro hbase hcfa cause hreturns hroot
    have hmeets := meets_runsInto_of_returns_error hreturns
    rw [hroot] at hmeets
    exact not_meets_emptyStack hbase hcfa hmeets hfit hstack

/-- The depths of the loop that counts down. -/
theorem depthsFit_countDown : DepthsFit countDown fun i => [0, 1, 2, 1, 2].getD i 1 := by
  have hops {i : ℕ} {a : DwarfOp} (ha : countDown.ops[i]? = some a) : i < 5 :=
    (List.getElem?_eq_some_iff.mp ha).1
  have hplaces : ∀ (i : Fin 5) (a : DwarfOp), countDown.ops[i.val]? = some a →
      a.needs framedContext ≤ [0, 1, 2, 1, 2].getD i.val 1 ∧ a.opcode ≠ .pick ∧
        [0, 1, 2, 1, 2].getD (countDown.nextIndex a i.val) 1 ≤
          a.depthAfter ([0, 1, 2, 1, 2].getD i.val 1) := by
    rintro i a ha
    obtain ⟨hi, rfl⟩ := List.getElem?_eq_some_iff.mp ha
    revert i
    decide
  refine ⟨fun context i a ha => ?_, fun i a ha hpick => ?_,
    fun i a ha _ => (hplaces ⟨i, hops ha⟩ a ha).2.2, fun i hi => ?_⟩
  · exact (a.needs_le_needs context (by simp [framedContext])).trans (hplaces ⟨i, hops ha⟩ a ha).1
  · exact absurd hpick (hplaces ⟨i, hops ha⟩ a ha).2.1
  · have hbehind : [0, 1, 2, 1, 2].length ≤ i := hi
    simp only [List.getD_eq_getElem?_getD, List.getElem?_eq_none hbehind]
    decide

/-- The frame base of the context is the CFA, whose value is pushed on an empty stack. -/
theorem frameBaseFits_framedContext : framedContext.FrameBaseFits 0 := by
  rintro e ⟨⟩
  have honly {i : ℕ} {a : DwarfOp}
      (ha : [{ opcode := .callFrameCfa, off := 0 : DwarfOp }][i]? = some a) :
      i = 0 ∧ a.opcode = .callFrameCfa := by
    cases i with
    | zero =>
      cases ha
      exact ⟨rfl, rfl⟩
    | succ i => cases ha
  refine ⟨fun i => min i 1, ⟨fun context i a ha => ?_, fun i a ha hpick => ?_,
    fun i a ha _ => ?_, fun i hi => Nat.lt_min.mpr ⟨hi, Nat.zero_lt_one⟩⟩, rfl⟩
  · obtain ⟨rfl, hop⟩ := honly ha
    simp [DwarfOp.needs, hop]
  · obtain ⟨-, hop⟩ := honly ha
    rw [hop] at hpick
    cases hpick
  · obtain ⟨rfl, hop⟩ := honly ha
    simp [DwarfOp.depthAfter, DwarfExpression.nextIndex, DwarfOp.jumps, hop]

/-- At no place of the loop an entry is lacking, however often it is run. -/
theorem evaluate_within_depths_countDown :
    (∀ s, Visits framedContext 0 countDown [] s →
        [0, 1, 2, 1, 2].getD s.i 1 ≤ s.stack.length) ∧
      (∀ outcome, Fuel.Returns (fun fuel => evaluate fuel framedContext 0 countDown []) outcome →
        outcome ≠ .error .emptyStack ∧
          ∀ off final, outcome ≠ .ok (.error .stackIndexInvalid off, final)) ∧
      ∀ cause, Fuel.Returns (fun fuel => evaluate fuel framedContext 0 countDown [])
        (.error cause) → cause.root ≠ .emptyStack := by
  obtain ⟨hvisits, houtcome, hnested⟩ :=
    evaluate_within_depths depthsFit_countDown framedContext 0 (Nat.zero_le _)
  refine ⟨hvisits, houtcome, hnested frameBaseFits_framedContext ?_⟩
  rintro ⟨cfa, cause, ⟨⟩, ⟨⟩, -⟩

/-- The place to which the loop goes on from a place. -/
def DwarfExpression.follow (expr : DwarfExpression) (i : ℕ) : ℕ :=
  match expr.ops[i]? with
  | some a => expr.nextIndex a i
  | none => i

/-- The loop goes on at the place that follows. -/
theorem evalStep_follow {context : Context} {pc : DwarfAddr} {expr : DwarfExpression}
    {frameBase : Bounded EvalResult} {s t : EvalState}
    (hstep : evalStep context pc expr frameBase s = .next t) : t.i = expr.follow s.i := by
  obtain ⟨a, ha, -, ⟨hindex, hgoOn⟩ | ⟨hindex, hjump⟩⟩ := evalStep_next_cases hstep
  · have hjumps : a.jumps = false := by
      unfold DwarfOp.jumps
      split
      · next hop => simp [execOp, hop] at hgoOn
      · next hop => cases hstack : s.stack <;> simp [execOp, hop, hstack] at hgoOn
      · rfl
    simp [DwarfExpression.follow, ha, DwarfExpression.nextIndex, hjumps, hindex]
  · have hjumps : a.jumps = true := by
      rcases execOp_jump_iff.mp hjump with ⟨hop, -⟩ | ⟨hop, -⟩ <;> simp [DwarfOp.jumps, hop]
    simp [DwarfExpression.follow, ha, DwarfExpression.nextIndex, hjumps, hindex]

/-- Where the runs of an expression go depends on neither the context nor the stack, and one
that gets behind the last operation does so after at most one pass over the operations. -/
theorem evaluate_path {fuel n : ℕ} {context : Context} {pc : DwarfAddr} {expr : DwarfExpression}
    {stack : EvalStack} {s : EvalState}
    (hafter : after (evalStepAt fuel context pc expr) n (.init stack) = .next s) :
    s.i = expr.follow^[n] 0 ∧ (expr.ops.length ≤ s.i → n ≤ expr.ops.length) := by
  have hplace {k : ℕ} {t : EvalState}
      (ht : after (evalStepAt fuel context pc expr) k (.init stack) = .next t) :
      t.i = expr.follow^[k] 0 :=
    StepMachine.after_eq_iterate (fun _ _ hstep => evalStep_follow hstep) ht
  refine ⟨hplace hafter, fun hend => ?_⟩
  apply @StepMachine.le_of_iterate_leaves expr.follow _ _ 0
  · intro k hk
    obtain ⟨t, ht, u, hu⟩ := StepMachine.exists_of_after_lt hk hafter
    rw [← hplace ht]
    obtain ⟨a, ha, -⟩ := evalStep_next_cases hu
    exact (List.getElem?_eq_some_iff.mp ha).1
  · rwa [← hplace hafter]

/-- After the first pass the example is behind its first operation. -/
theorem evaluate_path_countDown : countDown.follow^[5] 0 = 1 := by
  have hafter : after (evalStepAt 0 emptyContext 0 countDown) 5 (.init []) =
      .next ⟨1, 4, [2]⟩ := by rfl
  exact (evaluate_path hafter).1.symm

end DwarfExpr
