import DwarfExpr.LocationLists
import DwarfExpr.VariableValues
import DwarfExpr.Lib.Simulation

/-!
# Contexts that know more

One context extends another if its providers give every answer that the other's give.
Whatever evaluates to a valid address or value in a context evaluates to the same in every
context that extends it: a captured stack with more bytes or a frame with more registers
turns errors into values and never a value into another. The provider of the CFA is left
alone, since it reports its failures as an address.
-/

namespace DwarfExpr

open StepMachine (Step Follows)
open Fuel (Returns)

/-- The providers of the second context give every answer of those of the first. -/
structure Context.ExtendedBy (context context' : Context) : Prop where
  cuLowAddr : context'.cuLowAddr = context.cuLowAddr
  cuHighAddr : context'.cuHighAddr = context.cuHighAddr
  frameBaseLoc : ∀ location, context.frameBaseLoc = some location →
    context'.frameBaseLoc = some location
  registers : ∀ registers, context.registers = some registers →
    ∃ registers', context'.registers = some registers' ∧
      ∀ regNum v, registers regNum = some v → registers' regNum = some v
  memory : ∀ memory, context.memory = some memory →
    ∃ memory', context'.memory = some memory' ∧
      ∀ addr size buf, memory addr size = some buf → memory' addr size = some buf
  cfa : ∀ cfa, context.cfa = some cfa → context'.cfa = some cfa

/-- The evaluation yields neither an address nor a value. -/
def EvalOutcome.Fruitless : EvalOutcome → Prop
  | .ok (result, _) => result.validValue = none
  | .error _ => True

/-- The effect ends the evaluation without an address or a value. -/
def OpEffect.Fruitless : OpEffect → Prop
  | finish result _ => result.validValue = none
  | undefined _ => True
  | _ => False

/-- A frame base that is not valid. -/
def FrameBaseFruitless : Bounded EvalResult → Prop
  | some (.ok result) => result.validValue = none
  | some (.error _) => True
  | none => False

variable {context context' : Context} {pc : DwarfAddr} {expr : DwarfExpression}
  {frameBase frameBase' : Bounded EvalResult}

/-- A register that is known stays known. -/
theorem Context.ExtendedBy.register (hextended : context.ExtendedBy context') {n : ℕ}
    {v : BitVec 64} (hv : context.register n = some v) : context'.register n = some v := by
  unfold Context.register at hv ⊢
  obtain ⟨registers, hregisters, hanswer⟩ := Option.bind_eq_some_iff.mp hv
  obtain ⟨registers', hregisters', hmore⟩ := hextended.registers registers hregisters
  rw [hregisters', Option.bind_some, hmore _ _ hanswer]

/-- The same entries of a location list are accepted. -/
theorem Context.ExtendedBy.accepts_eq (hextended : context.ExtendedBy context') :
    context'.accepts = context.accepts := by
  funext pc e
  simp only [Context.accepts, hextended.cuLowAddr, hextended.cuHighAddr]

/-- An entry of the frame base stays the one that is evaluated. -/
theorem Context.ExtendedBy.frameBaseEntry (hextended : context.ExtendedBy context')
    {e : LocationExpression} (hentry : context.frameBaseEntry pc = some e) :
    context'.frameBaseEntry pc = some e := by
  unfold Context.frameBaseEntry at hentry ⊢
  obtain ⟨location, hlocation, hfind⟩ := Option.bind_eq_some_iff.mp hentry
  rw [hextended.frameBaseLoc location hlocation, Option.bind_some, hextended.accepts_eq, hfind]

/-- What is pushed from a known answer is pushed from the answers of a context that knows
more. -/
theorem pushOrFail_extended {answer answer' : Option (BitVec 64)}
    (hmore : ∀ v, answer = some v → answer' = some v) (stack : EvalStack) (code : ErrorCode)
    (off : BitVec 64) :
    (pushOrFail stack (.error code off) answer).Fruitless ∨
      pushOrFail stack (.error code off) answer' = pushOrFail stack (.error code off) answer := by
  cases answer with
  | none => exact Or.inl rfl
  | some v => exact Or.inr (by rw [hmore v rfl])

/-- An operation that reads memory has the same effect in a context that knows more. -/
theorem Context.ExtendedBy.execOp_memory (hextended : context.ExtendedBy context') {a : DwarfOp}
    (hop : a.opcode = .deref ∨ a.opcode = .derefSize) (stack : EvalStack) :
    (execOp context pc expr frameBase a stack).Fruitless ∨
      execOp context' pc expr frameBase' a stack = execOp context pc expr frameBase a stack := by
  cases hmemory : context.memory with
  | none =>
    left
    rcases hop with hop | hop <;> simp only [execOp, hop, hmemory] <;> rfl
  | some memory =>
    obtain ⟨memory', hmemory', hmore⟩ := hextended.memory memory hmemory
    rcases stack with _ | ⟨adr, rest⟩
    · left
      rcases hop with hop | hop <;> simp only [execOp, hop, hmemory] <;> rfl
    rcases hop with hop | hop
    · cases hbuf : memory adr 8 with
      | none =>
        left
        simp only [execOp, hop, hmemory, readMemory, hbuf, if_true]
        rfl
      | some buf =>
        right
        simp only [execOp, hop, hmemory, hmemory', readMemory, hbuf, hmore _ _ _ hbuf]
    · by_cases hopd : (a.op1.toNat > 8 || a.op1 = 0) = true
      · left
        simp only [execOp, hop, hmemory, if_pos hopd]
        rfl
      · cases hbuf : memory adr a.op1.toNat with
        | none =>
          left
          simp only [execOp, hop, hmemory, if_neg hopd, hbuf]
          rfl
        | some buf =>
          right
          simp only [execOp, hop, hmemory, hmemory', if_neg hopd, hbuf, hmore _ _ _ hbuf]

/-- An operation has the same effect in a context that knows more, unless it ends the
evaluation with an error for want of an answer. -/
theorem Context.ExtendedBy.execOp_eq (hextended : context.ExtendedBy context')
    (hbase : FrameBaseFruitless frameBase ∨ frameBase' = frameBase) (a : DwarfOp)
    (stack : EvalStack) :
    (execOp context pc expr frameBase a stack).Fruitless ∨
      execOp context' pc expr frameBase' a stack =
        execOp context pc expr frameBase a stack := by
  cases hop : a.opcode with
  | deref => exact hextended.execOp_memory (Or.inl hop) stack
  | derefSize => exact hextended.execOp_memory (Or.inr hop) stack
  | reg n =>
    cases hv : context.register n with
    | none =>
      left
      simp only [execOp, hop, hv]
      rfl
    | some v =>
      right
      simp only [execOp, hop, hv, hextended.register hv]
  | regx =>
    cases hv : context.register ((expr.ops.head?.getD a).op1.setWidth 16).toNat with
    | none =>
      left
      simp only [execOp, hop, hv]
      rfl
    | some v =>
      right
      simp only [execOp, hop, hv, hextended.register hv]
  | breg n | bregx =>
    simp only [execOp, hop]
    apply pushOrFail_extended
    intro v hv
    obtain ⟨base, hbase, rfl⟩ := Option.map_eq_some_iff.mp hv
    rw [hextended.register hbase, Option.map_some]
  | fbreg =>
    cases hloc : context.frameBaseLoc with
    | none =>
      left
      simp only [execOp, hop, hloc]
      rfl
    | some location =>
      have hloc' := hextended.frameBaseLoc location hloc
      rcases hbase with hfruitless | rfl
      · left
        rcases frameBase with _ | _ | base
        · exact hfruitless.elim
        · simp only [execOp, hop, hloc]
          trivial
        · have hnone : base.validValue = none := hfruitless
          simp only [execOp, hop, hloc, hnone, Option.map_none]
          rfl
      · right
        simp only [execOp, hop, hloc, hloc']
  | callFrameCfa =>
    cases hcfa : context.cfa with
    | none =>
      left
      simp only [execOp, hop, hcfa]
      rfl
    | some cfa =>
      right
      simp only [execOp, hop, hcfa, hextended.cfa cfa hcfa]
  | _ =>
    right
    simp only [execOp, hop]

/-- The loop makes the same steps in a context that knows more, unless it ends without an
address or a value. -/
theorem Context.ExtendedBy.evalStep_follows (hextended : context.ExtendedBy context')
    (hbase : FrameBaseFruitless frameBase ∨ frameBase' = frameBase) :
    Follows EvalOutcome.Fruitless id id (evalStep context pc expr frameBase)
      (evalStep context' pc expr frameBase') := by
  intro s
  cases ha : expr.ops[s.i]? with
  | none =>
    right
    simp only [id_eq, evalStep, ha]
    rfl
  | some a =>
    rw [id_eq, evalStep_of_getElem ha, evalStep_of_getElem ha]
    rcases hextended.execOp_eq hbase a s.stack with hfruitless | hsame
    · left
      generalize execOp context pc expr frameBase a s.stack = effect at hfruitless
      cases effect with
      | finish result stack => exact ⟨_, rfl, hfruitless⟩
      | undefined cause => exact ⟨_, rfl, hfruitless⟩
      | goOn stack | jump stack | waiting => exact hfruitless.elim
    · right
      rw [hsame]
      cases execOp context pc expr frameBase a s.stack <;> rfl

/-- With the same fuel, an evaluation in a context that knows more returns the same, unless
the evaluation in the smaller context yields neither an address nor a value. Induction on
the fuel, for the frame base. -/
theorem Context.ExtendedBy.evaluate_eq (hextended : context.ExtendedBy context') (fuel : ℕ)
    (expr : DwarfExpression) (stack : EvalStack) :
    (∃ outcome, evaluate fuel context pc expr stack = some outcome ∧ outcome.Fruitless) ∨
      evaluate fuel context' pc expr stack = evaluate fuel context pc expr stack := by
  induction fuel generalizing expr stack with
  | zero => exact Or.inr rfl
  | succ fuel ih =>
    by_cases hops : expr.ops = []
    · right
      rw [evaluate_of_nil hops, evaluate_of_nil hops]
    rw [evaluate_succ hops, evaluate_succ hops]
    have hbase : FrameBaseFruitless (frameBaseAt fuel context pc) ∨
        frameBaseAt fuel context' pc = frameBaseAt fuel context pc := by
      rw [frameBaseAt_eq, frameBaseAt_eq]
      cases hentry : context.frameBaseEntry pc with
      | none => exact Or.inl rfl
      | some e =>
        rw [hextended.frameBaseEntry hentry]
        rcases ih e.expr [] with ⟨outcome, hrun, hfruitless⟩ | hsame
        · left
          simp only [hrun, Option.map_some]
          cases outcome <;> exact hfruitless
        · right
          simp only [hsame]
    simpa [evalStepAt] using (hextended.evalStep_follows hbase).runFor fuel (.init stack)

/-- A location that evaluates to an address or a value evaluates to the same in a context
that knows more. -/
theorem Context.ExtendedBy.evalValue_eq (hextended : context.ExtendedBy context') {fuel : ℕ}
    {location : DwarfLocation} {result : EvalResult}
    (hvalue : location.evalValue fuel context pc = some (.ok result))
    (hvalid : result.validValue ≠ none) :
    location.evalValue fuel context' pc = some (.ok result) := by
  unfold DwarfLocation.evalValue at hvalue ⊢
  rw [DwarfLocation.select_eq_find?] at hvalue ⊢
  rw [hextended.accepts_eq]
  cases hfind : location.exprs.find? (context.accepts pc) with
  | none =>
    rw [hfind] at hvalue
    cases hvalue
    exact absurd rfl hvalid
  | some e =>
    simp only [hfind] at hvalue ⊢
    obtain ⟨outcome, hrun, houtcome⟩ := Option.map_eq_some_iff.mp hvalue
    rcases outcome with cause | ⟨found, stack⟩
    · cases houtcome
    obtain rfl : found = result := Except.ok.inj houtcome
    rcases hextended.evaluate_eq fuel e.expr [] with ⟨outcome, hrun', hfruitless⟩ | hsame
    · obtain rfl := Option.some.inj (hrun'.symm.trans hrun)
      exact absurd hfruitless hvalid
    · rw [hsame, hrun]
      rfl

/-- A text of `evalValue` that says that the value is not known. -/
def ShownValue.Unknown (shown : ShownValue) : Prop := "unknown".toList <+: shown.text.toList

/-- What lies behind eight bytes or more of a pointer is not read, and for another type what
lies behind any buffer. -/
theorem DwarfVar.formatValue_behind {type : DwarfType} {buf : List UInt8}
    (hlong : type.tag = .pointerType → 8 ≤ buf.length) (behind behind' : List UInt8) :
    formatValue behind type (some buf) = formatValue behind' type (some buf) := by
  by_cases htag : type.tag = .pointerType
  · have hbuf (behind : List UInt8) : (buf ++ behind).take 8 = buf.take 8 :=
      List.take_append_of_le_length (hlong htag)
    simp only [formatValue, if_pos htag, hbuf]
  · simp only [formatValue, if_neg htag]

/-- What is shown at an address is shown in every context that knows more, unless it is that
the value is unknown. -/
theorem Context.ExtendedBy.evalValueAtLoc_eq (hextended : context.ExtendedBy context')
    {behind behind' : List UInt8} {type : DwarfType} {addr : DwarfAddr} {shown : ShownValue}
    (hsize : type.tag = .pointerType → type.size = 8)
    (hexact : ∀ size buf, context.Delivers addr size buf → buf.length = size)
    (hshown : DwarfVar.evalValueAtLoc behind type addr context.memory = .ok shown)
    (hknown : ¬shown.Unknown) :
    DwarfVar.evalValueAtLoc behind' type addr context'.memory = .ok shown := by
  unfold DwarfVar.evalValueAtLoc at hshown ⊢
  by_cases haddr : addr ≠ 0
  · by_cases hsizeKnown : type.size ≠ maxSize
    · rw [if_pos haddr, if_pos hsizeKnown] at hshown ⊢
      cases hmemory : context.memory with
      | none => simp [hmemory] at hshown
      | some memory =>
        obtain ⟨memory', hmemory', hmore⟩ := hextended.memory memory hmemory
        simp only [hmemory, hmemory'] at hshown ⊢
        cases hread : memory addr type.size.toNat with
        | none =>
          simp only [hread, Except.ok.injEq] at hshown
          refine absurd ?_ hknown
          rw [← hshown]
          exact ⟨"(addr=".toList ++ (hexNumber addr.toNat).toList ++ ")".toList, by simp⟩
        | some buf =>
          simp only [hread, hmore _ _ _ hread] at hshown ⊢
          have hlength := hexact _ buf ⟨memory, hmemory, hread⟩
          rw [DwarfVar.formatValue_behind _ behind' behind]
          · exact hshown
          · intro htag
            rw [hsize htag] at hlength
            exact Nat.le_of_eq hlength.symm
    · rw [if_pos haddr, if_neg hsizeKnown] at hshown ⊢
      exact hshown
  · rw [if_neg haddr] at hshown ⊢
    exact hshown

/-- Everything that is printed for a variable of a loaded type, except that it is unknown, is
printed in every context that knows more, provided that the memory of the smaller context
delivers as many bytes as are asked for. What lies behind the delivered bytes does not
matter. -/
theorem DwarfVar.evalValue_extended {behind behind' : List UInt8} {info : DebugInfo}
    {offset : DwarfOff} {var : DwarfVar} {shown : ShownValue}
    (hload : DwarfVar.Loads info offset var) (hextended : context.ExtendedBy context')
    (hexact : ∀ addr size buf, context.Delivers addr size buf → buf.length = size)
    (hshown : Returns (fun fuel => var.evalValue behind fuel context pc) (.ok shown))
    (hknown : ¬shown.Unknown) :
    Returns (fun fuel => var.evalValue behind' fuel context' pc) (.ok shown) := by
  obtain ⟨fuel, hload⟩ := hload
  obtain ⟨-, typeRef, htype⟩ := DwarfVar.type_of_load hload
  have hsize := DwarfType.size_of_load htype
  rw [returns_evalValue_iff] at hshown ⊢
  rcases hshown with ⟨-, rfl⟩ | ⟨result, ⟨location, hlocation, fuel, hvalue⟩, hresult⟩
  · exact absurd ⟨[], rfl⟩ hknown
  right
  have hlocates (hvalid : result.validValue ≠ none) : var.Locates context' pc result :=
    ⟨location, hlocation, fuel, hextended.evalValue_eq hvalue hvalid⟩
  cases result with
  | error code addr =>
    cases hresult
    exact absurd ⟨[], rfl⟩ hknown
  | value value =>
    refine ⟨_, hlocates (Option.some_ne_none value), ?_⟩
    rw [← hresult, shownAt, shownAt, formatValue_behind _ behind' behind]
    intro
    simp
  | address addr =>
    exact ⟨_, hlocates (Option.some_ne_none addr),
      hextended.evalValueAtLoc_eq hsize (hexact addr) hresult hknown⟩

/-- The context of the byte one with a register besides. -/
def onesAndRegister : Context := { onesContext with registers := some fun _ => some 0 }

theorem onesContext_extendedBy : onesContext.ExtendedBy onesAndRegister where
  cuLowAddr := rfl
  cuHighAddr := rfl
  frameBaseLoc _ h := h
  registers _ h := by cases h
  memory memory h := ⟨memory, h, fun _ _ _ => id⟩
  cfa _ h := h

theorem DwarfVar.evalValue_extended_pointerAt :
    Returns (fun fuel => (pointerVar 0x1000).evalValue [] fuel onesAndRegister 0)
      (.ok ⟨"0x101010101010101", some (List.replicate 8 1)⟩) := by
  have hload : (pointerVar 0x1000).Loads (pointerAt 0x1000) 1 := ⟨5, rfl⟩
  refine @evalValue_extended onesContext onesAndRegister 0 [] [] _ _ _ _ hload
    onesContext_extendedBy ?_ ⟨5, by decide⟩ ?_
  · rintro addr size buf ⟨memory, hmemory, hread⟩
    cases hmemory
    cases hread
    exact List.length_replicate
  · unfold ShownValue.Unknown
    decide

end DwarfExpr
