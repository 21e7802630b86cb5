import DwarfExpr.NestedEvaluations

/-!
# Failures of the providers

`evaluate` asks for registers, memory, the frame base and the CFA. A register or memory
provider fails by answering `false`, a frame base by an invalid result, and the CFA
provider by the address `MAX_DWARF_ADDR`. All failures end the evaluation with an error
except the last, which is pushed like any other address.
-/

namespace DwarfExpr

open Fuel (Returns)

/-- The frame base of the context evaluates to an invalid result. -/
def FrameBaseInvalid (context : Context) (pc : DwarfAddr) : Prop :=
  ∃ code addr, Returns (fun fuel => frameBaseAt fuel context pc) (.ok (.error code addr))

/-- The CFA provider of the context answers with the failure value. -/
def CfaFails (context : Context) (pc : DwarfAddr) : Prop :=
  ∃ cfa, context.cfa = some cfa ∧ cfa pc = some (.ok maxDwarfAddr)

/-- The operation consults a provider that reports failure. -/
inductive LookupFails (context : Context) (pc : DwarfAddr) (expr : DwarfExpression)
    (a : DwarfOp) : EvalStack → Prop
  | register {stack : EvalStack} {registers : RegisterProvider} {n : ℕ}
      (hasks : a.registerNumber expr = some n) (hprovider : context.registers = some registers)
      (hfails : registers n = none) : LookupFails context pc expr a stack
  | memory {rest : EvalStack} {memory : MemoryProvider} {adr : DwarfSigned}
      (hop : a.opcode = .deref) (hprovider : context.memory = some memory)
      (hfails : memory adr 8 = none) : LookupFails context pc expr a (adr :: rest)
  | memorySize {rest : EvalStack} {memory : MemoryProvider} {adr : DwarfSigned}
      (hop : a.opcode = .derefSize) (hsize : a.op1 ≠ 0 ∧ a.op1.toNat ≤ 8)
      (hprovider : context.memory = some memory) (hfails : memory adr a.op1.toNat = none) :
      LookupFails context pc expr a (adr :: rest)
  | frameBase {stack : EvalStack} (hop : a.opcode = .fbreg) (hloc : context.frameBaseLoc ≠ none)
      (hfails : FrameBaseInvalid context pc) : LookupFails context pc expr a stack
  | cfa {stack : EvalStack} (hop : a.opcode = .callFrameCfa) (hfails : CfaFails context pc) :
      LookupFails context pc expr a stack

/-- `DW_OP_call_frame_cfa` gets the failure value. -/
def CfaLookupFails (context : Context) (pc : DwarfAddr) (a : DwarfOp) : Prop :=
  a.opcode = .callFrameCfa ∧ CfaFails context pc

/-- The evaluation consults a provider that reports failure. -/
def MeetsFailure (context : Context) (pc : DwarfAddr) : DwarfExpression → EvalStack → Prop :=
  Meets context pc (LookupFails context pc)

/-- The evaluation gets the failure value of the CFA provider. -/
def MeetsCfaFailure (context : Context) (pc : DwarfAddr) : DwarfExpression → EvalStack → Prop :=
  Meets context pc fun _ a _ => CfaLookupFails context pc a

/-- A failure surfaces: the evaluation returns an invalid result. -/
def Surfaces (context : Context) (pc : DwarfAddr) (expr : DwarfExpression) (stack : EvalStack) :
    Prop :=
  MeetsFailure context pc expr stack →
    ∃ code addr stack', Returns (fun fuel => evaluate fuel context pc expr stack)
      (.ok (.error code addr, stack'))

/-- With the CFA provider left aside, a failed lookup ends the evaluation with an error. -/
theorem execOp_of_lookupFails {context : Context} {pc : DwarfAddr} {expr : DwarfExpression}
    {a : DwarfOp} {stack : EvalStack} (hfails : LookupFails context pc expr a stack)
    (hcfa : ¬CfaLookupFails context pc a) :
    ∃ fuel code stack', execOp context pc expr (frameBaseAt fuel context pc) a stack =
      .finish (.error code a.off) stack' := by
  cases hfails with
  | register hasks hprovider hfails =>
    refine ⟨0, .registerInvalid, stack, execOp_of_register_none hasks ?_⟩
    simp only [Context.register, hprovider, Option.bind_some, hfails]
  | @memory rest memory adr hop hprovider hfails =>
    refine ⟨0, .memoryInvalid, rest, ?_⟩
    simp only [execOp, hop, hprovider, readMemory, hfails, if_true]
  | @memorySize rest memory adr hop hsize hprovider hfails =>
    refine ⟨0, .memoryInvalid, rest, ?_⟩
    have hchecked : ¬(decide (a.op1.toNat > 8) || decide (a.op1 = 0)) = true := by
      simp only [Bool.or_eq_true, decide_eq_true_eq, not_or]
      exact ⟨by omega, hsize.1⟩
    simp only [execOp, hop, hprovider, hfails]
    rw [if_neg hchecked]
  | frameBase hop hloc hfails =>
    obtain ⟨location, hlocation⟩ := Option.ne_none_iff_exists'.mp hloc
    obtain ⟨code, addr, fuel, hbase⟩ := hfails
    refine ⟨fuel, .frameBaseInvalid, stack, ?_⟩
    simp only [execOp, hop, hlocation, hbase, EvalResult.validValue, Option.map_none, pushOrFail]
  | cfa hop hfails => exact absurd ⟨hop, hfails⟩ hcfa

/-- A frame base whose entry evaluates to an error is invalid. -/
theorem frameBaseInvalid_of_entry {context : Context} {pc : DwarfAddr} {e : LocationExpression}
    (hentry : context.frameBaseEntry pc = some e) {code : ErrorCode} {addr : BitVec 64}
    {stack : EvalStack}
    (herror : Returns (fun fuel => evaluate fuel context pc e.expr [])
      (.ok (.error code addr, stack))) : FrameBaseInvalid context pc := by
  obtain ⟨fuel, hfuel⟩ := herror
  have hfuel' : evaluate fuel context pc e.expr [] = some (.ok (.error code addr, stack)) := hfuel
  refine ⟨code, addr, fuel, ?_⟩
  simp only [frameBaseAt_eq, hentry, hfuel', Option.map_some]
  rfl

/-- In an evaluation that does not get the failure value of the CFA provider every
failure surfaces. Induction on the depth at which the failure is met. -/
theorem surfaces_of_not_meetsCfaFailure {context : Context} {pc : DwarfAddr}
    {expr : DwarfExpression} {stack : EvalStack}
    (hcfa : ¬MeetsCfaFailure context pc expr stack) : Surfaces context pc expr stack := by
  intro hmeets
  induction hmeets with
  | @here expr stack s a hvisits ha hfails =>
    obtain ⟨fuel, code, stack', hfinish⟩ := execOp_of_lookupFails hfails
      fun hfails' => hcfa (.here hvisits ha hfails')
    exact ⟨code, a.off, stack', hvisits.returns_of_finish ha hfinish⟩
  | @inFrameBase expr stack s a e hvisits ha hop hentry _ ih =>
    obtain ⟨code, addr, stack', herror⟩ :=
      ih fun hnested => hcfa (.inFrameBase hvisits ha hop hentry hnested)
    have hfails : LookupFails context pc expr a s.stack :=
      .frameBase hop (frameBaseLoc_ne_none hentry) (frameBaseInvalid_of_entry hentry herror)
    obtain ⟨fuel, code', stack'', hfinish⟩ := execOp_of_lookupFails hfails (by
      rintro ⟨hop', _⟩
      rw [hop] at hop'
      cases hop')
    exact ⟨code', a.off, stack'', hvisits.returns_of_finish ha hfinish⟩

/-- The expression that only asks for the CFA. -/
def onlyCfa : DwarfExpression := ⟨[⟨.callFrameCfa, 0, 0, 0, 0⟩]⟩

/-- The failure value of the CFA provider comes back as a valid address. -/
theorem onlyCfa_not_surfaces {context : Context} {pc : DwarfAddr} (hfails : CfaFails context pc) :
    ¬Surfaces context pc onlyCfa [] := by
  intro hsurfaces
  have hvisits : Visits context pc onlyCfa [] (.init []) := .init (by simp [onlyCfa]) []
  obtain ⟨code, addr, stack', herror⟩ := hsurfaces (.here hvisits rfl (.cfa rfl hfails))
  obtain ⟨cfa, hprovider, hanswer⟩ := hfails
  have haddress : evaluate 3 context pc onlyCfa [] =
      some (.ok (.address maxDwarfAddr, [maxDwarfAddr])) := by
    rw [evaluate_succ (by simp [onlyCfa])]
    simp [StepMachine.runFor, evalStepAt, evalStep, onlyCfa, EvalState.init, execOp, hprovider,
      hanswer, OpEffect.advance, endOfLoop]
  have hsame := (evaluate_settles context pc onlyCfa []).unique herror ⟨3, haddress⟩
  cases hsame

/-- Failures of the providers surface in every run that does not get `MAX_DWARF_ADDR`
from the CFA provider; they do so for all expressions at a pc exactly when the provider
does not answer that at the pc. -/
theorem evaluate_surfaces_iff (context : Context) (pc : DwarfAddr) :
    (∀ expr stack, ¬MeetsCfaFailure context pc expr stack → Surfaces context pc expr stack) ∧
      ((∀ expr stack, Surfaces context pc expr stack) ↔ ¬CfaFails context pc) := by
  refine ⟨fun expr stack => surfaces_of_not_meetsCfaFailure, ?_, ?_⟩
  · intro hsurfaces hfails
    exact onlyCfa_not_surfaces hfails (hsurfaces onlyCfa [])
  · intro hfails expr stack
    apply surfaces_of_not_meetsCfaFailure
    intro hmeets
    induction hmeets with
    | here _ _ hholds => exact hfails hholds.2
    | inFrameBase _ _ _ _ _ ih => exact ih

/-- The context that `GetCfa` serves for a file without frame sections. -/
def framelessContext : Context :=
  { emptyContext with cfa := some fun pc => getCfa ⟨.noEntry, .noEntry⟩ emptyContext pc 0 }

/-- Without frame sections the expression `DW_OP_call_frame_cfa` is a valid address. -/
theorem framelessContext_not_surfaces : ¬Surfaces framelessContext 0 onlyCfa [] :=
  onlyCfa_not_surfaces ⟨_, rfl, rfl⟩

end DwarfExpr
