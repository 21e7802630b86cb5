import DwarfExpr.FrameBaseRecursion
import DwarfExpr.MemoryRegions
import DwarfExpr.VariableValues

/-!
# Variables on the captured stack

Most locals live at a fixed offset from the frame base, and the frame base is most often the
CFA. For such a variable everything that `dwarf2line` puts together is followed to the end:
the CFA of `GetCfa`, the nested evaluation of the frame base, the location of the variable,
the check of `memory_provider` and the text that is printed.
-/

namespace DwarfExpr

open Fuel (Returns)
open InputStream (slice)

/-- The bytes that `memory_provider` hands out for a request, as far as they belong to the
stack memory. -/
def stackMemoryProvider (dwarfContext : Option DwarfContext) : MemoryProvider := fun addr size =>
  (memoryProvider dwarfContext addr (.ofNat 64 size)).map MemoryView.bytes

/-- `expr_ctx` of `main` before its CFA provider is set. -/
def exprContext (dwarfContext : Option DwarfContext) (cuLowAddr cuHighAddr : DwarfAddr)
    (frameBaseLoc : Option DwarfLocation) : Context where
  cuLowAddr := cuLowAddr
  cuHighAddr := cuHighAddr
  frameBaseLoc := frameBaseLoc
  registers := some (registerProvider dwarfContext)
  memory := some (stackMemoryProvider dwarfContext)
  cfa := none

instance (frame : DwarfContextFrame) (addr size : BitVec 64) : Decidable (frame.Covers addr size) :=
  inferInstanceAs (Decidable (AddressRange.Covers _ _ _ _))

/-- The bytes of the stack memory of a frame at an address. -/
def DwarfContextFrame.bytesAt (frame : DwarfContextFrame) (addr : DwarfAddr)
    (size : DwarfUnsigned) : List UInt8 :=
  slice frame.stackMemory (addr.toNat - frame.stackBase.toNat) size.toNat

/-- What ought to be printed for a variable of the type at an address: the bytes of the stack
memory if it has them all, else the address. The address zero and a type without a size
print like a null pointer or a zero. -/
def DwarfContextFrame.shown (frame : DwarfContextFrame) (type : DwarfType) (addr : DwarfAddr) :
    ShownValue :=
  if addr = 0 ∨ type.size = maxSize then
    ⟨if type.tag = .pointerType then "nullptr" else "0", none⟩
  else if frame.Covers addr type.size then
    let bytes := frame.bytesAt addr type.size
    let ptrVal := LittleEndian.decode bytes
    ⟨if type.tag ≠ .pointerType then hexstring bytes
      else if ptrVal = 0 then "nullptr" else "0x" ++ hexNumber ptrVal, some bytes⟩
  else ⟨"unknown(addr=" ++ hexNumber addr.toNat ++ ")", none⟩

/-- The stack memory of the frame ends within the address space, and its length fits the
32-bit size of `memory_provider`. -/
structure DwarfContextFrame.InAddressSpace (frame : DwarfContextFrame) : Prop where
  length : frame.stackMemory.length < 2 ^ 32
  top : frame.stackBase.toNat + frame.stackMemory.length < 2 ^ 64

section

variable {dwarfContext : Option DwarfContext} {frame : DwarfContextFrame}
  {addr : DwarfAddr}

/-- The evaluator reads exactly the bytes that the stack memory has. -/
theorem stackMemoryProvider_eq (hframe : getFirstThreadFrame dwarfContext = some frame)
    (hspace : frame.InAddressSpace) {size : DwarfUnsigned} (hends : ¬frame.Overruns addr size) :
    stackMemoryProvider dwarfContext addr size.toNat =
      if frame.Covers addr size then some (frame.bytesAt addr size) else none := by
  have htop := hspace.top
  obtain ⟨hiff, hbytes⟩ := (memoryProviderExact_iff hframe hspace.length addr size).mpr
    ⟨fun _ => hends, fun hwraps => absurd htop (by omega)⟩
  unfold stackMemoryProvider
  rw [BitVec.ofNat_toNat, BitVec.setWidth_eq]
  cases hview : memoryProvider dwarfContext addr size with
  | none =>
    have hnot : ¬frame.Covers addr size := by
      intro hcovers
      have hsome := hiff.mpr hcovers
      rw [hview] at hsome
      cases hsome
    rw [if_neg hnot, Option.map_none]
  | some view =>
    have hcovers : frame.Covers addr size := hiff.mp (by rw [hview]; rfl)
    rw [if_pos hcovers, Option.map_some, (hbytes view hview).1]
    rfl

/-- At an address `dwarf2line` prints what ought to be printed. -/
theorem evalValueAtLoc_on_stack (hframe : getFirstThreadFrame dwarfContext = some frame)
    (hspace : frame.InAddressSpace) {type : DwarfType}
    (hpointer : type.tag = .pointerType → type.size = 8)
    (hends : ¬frame.Overruns addr type.size) (behind : List UInt8) :
    DwarfVar.evalValueAtLoc behind type addr (some (stackMemoryProvider dwarfContext)) =
      .ok (frame.shown type addr) := by
  unfold DwarfVar.evalValueAtLoc DwarfContextFrame.shown
  by_cases haddr : addr = 0
  · rw [if_neg (not_not_intro haddr), if_pos (Or.inl haddr)]
    rfl
  by_cases hsize : type.size = maxSize
  · rw [if_pos haddr, if_neg (not_not_intro hsize), if_pos (Or.inr hsize)]
    rfl
  have hneither : ¬(addr = 0 ∨ type.size = maxSize) := by tauto
  rw [if_pos haddr, if_pos hsize, if_neg hneither]
  simp only [stackMemoryProvider_eq hframe hspace hends]
  by_cases hcovers : frame.Covers addr type.size
  · have hlength : (frame.bytesAt addr type.size).length = type.size.toNat := by
      obtain ⟨hle, -, hend⟩ := hcovers
      exact InputStream.length_slice (by omega)
    simp only [if_pos hcovers, DwarfVar.formatValue]
    by_cases htag : type.tag = .pointerType
    · rw [hpointer htag] at hlength ⊢
      have height : (frame.bytesAt addr 8).length = 8 := hlength
      have htake : (frame.bytesAt addr 8 ++ behind).take 8 = frame.bytesAt addr 8 :=
        List.take_left' height
      simp only [if_pos htag, if_neg (not_not_intro htag), htake, height]
      rfl
    · have htake : (frame.bytesAt addr type.size).take
          (min (frame.bytesAt addr type.size).length type.size.toNat) =
            frame.bytesAt addr type.size := List.take_of_length_le (by omega)
      simp only [if_neg htag, if_pos htag, if_neg hsize, htake]
      rfl
  · rw [if_neg hcovers, if_neg hcovers]

end

/-- The frame base of the context evaluates to an address or a value at the pc. -/
def Context.FrameBaseIs (context : Context) (pc base : DwarfAddr) : Prop :=
  ∃ fuel result, frameBaseAt fuel context pc = some (.ok result) ∧ result.validValue = some base

/-- The expression of a single operation. -/
def DwarfExpression.single (opcode : Opcode) (op1 : DwarfUnsigned) : DwarfExpression :=
  ⟨[{ opcode := opcode, op1 := op1, off := 0 }]⟩

section

variable {context : Context} {pc base : DwarfAddr} {dbg : FrameSections}

/-- The frame base `DW_OP_call_frame_cfa` is what `GetCfa` returns. -/
theorem frameBaseIs_of_callFrameCfa {e : LocationExpression}
    (hentry : context.frameBaseEntry pc = some e) (hexpr : e.expr = .single .callFrameCfa 0)
    (hcfa : Returns (getCfa dbg context.bound pc) (.ok base)) :
    (exprCtx dbg context).FrameBaseIs pc base := by
  have hlimit : Fuel.limit (getCfa dbg context.bound pc) = some (.ok base) :=
    (getCfa_settles dbg context.bound pc).limit_eq_some_iff.mpr hcfa
  have hentry' : (exprCtx dbg context).frameBaseEntry pc = some e := hentry
  have hrun : evaluate 3 (exprCtx dbg context) pc e.expr [] =
      some (.ok (.address base, [base])) := by
    rw [hexpr, evaluate_succ (by simp [DwarfExpression.single])]
    simp [StepMachine.runFor, evalStepAt, evalStep, DwarfExpression.single, EvalState.init,
      execOp, exprCtx, Context.withCfa, hlimit, OpEffect.advance, endOfLoop]
  refine ⟨3, .address base, ?_, rfl⟩
  simp only [frameBaseAt_eq, hentry', hrun, Option.map_some]
  rfl

/-- The location `DW_OP_fbreg` is an address at its offset from the frame base. -/
theorem evaluate_fbreg (hbase : context.FrameBaseIs pc base) (off : DwarfUnsigned) :
    Returns (fun fuel => evaluate fuel context pc (.single .fbreg off) [])
      (.ok (.address (base + off), [base + off])) := by
  obtain ⟨fuel, result, hresult, hvalid⟩ := hbase
  have hloc : context.frameBaseLoc ≠ none := by
    intro hnone
    rw [frameBaseAt_eq, Context.frameBaseEntry, hnone] at hresult
    cases hresult
    cases hvalid
  obtain ⟨location, hlocation⟩ := Option.ne_none_iff_exists'.mp hloc
  refine ⟨max fuel 2 + 1, ?_⟩
  have hresult' : frameBaseAt (max fuel 2) context pc = some (.ok result) :=
    (frameBaseAt_settles context pc).eq_some (Nat.le_max_left _ _) hresult
  obtain ⟨n, hn⟩ : ∃ n, max fuel 2 = n + 2 := ⟨max fuel 2 - 2, by omega⟩
  simp only [evaluate_succ (by simp [DwarfExpression.single] :
    (DwarfExpression.single .fbreg off).ops ≠ []), hn]
  rw [hn] at hresult'
  simp [StepMachine.runFor, evalStepAt, evalStep, DwarfExpression.single, EvalState.init, execOp,
    hlocation, hresult', hvalid, pushOrFail, OpEffect.advance, endOfLoop]

/-- The entry of the variable's location list for the pc is `DW_OP_fbreg`. -/
def DwarfVar.FbregAt (var : DwarfVar) (context : Context) (pc : DwarfAddr)
    (off : DwarfUnsigned) : Prop :=
  ∃ location e, var.location = some location ∧
    location.exprs.find? (context.accepts pc) = some e ∧ e.expr = .single .fbreg off

/-- Such a variable is located at its offset from the frame base. -/
theorem DwarfVar.FbregAt.locates {var : DwarfVar} {off : DwarfUnsigned}
    (hvar : var.FbregAt context pc off) (hbase : context.FrameBaseIs pc base) :
    var.Locates context pc (.address (base + off)) := by
  obtain ⟨location, e, hlocation, hfind, hexpr⟩ := hvar
  obtain ⟨fuel, hrun⟩ := evaluate_fbreg hbase off
  refine ⟨location, hlocation, fuel, ?_⟩
  have hrun' : evaluate fuel context pc e.expr [] =
      some (.ok (.address (base + off), [base + off])) := by rw [hexpr]; exact hrun
  simp only [DwarfLocation.evalValue, DwarfLocation.select_eq_find?, hfind, hrun',
    Option.map_some]
  rfl

end

/-- The text for a located variable is the one for its location. -/
theorem DwarfVar.Locates.returns_iff {context : Context} {pc : DwarfAddr} {var : DwarfVar}
    {result : EvalResult} {behind : List UInt8} {right shown : ShownValue}
    (hlocates : var.Locates context pc result)
    (hright : var.shownAt behind context result = .ok right) :
    Returns (fun fuel => var.evalValue behind fuel context pc) (.ok shown) ↔ shown = right := by
  rw [returns_evalValue_iff]
  constructor
  · rintro (⟨hnone, -⟩ | ⟨other, hother, htext⟩)
    · obtain ⟨location, hlocation, -⟩ := hlocates
      rw [hnone] at hlocation
      cases hlocation
    · rw [hother.unique hlocates, hright] at htext
      exact (Except.ok.inj htext).symm
  · rintro rfl
    exact Or.inr ⟨_, hlocates, hright⟩

/-- A variable at an offset from the CFA prints as the bytes of the captured stack at that
place say, and in no other way: with a loaded context and a function whose frame base is the
CFA, whatever `GetCfa` answers, the only text for the variable is that of the stack memory
from the CFA plus the offset on, or that the memory there is not known. -/
theorem DwarfVar.shown_on_stack_iff {dbg : FrameSections} {dwarfContext : Option DwarfContext}
    {frame : DwarfContextFrame} {cuLowAddr cuHighAddr pc cfa : DwarfAddr}
    {frameBaseLoc : Option DwarfLocation} {e : LocationExpression} {info : DebugInfo}
    {offset : DwarfOff} {var : DwarfVar} {off : DwarfUnsigned} {behind : List UInt8}
    {shown : ShownValue}
    (hframe : getFirstThreadFrame dwarfContext = some frame) (hspace : frame.InAddressSpace)
    (hbase : (exprContext dwarfContext cuLowAddr cuHighAddr frameBaseLoc).frameBaseEntry pc =
      some e)
    (hcall : e.expr = .single .callFrameCfa 0)
    (hcfa : Returns (getCfa dbg
      (exprContext dwarfContext cuLowAddr cuHighAddr frameBaseLoc).bound pc) (.ok cfa))
    (hload : DwarfVar.Loads info offset var)
    (hvar : var.FbregAt (exprContext dwarfContext cuLowAddr cuHighAddr frameBaseLoc) pc off)
    (hends : ¬frame.Overruns (cfa + off) var.type.size) :
    Returns (fun fuel => var.evalValue behind fuel
        (exprCtx dbg (exprContext dwarfContext cuLowAddr cuHighAddr frameBaseLoc)) pc)
        (.ok shown) ↔ shown = frame.shown var.type (cfa + off) := by
  obtain ⟨fuel, hload⟩ := hload
  obtain ⟨-, typeRef, htype⟩ := DwarfVar.type_of_load hload
  have hpointer := DwarfType.size_of_load htype
  set context := exprContext dwarfContext cuLowAddr cuHighAddr frameBaseLoc
  have hfbreg : var.FbregAt (exprCtx dbg context) pc off := hvar
  have hlocates := hfbreg.locates (frameBaseIs_of_callFrameCfa hbase hcall hcfa)
  exact hlocates.returns_iff (evalValueAtLoc_on_stack hframe hspace hpointer hends behind)

/-- A captured stack of 32 numbered bytes from `0x7000` on, and eight registers that point to
it. -/
def numberedFrame : DwarfContextFrame :=
  ⟨.zero 4, [], List.replicate 8 0x7000, (RawObject.zero 8).store 0 [0, 0x70],
    (List.range 32).map UInt8.ofNat⟩

/-- The location list of one operation without a range. -/
def everywhere (opcode : Opcode) (op1 : DwarfUnsigned) : DwarfLocation :=
  ⟨[⟨0, 0, .single opcode op1⟩]⟩

/-- An `int` eight bytes below the CFA: a variable at offset 1 with its type. -/
def localInt : DebugInfo := fun offset =>
  if offset = 1 then
    some ⟨.ok .variable, .ok "n", none, none, some 2,
      some ⟨.ok .exprloc,
        .ok [.ok ⟨⟨false, 0, maxDwarfAddr, [.ok { opcode := .fbreg, op1 := -8, off := 0 }]⟩,
          .startEnd⟩], .noEntry⟩⟩
  else if offset = 2 then some ⟨.ok .baseType, .ok "int", none, some 4, none, none⟩
  else none

/-- The loaded variable. -/
def localIntVar : DwarfVar :=
  ⟨1, .variable, "n", .plain .baseType 4 "int",
    some ⟨[⟨0, maxDwarfAddr, .single .fbreg (-8)⟩]⟩⟩

theorem DwarfVar.shown_on_stack_iff_localInt :
    Returns (fun fuel => localIntVar.evalValue [] fuel (exprCtx prologueFrames (exprContext
        (some (oneFrameContext numberedFrame)) 0 0 (some (everywhere .callFrameCfa 0)))) 0x1000)
      (.ok ⟨"08 09 0a 0b ", some [8, 9, 10, 11]⟩) := by
  have hcfa : Returns (getCfa prologueFrames (exprContext (some (oneFrameContext numberedFrame))
      0 0 (some (everywhere .callFrameCfa 0))).bound 0x1000) (.ok 0x7010) := ⟨3, by decide⟩
  have hload : localIntVar.Loads localInt 1 := ⟨5, rfl⟩
  refine (shown_on_stack_iff rfl ⟨by decide, by decide⟩ rfl rfl hcfa hload
    ⟨_, _, rfl, rfl, rfl⟩ ?_).mpr ?_
  · unfold DwarfContextFrame.Overruns AddressRange.Overruns
    decide
  · decide

end DwarfExpr
