import DwarfExpr.ContextFile
import DwarfExpr.Expression
import DwarfExpr.Lib.AddressRange

/-!
# The providers of dwarf2line

`dwarf2line` evaluates expressions in the first frame of the first thread of a loaded
context: its registers answer by their position in the list, and its stack memory is the
only memory there is. The vectors of a loaded context have the lengths that its headers
give.
-/

namespace DwarfExpr

/-- `getFirstThreadFrame`. -/
def getFirstThreadFrame (context : Option DwarfContext) : Option DwarfContextFrame :=
  match context with
  | none => none
  | some context =>
    if 0 < DwarfContextHeader.threadsSize context.header then
      match context.threads[0]? with
      | none => none
      | some thread =>
        if 0 < DwarfContextThreadHeader.framesSize thread.header then thread.frames[0]? else none
    else none

/-- `register_provider`. The size of the list is taken for a signed 32-bit number. -/
def registerProvider (context : Option DwarfContext) : RegisterProvider := fun regNum =>
  match getFirstThreadFrame context with
  | none => none
  | some frame =>
    if 0 ≤ regNum ∧ regNum < (BitVec.ofNat 32 frame.regs.length).toInt then
      frame.regs[regNum.toNat]?.map (BitVec.ofNat 64)
    else none

/-- The memory that a provider hands out: where in the stack memory its buffer starts, and
its size. -/
structure MemoryView where
  stackMemory : List UInt8
  offset : BitVec 64
  size : BitVec 64
  deriving DecidableEq, Repr

/-- The bytes of the buffer that belong to the stack memory. -/
def MemoryView.bytes (v : MemoryView) : List UInt8 :=
  InputStream.slice v.stackMemory v.offset.toNat v.size.toNat

/-- The base address of the stack memory of a frame. -/
def DwarfContextFrame.stackBase (frame : DwarfContextFrame) : BitVec 64 :=
  .ofNat 64 (frame.stackMemoryBaseAddr.word 0 8)

/-- `memory_provider`. Without a frame the range is empty. -/
def memoryProvider (context : Option DwarfContext) (addr size : BitVec 64) : Option MemoryView :=
  let (stackMemoryBaseAddr, stackMemory) : BitVec 64 × List UInt8 :=
    match getFirstThreadFrame context with
    | some frame => (frame.stackBase, frame.stackMemory)
    | none => (0, [])
  let stackMemorySize : BitVec 32 := .ofNat 32 stackMemory.length
  let startAddr := stackMemoryBaseAddr
  let endAddr := stackMemoryBaseAddr + stackMemorySize.setWidth 64
  if startAddr ≤ addr && addr < endAddr && addr + size ≤ endAddr then
    some ⟨stackMemory, addr - startAddr, size⟩
  else none

end DwarfExpr
