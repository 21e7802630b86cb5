import Mathlib.Data.Int.Notation
import Mathlib.Algebra.Group.Nat.Defs
import DwarfExpr.Lib.InputStream
import DwarfExpr.Lib.RawObject

/-!
# Dwarf context files

The file is written by the minidump convertor, in Python, and read by
`load_dwarf_context_file`, in C++. Both are modelled here as the sources have them; the
reader also gets the indeterminate memory that it meets, since it takes the function name
for a C string without having terminated it.
-/

namespace DwarfExpr

/-- `struct.pack("<L", v)`, which raises an error for a value out of range. -/
def packL (v : ℤ) : Option (List UInt8) :=
  if 0 ≤ v ∧ v < 2 ^ 32 then some (LittleEndian.encode 4 v.toNat) else none

/-- `struct.pack("<Q", v)`. -/
def packQ (v : ℤ) : Option (List UInt8) :=
  if 0 ≤ v ∧ v < 2 ^ 64 then some (LittleEndian.encode 8 v.toNat) else none

/-- A frame of the convertor. -/
structure ConvertorFrame where
  num : ℤ
  func : String
  regs : List ℤ
  stackBaseAddr : ℤ
  stack : List UInt8
  deriving DecidableEq, Repr

/-- A thread of the convertor. -/
structure ConvertorThread where
  tid : ℤ
  crashed : Bool
  frames : List ConvertorFrame
  deriving DecidableEq, Repr

/-- `f['func'].encode("utf-8")`. -/
def ConvertorFrame.funcB (f : ConvertorFrame) : List UInt8 := f.func.toUTF8.data.toList

/-- The loop of the writer over the registers. -/
def writeRegs : List ℤ → Option (List UInt8)
  | [] => some []
  | r :: rest => do
    let reg ← packQ r
    let rest ← writeRegs rest
    return reg ++ rest

/-- What the writer writes for a frame. -/
def writeFrame (f : ConvertorFrame) : Option (List UInt8) := do
  let num ← packL f.num
  let funcLen ← packL f.funcB.length
  let regsSize ← packL f.regs.length
  let regs ← writeRegs f.regs
  let stackBaseAddr ← packQ f.stackBaseAddr
  let stackSize ← packL f.stack.length
  return num ++ funcLen ++ f.funcB ++ regsSize ++ regs ++ stackBaseAddr ++ stackSize ++ f.stack

/-- The loop of the writer over the frames of a thread. -/
def writeFrames : List ConvertorFrame → Option (List UInt8)
  | [] => some []
  | f :: rest => do
    let frame ← writeFrame f
    let rest ← writeFrames rest
    return frame ++ rest

/-- What the writer writes for a thread. -/
def writeThread (t : ConvertorThread) : Option (List UInt8) := do
  let tid ← packL t.tid
  let crashed ← packL t.crashed.toInt
  let framesSize ← packL t.frames.length
  let frames ← writeFrames t.frames
  return tid ++ crashed ++ framesSize ++ frames

/-- The loop of the writer over the threads from an index on, up to the limit. -/
def writeThreads (limit : ℤ) : ℕ → List ConvertorThread → Option (List UInt8)
  | _, [] => some []
  | tidx, t :: rest =>
    if limit ≠ -1 ∧ tidx ≥ limit then some []
    else do
      let thread ← writeThread t
      let rest ← writeThreads limit (tidx + 1) rest
      return thread ++ rest

/-- The file that the convertor writes, unless a value does not fit its field. -/
def writeContextFile (threads : List ConvertorThread) (limit : ℤ) : Option (List UInt8) := do
  let threadsSize ← packL (if limit ≠ -1 then min threads.length limit else threads.length)
  let threads ← writeThreads limit 0 threads
  return [0x44, 0x57, 0x46, 0x43] ++ LittleEndian.encode 2 1 ++ LittleEndian.encode 2 1 ++
    threadsSize ++ threads

/-- `DwarfContextFrame`. -/
structure DwarfContextFrame where
  frameNum : RawObject 4
  frameFunc : List UInt8
  regs : List ℕ
  stackMemoryBaseAddr : RawObject 8
  stackMemory : List UInt8
  deriving DecidableEq, Repr

/-- `DwarfContextThreadHeader`. -/
abbrev DwarfContextThreadHeader := RawObject 12

/-- `DwarfContextThreadHeader::tid`. -/
def DwarfContextThreadHeader.tid (h : DwarfContextThreadHeader) : ℕ := h.word 0 4

/-- `DwarfContextThreadHeader::crashed`. -/
def DwarfContextThreadHeader.crashed (h : DwarfContextThreadHeader) : ℕ := h.word 4 4

/-- `DwarfContextThreadHeader::frames_size`. -/
def DwarfContextThreadHeader.framesSize (h : DwarfContextThreadHeader) : ℕ := h.word 8 4

/-- `DwarfContextThread`. -/
structure DwarfContextThread where
  header : DwarfContextThreadHeader
  frames : List DwarfContextFrame
  deriving DecidableEq, Repr

/-- `DwarfContextHeader`. -/
abbrev DwarfContextHeader := RawObject 12

/-- `DwarfContextHeader::magic`. -/
def DwarfContextHeader.magic (h : DwarfContextHeader) : List UInt8 := h.part 0 4

/-- `DwarfContextHeader::threads_size`. -/
def DwarfContextHeader.threadsSize (h : DwarfContextHeader) : ℕ := h.word 8 4

/-- `DwarfContext`. -/
structure DwarfContext where
  header : DwarfContextHeader
  threads : List DwarfContextThread
  deriving DecidableEq, Repr

/-- The indeterminate memory met while a frame is read: the uninitialized locals, and what
is accessible from the start of the buffer that `malloc` returns. -/
structure FrameMemory where
  frameFuncLen : RawObject 4
  regsSize : RawObject 4
  reg : ℕ → RawObject 8
  stackMemorySize : RawObject 4
  heap : List UInt8

/-- `std::vector::resize`. -/
def resize {α : Type} (n : ℕ) (fill : α) (v : List α) : List α :=
  v.take n ++ List.replicate (n - v.length) fill

/-- The C string at the start of accessible memory; `none` if no null byte ends it. -/
def cString (memory : List UInt8) : Option (List UInt8) :=
  if 0 ∈ memory then some (memory.takeWhile (· ≠ 0)) else none

/-- The loop of the reader over the registers, from an index on. -/
def readRegs (reg : ℕ → RawObject 8) : ℕ → ℕ → InputStream → List ℕ × InputStream
  | _, 0, file => ([], file)
  | x, remaining + 1, file =>
    let (got, file) := file.read 8
    let value := ((reg x).store 0 got).word 0 8
    let (rest, file) := readRegs reg (x + 1) remaining file
    (value :: rest, file)

/-- The body of the loop over the frames; `none` if the process crashes. `malloc` is taken
to succeed. -/
def readFrame (memory : FrameMemory) (frame : DwarfContextFrame) (file : InputStream) :
    Option (DwarfContextFrame × InputStream) :=
  let (got, file) := file.read 4
  let frameNum := frame.frameNum.store 0 got
  let (got, file) := file.read 4
  let frameFuncLen := (memory.frameFuncLen.store 0 got).word 0 4
  let (got, file) := file.read frameFuncLen
  match cString (got ++ memory.heap.drop got.length) with
  | none => none
  | some frameFunc =>
    let (got, file) := file.read 4
    let regsSize := (memory.regsSize.store 0 got).word 0 4
    let (regs, file) := readRegs memory.reg 0 regsSize file
    let (got, file) := file.read 8
    let stackMemoryBaseAddr := frame.stackMemoryBaseAddr.store 0 got
    let (got, file) := file.read 4
    let stackMemorySize := (memory.stackMemorySize.store 0 got).word 0 4
    let stackMemory := resize stackMemorySize 0 frame.stackMemory
    let (got, file) := file.read stackMemorySize
    some ({
      frameNum := frameNum
      frameFunc := frameFunc
      regs := frame.regs ++ regs
      stackMemoryBaseAddr := stackMemoryBaseAddr
      stackMemory := got ++ stackMemory.drop got.length }, file)

/-- The loop of the reader over the frames, from an index on. -/
def readFrames (memory : ℕ → FrameMemory) :
    ℕ → List DwarfContextFrame → InputStream → Option (List DwarfContextFrame × InputStream)
  | _, [], file => some ([], file)
  | l, frame :: rest, file =>
    match readFrame (memory l) frame file with
    | none => none
    | some (frame, file) =>
      match readFrames memory (l + 1) rest file with
      | none => none
      | some (rest, file) => some (frame :: rest, file)

/-- A value-initialized frame. -/
def DwarfContextFrame.zero : DwarfContextFrame := ⟨.zero 4, [], [], .zero 8, []⟩

/-- The body of the loop over the threads. -/
def readThread (memory : ℕ → FrameMemory) (thread : DwarfContextThread) (file : InputStream) :
    Option (DwarfContextThread × InputStream) :=
  let (got, file) := file.read 12
  let header : DwarfContextThreadHeader := thread.header.store 0 got
  match readFrames memory 0 (resize header.framesSize .zero thread.frames) file with
  | none => none
  | some (frames, file) => some (⟨header, frames⟩, file)

/-- The loop of the reader over the threads, from an index on. -/
def readThreads (memory : ℕ → ℕ → FrameMemory) :
    ℕ → List DwarfContextThread → InputStream → Option (List DwarfContextThread × InputStream)
  | _, [], file => some ([], file)
  | i, thread :: rest, file =>
    match readThread (memory i) thread file with
    | none => none
    | some (thread, file) =>
      match readThreads memory (i + 1) rest file with
      | none => none
      | some (rest, file) => some (thread :: rest, file)

/-- A value-initialized thread. -/
def DwarfContextThread.zero : DwarfContextThread := ⟨.zero 12, []⟩

/-- `static_cast<size_t>` of a file position, which is -1 or below `2 ^ 63`. -/
def sizeOfPos (pos : ℤ) : ℕ := if pos < 0 then (pos + 2 ^ 64).toNat else pos.toNat

/-- `load_dwarf_context_file` on an opened file. The memory is indexed by thread and frame. -/
def loadDwarfContextFile (memory : ℕ → ℕ → FrameMemory) (file : InputStream)
    (ctx : DwarfContext) : Option (Bool × DwarfContext) :=
  let file := file.seekgEnd
  let fileSize := file.tellg
  let file := file.seekg 0
  if sizeOfPos fileSize < 12 then some (false, ctx)
  else
    let (got, file) := file.read 12
    let header : DwarfContextHeader := ctx.header.store 0 got
    if header.magic ≠ [0x44, 0x57, 0x46, 0x43] then some (false, { ctx with header := header })
    else
      (readThreads memory 0 (resize header.threadsSize .zero ctx.threads) file).map
        fun (threads, _) => (true, ⟨header, threads⟩)

end DwarfExpr
