import Mathlib.Data.List.Forall2
import Mathlib.Data.List.TakeWhile
import DwarfExpr.ContextFile

/-!
# Reading back a context file

Everything the convertor writes for a frame is length-prefixed, so the reader never loses
its place, and every field but the function name comes back as it was written. The name
comes back only if it has no null byte and the byte behind its buffer happens to be one.
-/

namespace DwarfExpr

open InputStream (Ahead)

/-- The fields of a frame fit their widths. -/
structure ConvertorFrame.Fits (f : ConvertorFrame) : Prop where
  num : 0 ≤ f.num ∧ f.num < 2 ^ 32
  func : f.funcB.length < 2 ^ 32
  regsSize : f.regs.length < 2 ^ 32
  regs : ∀ r ∈ f.regs, 0 ≤ r ∧ r < 2 ^ 64
  stackBaseAddr : 0 ≤ f.stackBaseAddr ∧ f.stackBaseAddr < 2 ^ 64
  stackSize : f.stack.length < 2 ^ 32

/-- The fields of a thread fit their widths. -/
structure ConvertorThread.Fits (t : ConvertorThread) : Prop where
  tid : 0 ≤ t.tid ∧ t.tid < 2 ^ 32
  framesSize : t.frames.length < 2 ^ 32
  frames : ∀ f ∈ t.frames, f.Fits

/-- The bytes of a frame in the file. -/
def ConvertorFrame.bytes (f : ConvertorFrame) : List UInt8 :=
  LittleEndian.encode 4 f.num.toNat ++ (LittleEndian.encode 4 f.funcB.length ++ (f.funcB ++
    (LittleEndian.encode 4 f.regs.length ++
      (f.regs.flatMap (fun r => LittleEndian.encode 8 r.toNat) ++
        (LittleEndian.encode 8 f.stackBaseAddr.toNat ++
          (LittleEndian.encode 4 f.stack.length ++ f.stack))))))

/-- The bytes of a thread in the file. -/
def ConvertorThread.bytes (t : ConvertorThread) : List UInt8 :=
  (LittleEndian.encode 4 t.tid.toNat ++ LittleEndian.encode 4 t.crashed.toNat ++
    LittleEndian.encode 4 t.frames.length) ++ t.frames.flatMap ConvertorFrame.bytes

/-- The threads that a limit leaves: all for -1. -/
def limitThreads (threads : List ConvertorThread) (limit : ℤ) : List ConvertorThread :=
  if limit = -1 then threads else threads.take limit.toNat

/-- A number is packed exactly when it fits. -/
theorem packL_eq_some_iff {v : ℤ} {bytes : List UInt8} :
    packL v = some bytes ↔ (0 ≤ v ∧ v < 2 ^ 32) ∧ bytes = LittleEndian.encode 4 v.toNat := by
  unfold packL
  split <;> simp_all [eq_comm]

theorem packQ_eq_some_iff {v : ℤ} {bytes : List UInt8} :
    packQ v = some bytes ↔ (0 ≤ v ∧ v < 2 ^ 64) ∧ bytes = LittleEndian.encode 8 v.toNat := by
  unfold packQ
  split <;> simp_all [eq_comm]

theorem writeRegs_eq_some_iff {regs : List ℤ} {bytes : List UInt8} :
    writeRegs regs = some bytes ↔ (∀ r ∈ regs, 0 ≤ r ∧ r < 2 ^ 64) ∧
      bytes = regs.flatMap fun r => LittleEndian.encode 8 r.toNat := by
  induction regs generalizing bytes with
  | nil => simp [writeRegs, eq_comm]
  | cons r rest ih =>
    simp only [writeRegs, Option.bind_eq_bind, Option.bind_eq_some_iff, packQ_eq_some_iff, ih,
      List.forall_mem_cons, List.flatMap_cons]
    constructor
    · rintro ⟨reg, ⟨hr, rfl⟩, more, ⟨hrest, rfl⟩, hbytes⟩
      exact ⟨⟨hr, hrest⟩, (Option.some.inj hbytes).symm⟩
    · rintro ⟨⟨hr, hrest⟩, rfl⟩
      exact ⟨_, ⟨hr, rfl⟩, _, ⟨hrest, rfl⟩, rfl⟩

/-- A frame is written exactly when its fields fit. -/
theorem writeFrame_eq_some_iff {f : ConvertorFrame} {bytes : List UInt8} :
    writeFrame f = some bytes ↔ f.Fits ∧ bytes = f.bytes := by
  have hnat (n : ℕ) : (0 ≤ (n : ℤ) ∧ (n : ℤ) < 2 ^ 32) ↔ n < 2 ^ 32 := by omega
  simp only [writeFrame, Option.bind_eq_bind, Option.bind_eq_some_iff, packL_eq_some_iff,
    packQ_eq_some_iff, writeRegs_eq_some_iff, hnat, Int.toNat_natCast]
  constructor
  · rintro ⟨_, ⟨hnum, rfl⟩, _, ⟨hfunc, rfl⟩, _, ⟨hregsSize, rfl⟩, _, ⟨hregs, rfl⟩, _,
      ⟨hbase, rfl⟩, _, ⟨hstack, rfl⟩, hbytes⟩
    refine ⟨⟨hnum, hfunc, hregsSize, hregs, hbase, hstack⟩, ?_⟩
    rw [← Option.some.inj hbytes]
    simp only [ConvertorFrame.bytes, List.append_assoc]
  · rintro ⟨⟨hnum, hfunc, hregsSize, hregs, hbase, hstack⟩, rfl⟩
    refine ⟨_, ⟨hnum, rfl⟩, _, ⟨hfunc, rfl⟩, _, ⟨hregsSize, rfl⟩, _, ⟨hregs, rfl⟩, _,
      ⟨hbase, rfl⟩, _, ⟨hstack, rfl⟩, ?_⟩
    simp only [ConvertorFrame.bytes, List.append_assoc]
    rfl

theorem writeFrames_eq_some_iff {frames : List ConvertorFrame} {bytes : List UInt8} :
    writeFrames frames = some bytes ↔
      (∀ f ∈ frames, f.Fits) ∧ bytes = frames.flatMap ConvertorFrame.bytes := by
  induction frames generalizing bytes with
  | nil => simp [writeFrames, eq_comm]
  | cons f rest ih =>
    simp only [writeFrames, Option.bind_eq_bind, Option.bind_eq_some_iff, writeFrame_eq_some_iff,
      ih, List.forall_mem_cons, List.flatMap_cons]
    constructor
    · rintro ⟨_, ⟨hf, rfl⟩, _, ⟨hrest, rfl⟩, hbytes⟩
      exact ⟨⟨hf, hrest⟩, (Option.some.inj hbytes).symm⟩
    · rintro ⟨⟨hf, hrest⟩, rfl⟩
      exact ⟨_, ⟨hf, rfl⟩, _, ⟨hrest, rfl⟩, rfl⟩

/-- A thread is written exactly when its fields fit. -/
theorem writeThread_eq_some_iff {t : ConvertorThread} {bytes : List UInt8} :
    writeThread t = some bytes ↔ t.Fits ∧ bytes = t.bytes := by
  have hnat (n : ℕ) : (0 ≤ (n : ℤ) ∧ (n : ℤ) < 2 ^ 32) ↔ n < 2 ^ 32 := by omega
  have hcrashed : t.crashed.toInt = (t.crashed.toNat : ℤ) := by cases t.crashed <;> rfl
  have hcrashed_lt : t.crashed.toNat < 2 ^ 32 := by cases t.crashed <;> decide
  simp only [writeThread, Option.bind_eq_bind, Option.bind_eq_some_iff, packL_eq_some_iff,
    writeFrames_eq_some_iff, hnat, hcrashed, Int.toNat_natCast]
  constructor
  · rintro ⟨_, ⟨htid, rfl⟩, _, ⟨-, rfl⟩, _, ⟨hsize, rfl⟩, _, ⟨hframes, rfl⟩, hbytes⟩
    exact ⟨⟨htid, hsize, hframes⟩, (Option.some.inj hbytes).symm⟩
  · rintro ⟨⟨htid, hsize, hframes⟩, rfl⟩
    exact ⟨_, ⟨htid, rfl⟩, _, ⟨hcrashed_lt, rfl⟩, _, ⟨hsize, rfl⟩, _, ⟨hframes, rfl⟩, rfl⟩

/-- The loop over the threads writes those that the limit leaves. Induction on the
threads. -/
theorem writeThreads_eq_some_iff {limit : ℤ} {tidx : ℕ} {threads : List ConvertorThread}
    {bytes : List UInt8} :
    writeThreads limit tidx threads = some bytes ↔
      let written := if limit = -1 then threads else threads.take (limit - tidx).toNat
      (∀ t ∈ written, t.Fits) ∧ bytes = written.flatMap ConvertorThread.bytes := by
  induction threads generalizing tidx bytes with
  | nil => simp [writeThreads, eq_comm]
  | cons t rest ih =>
    unfold writeThreads
    by_cases hstop : limit ≠ -1 ∧ tidx ≥ limit
    · have hnone : (limit - tidx).toNat = 0 := by omega
      simp [hstop, hnone, eq_comm]
    · have hwritten : (if limit = -1 then t :: rest else (t :: rest).take (limit - tidx).toNat) =
          t :: (if limit = -1 then rest else rest.take (limit - (tidx + 1 : ℕ)).toNat) := by
        split
        · rfl
        · have hsucc : (limit - tidx).toNat = (limit - (tidx + 1 : ℕ)).toNat + 1 := by omega
          rw [hsucc, List.take_succ_cons]
      rw [if_neg hstop, hwritten]
      simp only [Option.bind_eq_bind, Option.bind_eq_some_iff, writeThread_eq_some_iff, ih,
        List.forall_mem_cons, List.flatMap_cons]
      constructor
      · rintro ⟨_, ⟨ht, rfl⟩, _, ⟨hrest, rfl⟩, hbytes⟩
        exact ⟨⟨ht, hrest⟩, (Option.some.inj hbytes).symm⟩
      · rintro ⟨⟨ht, hrest⟩, rfl⟩
        exact ⟨_, ⟨ht, rfl⟩, _, ⟨hrest, rfl⟩, rfl⟩

/-- The header of a file with some number of threads. -/
def headerBytes (threadsSize : ℕ) : List UInt8 :=
  [0x44, 0x57, 0x46, 0x43] ++ LittleEndian.encode 2 1 ++ LittleEndian.encode 2 1 ++
    LittleEndian.encode 4 threadsSize

/-- The file is written exactly when the limit is -1 or not negative, the number of threads
that it leaves fits the header, and their fields fit. -/
theorem writeContextFile_eq_some_iff {threads : List ConvertorThread} {limit : ℤ}
    {image : List UInt8} :
    writeContextFile threads limit = some image ↔
      (-1 ≤ limit ∧ (limitThreads threads limit).length < 2 ^ 32 ∧
        ∀ t ∈ limitThreads threads limit, t.Fits) ∧
      image = headerBytes (limitThreads threads limit).length ++
        (limitThreads threads limit).flatMap ConvertorThread.bytes := by
  have hcount : -1 ≤ limit →
      (if limit ≠ -1 then min (threads.length : ℤ) limit else threads.length) =
        ((limitThreads threads limit).length : ℕ) := by
    intro hlimit
    unfold limitThreads
    by_cases hall : limit = -1
    · rw [if_neg (not_not_intro hall), if_pos hall]
    · rw [if_pos hall, if_neg hall, List.length_take]
      omega
  have hwritten : (if limit = -1 then threads else threads.take (limit - (0 : ℕ)).toNat) =
      limitThreads threads limit := by
    simp [limitThreads]
  simp only [writeContextFile, Option.bind_eq_bind, Option.bind_eq_some_iff, packL_eq_some_iff,
    writeThreads_eq_some_iff, hwritten]
  constructor
  · rintro ⟨_, ⟨hsize, rfl⟩, _, ⟨hfits, rfl⟩, himage⟩
    have hlimit : -1 ≤ limit := by
      by_contra hlimit
      rw [if_pos (by omega)] at hsize
      omega
    rw [hcount hlimit] at hsize himage
    exact ⟨⟨hlimit, by omega, hfits⟩, (Option.some.inj himage).symm⟩
  · rintro ⟨⟨hlimit, hsize, hfits⟩, rfl⟩
    rw [hcount hlimit]
    exact ⟨_, ⟨by omega, rfl⟩, _, ⟨hfits, rfl⟩, rfl⟩

/-- A C string is the given name exactly when the name has no null byte and one follows. -/
theorem cString_append_eq_some_iff {name behind : List UInt8} :
    cString (name ++ behind) = some name ↔ 0 ∉ name ∧ behind.head? = some 0 := by
  have htake (hname : 0 ∉ name) : (name ++ behind).takeWhile (fun b => decide (b ≠ 0)) =
      name ++ behind.takeWhile fun b => decide (b ≠ 0) := by
    apply List.takeWhile_append_of_pos
    intro b hb
    have hne : b ≠ 0 := fun h => hname (h ▸ hb)
    simpa using hne
  unfold cString
  constructor
  · intro h
    split at h
    case isFalse => cases h
    case isTrue hmem =>
      have htaken := Option.some.inj h
      have hname : 0 ∉ name := by
        intro hzero
        rw [← htaken] at hzero
        simpa using List.mem_takeWhile_imp hzero
      rw [htake hname, List.append_right_eq_self] at htaken
      have hbehind : 0 ∈ behind := (List.mem_append.mp hmem).resolve_left hname
      refine ⟨hname, ?_⟩
      cases behind with
      | nil => cases hbehind
      | cons b more =>
        by_contra hhead
        have hb : b ≠ 0 := by simpa using hhead
        simp [hb] at htaken
  · rintro ⟨hname, hhead⟩
    cases behind with
    | nil => cases hhead
    | cons b more =>
      obtain rfl : b = 0 := by simpa using hhead
      rw [if_pos (by simp), htake hname]
      simp

/-- The byte behind the name in the buffer's memory is null, and none is in the name. -/
def FrameMemory.Terminates (memory : FrameMemory) (name : List UInt8) : Prop :=
  0 ∉ name ∧ memory.heap[name.length]? = some 0

/-- The frame as it is read, with the name that the C string gives. -/
def ConvertorFrame.loaded (f : ConvertorFrame) (frameFunc : List UInt8) : DwarfContextFrame where
  frameNum := (RawObject.zero 4).store 0 (LittleEndian.encode 4 f.num.toNat)
  frameFunc := frameFunc
  regs := f.regs.map Int.toNat
  stackMemoryBaseAddr := (RawObject.zero 8).store 0 (LittleEndian.encode 8 f.stackBaseAddr.toNat)
  stackMemory := f.stack

/-- The registers are read back. -/
theorem readRegs_ahead {reg : ℕ → RawObject 8} {x : ℕ} {regs : List ℤ} {rest : List UInt8}
    {file : InputStream} (hfits : ∀ r ∈ regs, 0 ≤ r ∧ r < 2 ^ 64)
    (hfile : file.Ahead (regs.flatMap (fun r => LittleEndian.encode 8 r.toNat) ++ rest)) :
    ∃ file', readRegs reg x regs.length file = (regs.map Int.toNat, file') ∧ file'.Ahead rest := by
  induction regs generalizing x file with
  | nil => exact ⟨file, rfl, hfile⟩
  | cons r more ih =>
    obtain ⟨hr, hmore⟩ := List.forall_mem_cons.mp hfits
    rw [List.flatMap_cons, List.append_assoc] at hfile
    obtain ⟨file₁, hread, hfile₁⟩ := hfile.read_eq (LittleEndian.length_encode 8 r.toNat)
    obtain ⟨file₂, hrest, hfile₂⟩ := @ih (x + 1) file₁ hmore hfile₁
    have hword := @RawObject.word_store_encode 8 (reg x) r.toNat (by omega)
    exact ⟨file₂, by simp only [List.length_cons, readRegs, hread, hrest, hword, List.map_cons],
      hfile₂⟩

/-- A frame is read back, but for its name, which is what the C string in the buffer is.
The reader ends behind the frame. -/
theorem readFrame_ahead {memory : FrameMemory} {f : ConvertorFrame} {rest : List UInt8}
    {file : InputStream} (hfits : f.Fits) (hfile : file.Ahead (f.bytes ++ rest)) :
    ∃ file', file'.Ahead rest ∧ readFrame memory .zero file =
      (cString (f.funcB ++ memory.heap.drop f.funcB.length)).map fun frameFunc =>
        (f.loaded frameFunc, file') := by
  simp only [ConvertorFrame.bytes, List.append_assoc] at hfile
  have hencode (width value : ℕ) := LittleEndian.length_encode width value
  obtain ⟨file₁, hnum, hfile⟩ := hfile.read_eq (hencode 4 _)
  obtain ⟨file₂, hlen, hfile⟩ := hfile.read_eq (hencode 4 _)
  obtain ⟨file₃, hfunc, hfile⟩ := hfile.read_eq rfl
  obtain ⟨file₄, hregsSize, hfile⟩ := hfile.read_eq (hencode 4 _)
  obtain ⟨file₅, hregs, hfile⟩ := @readRegs_ahead memory.reg 0 _ _ _ hfits.regs hfile
  obtain ⟨file₆, hbase, hfile⟩ := hfile.read_eq (hencode 8 _)
  obtain ⟨file₇, hstackSize, hfile⟩ := hfile.read_eq (hencode 4 _)
  obtain ⟨file₈, hstack, hfile⟩ := hfile.read_eq rfl
  refine ⟨file₈, hfile, ?_⟩
  have hlenWord := @RawObject.word_store_encode 4 memory.frameFuncLen _ hfits.func
  have hregsWord := @RawObject.word_store_encode 4 memory.regsSize _ hfits.regsSize
  have hstackWord := @RawObject.word_store_encode 4 memory.stackMemorySize _ hfits.stackSize
  simp only [readFrame, hnum, hlen, hlenWord, hfunc, hregsSize, hregsWord, hregs, hbase,
    hstackSize, hstackWord, hstack]
  cases cString (f.funcB ++ memory.heap.drop f.funcB.length) with
  | none => rfl
  | some frameFunc =>
    have hresize : (resize f.stack.length 0 DwarfContextFrame.zero.stackMemory).drop
        f.stack.length = ([] : List UInt8) := by
      simp [resize, DwarfContextFrame.zero]
    rw [hresize, List.append_nil]
    rfl

/-- Every field of a frame that was read equals the one that was written. -/
structure DwarfContextFrame.Equals (frame : DwarfContextFrame) (f : ConvertorFrame) : Prop where
  num : (frame.frameNum.word 0 4 : ℤ) = f.num
  func : frame.frameFunc = f.funcB
  regs : frame.regs.map Int.ofNat = f.regs
  stackBaseAddr : (frame.stackMemoryBaseAddr.word 0 8 : ℤ) = f.stackBaseAddr
  stack : frame.stackMemory = f.stack

/-- Every field of a thread that was read equals the one that was written. -/
structure DwarfContextThread.Equals (thread : DwarfContextThread) (t : ConvertorThread) :
    Prop where
  tid : (DwarfContextThreadHeader.tid thread.header : ℤ) = t.tid
  crashed : DwarfContextThreadHeader.crashed thread.header = t.crashed.toNat
  frames : List.Forall₂ DwarfContextFrame.Equals thread.frames t.frames

/-- A loaded frame equals the written one exactly when its name does. -/
theorem loaded_equals_iff {f : ConvertorFrame} (hfits : f.Fits) {frameFunc : List UInt8} :
    (f.loaded frameFunc).Equals f ↔ frameFunc = f.funcB := by
  have hnum := @RawObject.word_store_encode 4 (.zero 4) f.num.toNat (by have := hfits.num; omega)
  have hbase := @RawObject.word_store_encode 8 (.zero 8) f.stackBaseAddr.toNat
    (by have := hfits.stackBaseAddr; omega)
  refine ⟨fun h => h.func, fun hfunc => ⟨?_, hfunc, ?_, ?_, rfl⟩⟩
  · rw [ConvertorFrame.loaded, hnum, Int.toNat_of_nonneg hfits.num.1]
  · have hregs : ∀ r ∈ f.regs, (Int.ofNat ∘ Int.toNat) r = r := fun r hr =>
      Int.toNat_of_nonneg (hfits.regs r hr).1
    rw [ConvertorFrame.loaded, List.map_map, List.map_congr_left hregs, List.map_id']
  · rw [ConvertorFrame.loaded, hbase, Int.toNat_of_nonneg hfits.stackBaseAddr.1]

/-- The name of a frame comes back exactly when the memory terminates it. -/
theorem FrameMemory.terminates_iff {memory : FrameMemory} {name : List UInt8} :
    memory.Terminates name ↔
      cString (name ++ memory.heap.drop name.length) = some name := by
  rw [cString_append_eq_some_iff, Terminates, List.head?_drop]

/-- Frames are read by reading the first one and then the others. -/
theorem readFrames_cons_eq_some_iff {memory : ℕ → FrameMemory} {l : ℕ} {frame : DwarfContextFrame}
    {rest out : List DwarfContextFrame} {file file' : InputStream} :
    readFrames memory l (frame :: rest) file = some (out, file') ↔
      ∃ first file₁ others, readFrame (memory l) frame file = some (first, file₁) ∧
        readFrames memory (l + 1) rest file₁ = some (others, file') ∧ out = first :: others := by
  rw [readFrames]
  rcases readFrame (memory l) frame file with _ | ⟨first, file₁⟩
  · simp
  · rcases hrest : readFrames memory (l + 1) rest file₁ with _ | ⟨others, file₂⟩
    · simp [hrest]
    · simp [hrest, eq_comm, and_comm]

/-- Frames that are read at all leave the reader behind them, and equal the written ones
exactly when every name is terminated. Induction on the frames. -/
theorem readFrames_ahead {memory : ℕ → FrameMemory} {l : ℕ} {frames : List ConvertorFrame}
    {rest : List UInt8} {file file' : InputStream} {out : List DwarfContextFrame}
    (hfits : ∀ f ∈ frames, f.Fits)
    (hfile : file.Ahead (frames.flatMap ConvertorFrame.bytes ++ rest))
    (hrun : readFrames memory l (List.replicate frames.length .zero) file = some (out, file')) :
    file'.Ahead rest ∧ (List.Forall₂ DwarfContextFrame.Equals out frames ↔
      ∀ fl ∈ frames.zipIdx l, (memory fl.2).Terminates fl.1.funcB) := by
  induction frames generalizing l file out with
  | nil =>
    cases hrun
    exact ⟨hfile, by simp⟩
  | cons f more ih =>
    obtain ⟨hf, hmore⟩ := List.forall_mem_cons.mp hfits
    rw [List.flatMap_cons, List.append_assoc] at hfile
    obtain ⟨file₁, hfile₁, hframe⟩ := @readFrame_ahead (memory l) f _ file hf hfile
    rw [List.length_cons, List.replicate_succ, readFrames_cons_eq_some_iff] at hrun
    obtain ⟨first, file₂, outs, hfirst, hrest, rfl⟩ := hrun
    rw [hframe] at hfirst
    obtain ⟨frameFunc, hname, hloaded⟩ := Option.map_eq_some_iff.mp hfirst
    cases hloaded
    obtain ⟨hfile₂, hequals⟩ := ih hmore hfile₁ hrest
    refine ⟨hfile₂, ?_⟩
    rw [List.forall₂_cons, loaded_equals_iff hf, hequals, List.zipIdx_cons,
      List.forall_mem_cons, FrameMemory.terminates_iff, hname, Option.some.injEq]

/-- Frames whose names are terminated are read. -/
theorem readFrames_of_terminates {memory : ℕ → FrameMemory} {l : ℕ}
    {frames : List ConvertorFrame} {rest : List UInt8} {file : InputStream}
    (hfits : ∀ f ∈ frames, f.Fits)
    (hfile : file.Ahead (frames.flatMap ConvertorFrame.bytes ++ rest))
    (hnames : ∀ fl ∈ frames.zipIdx l, (memory fl.2).Terminates fl.1.funcB) :
    ∃ out file', readFrames memory l (List.replicate frames.length .zero) file =
      some (out, file') := by
  induction frames generalizing l file with
  | nil => exact ⟨[], file, rfl⟩
  | cons f more ih =>
    obtain ⟨hf, hmore⟩ := List.forall_mem_cons.mp hfits
    rw [List.zipIdx_cons, List.forall_mem_cons] at hnames
    rw [List.flatMap_cons, List.append_assoc] at hfile
    obtain ⟨file₁, hfile₁, hframe⟩ := @readFrame_ahead (memory l) f _ file hf hfile
    obtain ⟨out, file', hrest⟩ := ih hmore hfile₁ hnames.2
    rw [FrameMemory.terminates_iff.mp hnames.1] at hframe
    refine ⟨f.loaded f.funcB :: out, file', ?_⟩
    rw [List.length_cons, List.replicate_succ, readFrames_cons_eq_some_iff]
    exact ⟨_, file₁, out, hframe, hrest, rfl⟩

/-- The header of a thread as it is read. -/
def ConvertorThread.header (t : ConvertorThread) : DwarfContextThreadHeader :=
  (RawObject.zero 12).store 0 (LittleEndian.encode 4 t.tid.toNat ++
    LittleEndian.encode 4 t.crashed.toNat ++ LittleEndian.encode 4 t.frames.length)

/-- The header of a thread is read back. -/
theorem ConvertorThread.header_equals {t : ConvertorThread} (hfits : t.Fits) :
    (DwarfContextThreadHeader.tid t.header : ℤ) = t.tid ∧
      DwarfContextThreadHeader.crashed t.header = t.crashed.toNat ∧
      DwarfContextThreadHeader.framesSize t.header = t.frames.length := by
  have htid := hfits.tid
  have hcrashed : t.crashed.toNat < 256 ^ 4 := by cases t.crashed <;> decide
  have hbytes : t.header.bytes = LittleEndian.encode 4 t.tid.toNat ++
      (LittleEndian.encode 4 t.crashed.toNat ++ LittleEndian.encode 4 t.frames.length) := by
    rw [ConvertorThread.header, RawObject.store_zero_bytes (by simp), List.append_assoc]
  have hend : t.header.bytes = (LittleEndian.encode 4 t.tid.toNat ++
      LittleEndian.encode 4 t.crashed.toNat) ++
        (LittleEndian.encode 4 t.frames.length ++ []) := by
    rw [hbytes, List.append_assoc, List.append_nil]
  refine ⟨?_, ?_, ?_⟩
  · have hword := @RawObject.word_of_bytes 12 t.header [] _ 0 4 _ hbytes rfl (by omega)
    rw [DwarfContextThreadHeader.tid, hword, Int.toNat_of_nonneg htid.1]
  · apply RawObject.word_of_bytes hbytes
    · exact LittleEndian.length_encode 4 _
    · exact hcrashed
  · apply RawObject.word_of_bytes hend
    · simp
    · exact hfits.framesSize

/-- A thread is read by reading its frames. -/
theorem readThread_ahead {memory : ℕ → FrameMemory} {t : ConvertorThread} {rest : List UInt8}
    {file : InputStream} (hfits : t.Fits) (hfile : file.Ahead (t.bytes ++ rest)) :
    ∃ file₁, file₁.Ahead (t.frames.flatMap ConvertorFrame.bytes ++ rest) ∧
      readThread memory .zero file =
        (readFrames memory 0 (List.replicate t.frames.length .zero) file₁).map fun r =>
          (⟨t.header, r.1⟩, r.2) := by
  rw [ConvertorThread.bytes, List.append_assoc] at hfile
  obtain ⟨file₁, hread, hfile₁⟩ := hfile.read_eq (n := 12) (by simp)
  refine ⟨file₁, hfile₁, ?_⟩
  have hsize := (t.header_equals hfits).2.2
  simp only [readThread, hread]
  rw [show DwarfContextThread.zero.header.store 0 _ = t.header from rfl, hsize]
  have hresize : resize t.frames.length .zero DwarfContextThread.zero.frames =
      List.replicate t.frames.length .zero := by
    simp [resize, DwarfContextThread.zero]
  rw [hresize]
  cases readFrames memory 0 (List.replicate t.frames.length .zero) file₁ <;> rfl

/-- Threads are read by reading the first one and then the others. -/
theorem readThreads_cons_eq_some_iff {memory : ℕ → ℕ → FrameMemory} {i : ℕ}
    {thread : DwarfContextThread} {rest out : List DwarfContextThread}
    {file file' : InputStream} :
    readThreads memory i (thread :: rest) file = some (out, file') ↔
      ∃ first file₁ others, readThread (memory i) thread file = some (first, file₁) ∧
        readThreads memory (i + 1) rest file₁ = some (others, file') ∧ out = first :: others := by
  rw [readThreads]
  rcases readThread (memory i) thread file with _ | ⟨first, file₁⟩
  · simp
  · rcases hrest : readThreads memory (i + 1) rest file₁ with _ | ⟨others, file₂⟩
    · simp [hrest]
    · simp [hrest, eq_comm, and_comm]

/-- Threads that are read at all equal the written ones exactly when every name is
terminated. Induction on the threads. -/
theorem readThreads_ahead {memory : ℕ → ℕ → FrameMemory} {i : ℕ} {threads : List ConvertorThread}
    {file file' : InputStream} {out : List DwarfContextThread} (hfits : ∀ t ∈ threads, t.Fits)
    (hfile : file.Ahead (threads.flatMap ConvertorThread.bytes))
    (hrun : readThreads memory i (List.replicate threads.length .zero) file = some (out, file')) :
    List.Forall₂ DwarfContextThread.Equals out threads ↔
      ∀ ti ∈ threads.zipIdx i, ∀ fl ∈ ti.1.frames.zipIdx,
        (memory ti.2 fl.2).Terminates fl.1.funcB := by
  induction threads generalizing i file out with
  | nil => cases hrun; simp
  | cons t more ih =>
    obtain ⟨ht, hmore⟩ := List.forall_mem_cons.mp hfits
    rw [List.flatMap_cons] at hfile
    obtain ⟨file₁, hfile₁, hthread⟩ := @readThread_ahead (memory i) t _ file ht hfile
    rw [List.length_cons, List.replicate_succ, readThreads_cons_eq_some_iff] at hrun
    obtain ⟨first, file₂, outs, hfirst, hrest, rfl⟩ := hrun
    rw [hthread] at hfirst
    obtain ⟨⟨frames, _⟩, hframes, hheader⟩ := Option.map_eq_some_iff.mp hfirst
    cases hheader
    obtain ⟨hfile₂, hequals⟩ := readFrames_ahead ht.frames hfile₁ hframes
    have hthread : DwarfContextThread.Equals ⟨t.header, frames⟩ t ↔
        ∀ fl ∈ t.frames.zipIdx, (memory i fl.2).Terminates fl.1.funcB := by
      rw [← hequals]
      obtain ⟨htid, hcrashed, -⟩ := t.header_equals ht
      exact ⟨fun h => h.frames, fun h => ⟨htid, hcrashed, h⟩⟩
    rw [List.forall₂_cons, ih hmore hfile₂ hrest, hthread, List.zipIdx_cons,
      List.forall_mem_cons]

/-- Threads whose names are all terminated are read. -/
theorem readThreads_of_terminates {memory : ℕ → ℕ → FrameMemory} {i : ℕ}
    {threads : List ConvertorThread} {file : InputStream} (hfits : ∀ t ∈ threads, t.Fits)
    (hfile : file.Ahead (threads.flatMap ConvertorThread.bytes))
    (hnames : ∀ ti ∈ threads.zipIdx i, ∀ fl ∈ ti.1.frames.zipIdx,
      (memory ti.2 fl.2).Terminates fl.1.funcB) :
    ∃ out file', readThreads memory i (List.replicate threads.length .zero) file =
      some (out, file') := by
  induction threads generalizing i file with
  | nil => exact ⟨[], file, rfl⟩
  | cons t more ih =>
    obtain ⟨ht, hmore⟩ := List.forall_mem_cons.mp hfits
    rw [List.zipIdx_cons, List.forall_mem_cons] at hnames
    rw [List.flatMap_cons] at hfile
    obtain ⟨file₁, hfile₁, hthread⟩ := @readThread_ahead (memory i) t _ file ht hfile
    obtain ⟨frames, file₂, hframes⟩ := readFrames_of_terminates ht.frames hfile₁ hnames.1
    obtain ⟨hfile₂, -⟩ := readFrames_ahead ht.frames hfile₁ hframes
    obtain ⟨out, file', hrest⟩ := ih hmore hfile₂ hnames.2
    rw [hframes] at hthread
    refine ⟨⟨t.header, frames⟩ :: out, file', ?_⟩
    rw [List.length_cons, List.replicate_succ, readThreads_cons_eq_some_iff]
    exact ⟨_, file₂, out, hthread, hrest, rfl⟩

/-- Loading a written file is reading its threads. -/
theorem loadDwarfContextFile_of_written {threads : List ConvertorThread} {limit : ℤ}
    {image : List UInt8} (hwrite : writeContextFile threads limit = some image)
    (memory : ℕ → ℕ → FrameMemory) {ctx : DwarfContext} (hctx : ctx.threads = []) :
    ∃ header file,
      DwarfContextHeader.threadsSize header = (limitThreads threads limit).length ∧
      file.Ahead ((limitThreads threads limit).flatMap ConvertorThread.bytes) ∧
      loadDwarfContextFile memory (.ofImage image) ctx =
        (readThreads memory 0 (List.replicate (limitThreads threads limit).length .zero) file).map
          fun r => (true, ⟨header, r.1⟩) := by
  obtain ⟨⟨-, hsize, -⟩, rfl⟩ := writeContextFile_eq_some_iff.mp hwrite
  generalize hwritten : limitThreads threads limit = written at hsize ⊢
  generalize htail : written.flatMap ConvertorThread.bytes = tail
  have hlength : (headerBytes written.length).length = 12 := by simp [headerBytes]
  have hstart : (InputStream.ofImage (headerBytes written.length ++ tail)).Ahead
      (headerBytes written.length ++ tail) := ⟨rfl, rfl⟩
  obtain ⟨file, hread, hfile⟩ := hstart.read_eq hlength
  have hrewind : (InputStream.ofImage (headerBytes written.length ++ tail)).seekgEnd.seekg 0 =
      .ofImage (headerBytes written.length ++ tail) := rfl
  have hbytes : (ctx.header.store 0 (headerBytes written.length)).bytes =
      headerBytes written.length := RawObject.store_zero_bytes hlength
  have hmagic : DwarfContextHeader.magic (ctx.header.store 0 (headerBytes written.length)) =
      [0x44, 0x57, 0x46, 0x43] := by
    rw [DwarfContextHeader.magic, RawObject.part, hbytes]
    rfl
  have hcount : DwarfContextHeader.threadsSize
      (ctx.header.store 0 (headerBytes written.length)) = written.length := by
    refine @RawObject.word_of_bytes 12 _ ([0x44, 0x57, 0x46, 0x43] ++ LittleEndian.encode 2 1 ++
      LittleEndian.encode 2 1) [] 8 4 _ ?_ rfl hsize
    rw [hbytes, List.append_nil]
    rfl
  have hnotShort : ¬sizeOfPos
      (InputStream.ofImage (headerBytes written.length ++ tail)).seekgEnd.tellg < 12 := by
    have hpos : (InputStream.ofImage (headerBytes written.length ++ tail)).seekgEnd.tellg =
        ((headerBytes written.length ++ tail).length : ℕ) := rfl
    rw [hpos, sizeOfPos, if_neg (by omega), Int.toNat_natCast, List.length_append, hlength]
    omega
  refine ⟨ctx.header.store 0 (headerBytes written.length), file, hcount, hfile, ?_⟩
  have hresize : resize written.length DwarfContextThread.zero [] =
      List.replicate written.length .zero := by simp [resize]
  simp only [loadDwarfContextFile, hrewind, if_neg hnotShort, hread, hmagic, hcount, hctx, hresize,
    ne_eq, not_true_eq_false, if_false]

/-- A written file is loaded back, the first threads that the limit leaves with every field
equal, exactly when the name of each frame has no null byte and the byte behind its buffer
is one. -/
theorem loadDwarfContextFile_roundTrip_iff {threads : List ConvertorThread} {limit : ℤ}
    {image : List UInt8} (hwrite : writeContextFile threads limit = some image)
    (memory : ℕ → ℕ → FrameMemory) {ctx : DwarfContext} (hctx : ctx.threads = []) :
    (∃ ctx', loadDwarfContextFile memory (.ofImage image) ctx = some (true, ctx') ∧
        List.Forall₂ DwarfContextThread.Equals ctx'.threads (limitThreads threads limit)) ↔
      ∀ ti ∈ (limitThreads threads limit).zipIdx, ∀ fl ∈ ti.1.frames.zipIdx,
        (memory ti.2 fl.2).Terminates fl.1.funcB := by
  obtain ⟨⟨-, -, hfits⟩, -⟩ := writeContextFile_eq_some_iff.mp hwrite
  obtain ⟨header, file, -, hfile, hload⟩ := loadDwarfContextFile_of_written hwrite memory hctx
  rw [hload]
  constructor
  · rintro ⟨ctx', hrun, hequals⟩
    obtain ⟨⟨out, file'⟩, hthreads, hctx'⟩ := Option.map_eq_some_iff.mp hrun
    cases hctx'
    exact (readThreads_ahead hfits hfile hthreads).mp hequals
  · intro hnames
    obtain ⟨out, file', hthreads⟩ := readThreads_of_terminates hfits hfile hnames
    exact ⟨⟨header, out⟩, by rw [hthreads]; rfl,
      (readThreads_ahead hfits hfile hthreads).mpr hnames⟩

/-- A crashed thread with one frame in a function `f`. -/
def threadInF : ConvertorThread := ⟨1, true, [⟨0, "f", [], 0, []⟩]⟩

/-- Memory in which the buffer of a name starts with the given bytes. -/
def heapWith (heap : List UInt8) : FrameMemory :=
  ⟨.zero 4, .zero 4, fun _ => .zero 8, .zero 4, heap⟩

/-- Behind the buffer of `f` lie the bytes of an `A` and then a null byte, so the loaded
name is `fA`. -/
theorem loadDwarfContextFile_not_roundTrip :
    ∃ image, writeContextFile [threadInF] (-1) = some image ∧
      ¬∃ ctx', loadDwarfContextFile (fun _ _ => heapWith [0, 0x41, 0]) (.ofImage image)
          ⟨.zero 12, []⟩ = some (true, ctx') ∧
        List.Forall₂ DwarfContextThread.Equals ctx'.threads (limitThreads [threadInF] (-1)) := by
  refine ⟨(writeContextFile [threadInF] (-1)).getD [], by decide, ?_⟩
  rintro ⟨⟨header, threads⟩, hrun, hequals⟩
  have hnames : (loadDwarfContextFile (fun _ _ => heapWith [0, 0x41, 0])
      (.ofImage ((writeContextFile [threadInF] (-1)).getD [])) ⟨.zero 12, []⟩).map
        (fun r => r.2.threads.map fun t => t.frames.map (·.frameFunc)) =
          some [[[0x66, 0x41]]] := by decide
  rw [hrun] at hnames
  cases hequals with
  | @cons thread _ _ _ hthread hrest =>
    cases hrest
    obtain ⟨threadHeader, frames⟩ := thread
    have hframes : List.Forall₂ DwarfContextFrame.Equals frames threadInF.frames := hthread.frames
    cases hframes with
    | cons hframe hrest =>
      cases hrest
      simp only [Option.map_some, List.map_cons, List.map_nil, hframe.func] at hnames
      revert hnames
      decide

theorem loadDwarfContextFile_roundTrip_iff_terminated :
    ∃ ctx', loadDwarfContextFile (fun _ _ => heapWith [0, 0])
        (.ofImage ((writeContextFile [threadInF] (-1)).getD [])) ⟨.zero 12, []⟩ =
          some (true, ctx') ∧
      List.Forall₂ DwarfContextThread.Equals ctx'.threads (limitThreads [threadInF] (-1)) :=
  (loadDwarfContextFile_roundTrip_iff (by decide) _ rfl).mpr (by
    unfold FrameMemory.Terminates
    decide)

end DwarfExpr
