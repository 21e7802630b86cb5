import DwarfExpr.ContextFileRoundTrip
import DwarfExpr.Lib.PrefixCode

/-!
# Truncated context files

A context file announces the number of its threads and frames, and the lengths of names,
register lists and stack memories. The reader looks at the size of the file and at the
magic, and at no outcome of a read after that: where the file ends early it goes on with
the memory that it finds.
-/

namespace DwarfExpr

open LittleEndian (encode encode_append_inj)
open PrefixCode (Unambiguous)

/-- A frame as it can stand in a file: every number has its width. -/
@[ext] structure FrameRecord where
  frameNum : Fin (256 ^ 4)
  frameFunc : List UInt8
  regs : List (Fin (256 ^ 8))
  stackMemoryBaseAddr : Fin (256 ^ 8)
  stackMemory : List UInt8
  frameFunc_lt : frameFunc.length < 256 ^ 4
  regs_lt : regs.length < 256 ^ 4
  stackMemory_lt : stackMemory.length < 256 ^ 4

/-- A thread as it can stand in a file. -/
@[ext] structure ThreadRecord where
  tid : Fin (256 ^ 4)
  crashed : Fin (256 ^ 4)
  frames : List FrameRecord
  frames_lt : frames.length < 256 ^ 4

/-- A context as it can stand in a file. -/
@[ext] structure DwarfContextRecord where
  version : Fin (256 ^ 2)
  arch : Fin (256 ^ 2)
  threads : List ThreadRecord
  threads_lt : threads.length < 256 ^ 4

/-- The bytes of a frame. -/
def FrameRecord.bytes (f : FrameRecord) : List UInt8 :=
  encode 4 f.frameNum ++ (encode 4 f.frameFunc.length ++ (f.frameFunc ++
    (encode 4 f.regs.length ++ (f.regs.flatMap (fun r : Fin (256 ^ 8) => encode 8 r) ++
      (encode 8 f.stackMemoryBaseAddr ++ (encode 4 f.stackMemory.length ++ f.stackMemory))))))

/-- The bytes of a thread. -/
def ThreadRecord.bytes (t : ThreadRecord) : List UInt8 :=
  encode 4 t.tid ++ (encode 4 t.crashed ++ (encode 4 t.frames.length ++
    t.frames.flatMap FrameRecord.bytes))

/-- `kDwarfContextMagic`. -/
def kDwarfContextMagic : List UInt8 := [0x44, 0x57, 0x46, 0x43]

/-- The bytes of a context. -/
def DwarfContextRecord.bytes (c : DwarfContextRecord) : List UInt8 :=
  kDwarfContextMagic ++ (encode 2 c.version ++ (encode 2 c.arch ++
    (encode 4 c.threads.length ++ c.threads.flatMap ThreadRecord.bytes)))

/-- The file starts with all bytes of some context: everything that is announced lies
inside. -/
def CompleteFile (image : List UInt8) : Prop := ∃ c : DwarfContextRecord, c.bytes <+: image

/-- The reader accepts the file only if it is complete, in whatever memory it runs. -/
def AcceptsOnlyComplete (image : List UInt8) (ctx : DwarfContext) : Prop :=
  ∀ memory ctx', loadDwarfContextFile memory (.ofImage image) ctx = some (true, ctx') →
    CompleteFile image

/-- Where a frame ends can be told from its bytes. -/
theorem frameRecord_unambiguous : Unambiguous FrameRecord.bytes := by
  have hreg : Unambiguous fun r : Fin (256 ^ 8) => encode 8 r := by
    intro a b r s h
    obtain ⟨hvalue, hrest⟩ := encode_append_inj a.isLt b.isLt h
    exact ⟨Fin.ext hvalue, hrest⟩
  intro f g r s h
  simp only [FrameRecord.bytes, List.append_assoc] at h
  obtain ⟨hnum, h⟩ := encode_append_inj f.frameNum.isLt g.frameNum.isLt h
  obtain ⟨hfuncLen, h⟩ := encode_append_inj f.frameFunc_lt g.frameFunc_lt h
  obtain ⟨hfunc, h⟩ := List.append_inj h hfuncLen
  obtain ⟨hregsSize, h⟩ := encode_append_inj f.regs_lt g.regs_lt h
  obtain ⟨hregs, h⟩ := hreg.flatMap hregsSize h
  obtain ⟨hbase, h⟩ :=
    encode_append_inj f.stackMemoryBaseAddr.isLt g.stackMemoryBaseAddr.isLt h
  obtain ⟨hstackSize, h⟩ := encode_append_inj f.stackMemory_lt g.stackMemory_lt h
  obtain ⟨hstack, hrest⟩ := List.append_inj h hstackSize
  exact ⟨FrameRecord.ext (Fin.ext hnum) hfunc hregs (Fin.ext hbase) hstack, hrest⟩

/-- Where a thread ends can be told from its bytes. -/
theorem threadRecord_unambiguous : Unambiguous ThreadRecord.bytes := by
  intro t u r s h
  simp only [ThreadRecord.bytes, List.append_assoc] at h
  obtain ⟨htid, h⟩ := encode_append_inj t.tid.isLt u.tid.isLt h
  obtain ⟨hcrashed, h⟩ := encode_append_inj t.crashed.isLt u.crashed.isLt h
  obtain ⟨hsize, h⟩ := encode_append_inj t.frames_lt u.frames_lt h
  obtain ⟨hframes, hrest⟩ := frameRecord_unambiguous.flatMap hsize h
  exact ⟨ThreadRecord.ext (Fin.ext htid) (Fin.ext hcrashed) hframes, hrest⟩

/-- Where a context ends can be told from its bytes. -/
theorem dwarfContextRecord_unambiguous : Unambiguous DwarfContextRecord.bytes := by
  intro c d r s h
  simp only [DwarfContextRecord.bytes, List.append_assoc] at h
  obtain ⟨hversion, h⟩ :=
    encode_append_inj c.version.isLt d.version.isLt (List.append_cancel_left h)
  obtain ⟨harch, h⟩ := encode_append_inj c.arch.isLt d.arch.isLt h
  obtain ⟨hsize, h⟩ := encode_append_inj c.threads_lt d.threads_lt h
  obtain ⟨hthreads, hrest⟩ := threadRecord_unambiguous.flatMap hsize h
  exact ⟨DwarfContextRecord.ext (Fin.ext hversion) (Fin.ext harch) hthreads, hrest⟩

/-- A context that is cut off is not complete. -/
theorem not_completeFile_take {c : DwarfContextRecord} {n : ℕ} (hn : n < c.bytes.length) :
    ¬CompleteFile (c.bytes.take n) := by
  rintro ⟨d, hprefix⟩
  exact dwarfContextRecord_unambiguous.not_prefix_take hn hprefix

/-- Values that can each be written another way can all be. Induction on the values. -/
theorem exists_flatMap_eq {α β : Type*} {bytes : α → List UInt8} {bytes' : β → List UInt8}
    {xs : List α} (h : ∀ x ∈ xs, ∃ y, bytes' y = bytes x) :
    ∃ ys : List β, ys.length = xs.length ∧ ys.flatMap bytes' = xs.flatMap bytes := by
  induction xs with
  | nil => exact ⟨[], rfl, rfl⟩
  | cons x xs ih =>
    obtain ⟨hx, hxs⟩ := List.forall_mem_cons.mp h
    obtain ⟨y, hy⟩ := hx
    obtain ⟨ys, hlength, hbytes⟩ := ih hxs
    exact ⟨y :: ys, by simp [hlength], by simp [hy, hbytes]⟩

/-- What the convertor writes is complete. -/
theorem completeFile_of_written {threads : List ConvertorThread} {limit : ℤ}
    {image : List UInt8} (hwrite : writeContextFile threads limit = some image) :
    CompleteFile image := by
  have hframe (f : ConvertorFrame) (hf : f.Fits) : ∃ g : FrameRecord, g.bytes = f.bytes := by
    obtain ⟨hnum, hfunc, hregsSize, hregs, hbase, hstack⟩ := hf
    refine ⟨⟨⟨f.num.toNat, by omega⟩, f.funcB,
      f.regs.attach.map fun r => ⟨r.1.toNat, by have := hregs r.1 r.2; omega⟩,
      ⟨f.stackBaseAddr.toNat, by omega⟩, f.stack, hfunc, by simpa using hregsSize, hstack⟩, ?_⟩
    simp [FrameRecord.bytes, ConvertorFrame.bytes, List.flatMap_map]
  have hthread (t : ConvertorThread) (ht : t.Fits) : ∃ u : ThreadRecord, u.bytes = t.bytes := by
    obtain ⟨htid, hsize, hframes⟩ := ht
    obtain ⟨records, hlength, hbytes⟩ :=
      exists_flatMap_eq fun f hf => hframe f (hframes f hf)
    refine ⟨⟨⟨t.tid.toNat, by omega⟩, ⟨t.crashed.toNat, ?_⟩, records, by omega⟩, ?_⟩
    · cases t.crashed <;> decide
    · simp only [ThreadRecord.bytes, ConvertorThread.bytes, hlength, hbytes, List.append_assoc]
  obtain ⟨⟨-, hsize, hfits⟩, rfl⟩ := writeContextFile_eq_some_iff.mp hwrite
  obtain ⟨records, hlength, hbytes⟩ := exists_flatMap_eq fun t ht => hthread t (hfits t ht)
  have hwhole : DwarfContextRecord.bytes ⟨1, 1, records, by omega⟩ =
      headerBytes (limitThreads threads limit).length ++
        (limitThreads threads limit).flatMap ConvertorThread.bytes := by
    simp only [DwarfContextRecord.bytes, headerBytes, hlength, hbytes, List.append_assoc]
    rfl
  rw [← hwhole]
  exact ⟨_, List.prefix_rfl⟩

/-- Memory in which nothing is set and a null byte follows every buffer of a file. -/
def calmMemory (image : List UInt8) : FrameMemory :=
  ⟨.zero 4, .zero 4, fun _ => .zero 8, .zero 4, List.replicate (image.length + 1) 0⟩

/-- Reading registers does not change the file. -/
theorem readRegs_image (reg : ℕ → RawObject 8) (x n : ℕ) (file : InputStream) :
    (readRegs reg x n file).2.image = file.image := by
  induction n generalizing x file with
  | zero => rfl
  | succ n ih =>
    have hrest := ih (x + 1) (file.read 8).2
    rw [InputStream.read_image] at hrest
    exact hrest

/-- In calm memory there is a name in every buffer. -/
theorem cString_calm {image : List UInt8} (file : InputStream) (hfile : file.image = image)
    (n : ℕ) : ∃ name, cString ((file.read n).1 ++
      (calmMemory image).heap.drop (file.read n).1.length) = some name := by
  have hlength := InputStream.length_read_le file n
  have hzero : 0 ∈ (calmMemory image).heap.drop (file.read n).1.length := by
    rw [hfile] at hlength
    simp only [calmMemory, List.drop_replicate, List.mem_replicate, and_true]
    omega
  exact ⟨_, if_pos (List.mem_append_right _ hzero)⟩

/-- In calm memory a frame is read, whatever is left of the file. -/
theorem readFrame_calm {image : List UInt8} (frame : DwarfContextFrame) {file : InputStream}
    (hfile : file.image = image) :
    ∃ frame' file', readFrame (calmMemory image) frame file = some (frame', file') ∧
      file'.image = image := by
  obtain ⟨name, hname⟩ := @cString_calm image ((file.read 4).2.read 4).2 (by simp [hfile])
    (((calmMemory image).frameFuncLen.store 0 ((file.read 4).2.read 4).1).word 0 4)
  simp only [readFrame, hname]
  exact ⟨_, _, rfl, by simp [readRegs_image, hfile]⟩

/-- In calm memory all frames are read. Induction on the frames. -/
theorem readFrames_calm {image : List UInt8} (l : ℕ) (frames : List DwarfContextFrame)
    {file : InputStream} (hfile : file.image = image) :
    ∃ frames' file', readFrames (fun _ => calmMemory image) l frames file =
      some (frames', file') ∧ file'.image = image := by
  induction frames generalizing l file with
  | nil => exact ⟨[], file, rfl, hfile⟩
  | cons frame rest ih =>
    obtain ⟨frame', file₁, hframe, hfile₁⟩ := readFrame_calm frame hfile
    obtain ⟨rest', file₂, hrest, hfile₂⟩ := ih (l + 1) hfile₁
    exact ⟨frame' :: rest', file₂,
      readFrames_cons_eq_some_iff.mpr ⟨frame', file₁, rest', hframe, hrest, rfl⟩, hfile₂⟩

/-- In calm memory all threads are read. Induction on the threads. -/
theorem readThreads_calm {image : List UInt8} (i : ℕ) (threads : List DwarfContextThread)
    {file : InputStream} (hfile : file.image = image) :
    ∃ threads' file', readThreads (fun _ _ => calmMemory image) i threads file =
      some (threads', file') := by
  induction threads generalizing i file with
  | nil => exact ⟨[], file, rfl⟩
  | cons thread rest ih =>
    have hread : (file.read 12).2.image = image := by rw [InputStream.read_image, hfile]
    obtain ⟨frames', file₁, hframes, hfile₁⟩ := readFrames_calm 0
      (resize (DwarfContextThreadHeader.framesSize (thread.header.store 0 (file.read 12).1)) .zero
        thread.frames) hread
    obtain ⟨rest', file₂, hrest⟩ := ih (i + 1) hfile₁
    exact ⟨_ :: rest', file₂, by simp only [readThreads, readThread, hframes, hrest]; rfl⟩

/-- The reader checks the size of the file and the magic, and then reads threads. -/
theorem loadDwarfContextFile_ofImage (memory : ℕ → ℕ → FrameMemory) (image : List UInt8)
    (ctx : DwarfContext) :
    ∃ header file, file.image = image ∧
      loadDwarfContextFile memory (.ofImage image) ctx =
        if image.length < 12 then some (false, ctx)
        else if image.take 4 ≠ kDwarfContextMagic then some (false, { ctx with header := header })
        else (readThreads memory 0
          (resize (DwarfContextHeader.threadsSize header) .zero ctx.threads) file).map
            fun r => (true, ⟨header, r.1⟩) := by
  have hrewind : (InputStream.ofImage image).seekgEnd.seekg 0 = .ofImage image := rfl
  have hpos : (InputStream.ofImage image).seekgEnd.tellg = (image.length : ℕ) := rfl
  have hsize : sizeOfPos (image.length : ℕ) = image.length := by
    rw [sizeOfPos, if_neg (by omega), Int.toNat_natCast]
  refine ⟨ctx.header.store 0 ((InputStream.ofImage image).read 12).1,
    ((InputStream.ofImage image).read 12).2, InputStream.read_image _ _, ?_⟩
  by_cases hshort : image.length < 12
  · simp only [loadDwarfContextFile, hpos, hsize, if_pos hshort]
  · have hgot : ((InputStream.ofImage image).read 12).1 = image.take 12 :=
      InputStream.read_fst_of_good rfl 12
    have hlength : (image.take 12).length = 12 := by
      rw [List.length_take]
      omega
    have hmagic : DwarfContextHeader.magic (ctx.header.store 0 (image.take 12)) =
        image.take 4 := by
      rw [DwarfContextHeader.magic, RawObject.part, RawObject.store_zero_bytes hlength,
        List.drop_zero, List.take_take]
      rfl
    simp only [loadDwarfContextFile, hpos, hsize, if_neg hshort, hrewind, hgot, hmagic]
    rfl

/-- A file that is accepted in some memory is not shorter than a header and starts with the
magic. -/
theorem long_magic_of_accepted {memory : ℕ → ℕ → FrameMemory} {image : List UInt8}
    {ctx ctx' : DwarfContext}
    (hload : loadDwarfContextFile memory (.ofImage image) ctx = some (true, ctx')) :
    12 ≤ image.length ∧ image.take 4 = kDwarfContextMagic := by
  obtain ⟨header, file, -, heq⟩ := loadDwarfContextFile_ofImage memory image ctx
  rw [heq] at hload
  split at hload
  · cases hload
  · rename_i hlong
    split at hload
    · cases hload
    · rename_i hmagic
      exact ⟨by omega, not_not.mp hmagic⟩

/-- In calm memory every file that is not shorter than a header and starts with the magic is
accepted. -/
theorem accepted_of_long_magic {image : List UInt8} (hlong : 12 ≤ image.length)
    (hmagic : image.take 4 = kDwarfContextMagic) (ctx : DwarfContext) :
    ∃ ctx', loadDwarfContextFile (fun _ _ => calmMemory image) (.ofImage image) ctx =
      some (true, ctx') := by
  obtain ⟨header, file, hfile, heq⟩ :=
    loadDwarfContextFile_ofImage (fun _ _ => calmMemory image) image ctx
  obtain ⟨threads, file', hthreads⟩ := readThreads_calm 0
    (resize (DwarfContextHeader.threadsSize header) .zero ctx.threads) hfile
  rw [heq, if_neg (by omega), if_neg (not_not.mpr hmagic), hthreads]
  exact ⟨_, rfl⟩

/-- The reader accepts only complete files exactly as far as the size and the magic refuse
the others. Of the beginnings of a context file it refuses those that are shorter than a
header, and accepts all others in some memory. -/
theorem acceptsOnlyComplete_iff (ctx : DwarfContext) :
    (∀ image, AcceptsOnlyComplete image ctx ↔
        image.length < 12 ∨ image.take 4 ≠ kDwarfContextMagic ∨ CompleteFile image) ∧
      ∀ (c : DwarfContextRecord) (n : ℕ), n < c.bytes.length →
        ((∀ memory ctx', loadDwarfContextFile memory (.ofImage (c.bytes.take n)) ctx ≠
            some (true, ctx')) ↔ n < 12) := by
  constructor
  · intro image
    constructor
    · intro haccepts
      by_cases hshort : image.length < 12
      · exact Or.inl hshort
      · by_cases hmagic : image.take 4 = kDwarfContextMagic
        · obtain ⟨ctx', hload⟩ := accepted_of_long_magic (by omega) hmagic ctx
          exact Or.inr (Or.inr (haccepts _ ctx' hload))
        · exact Or.inr (Or.inl hmagic)
    · intro hcond memory ctx' hload
      obtain ⟨hlong, hmagic⟩ := long_magic_of_accepted hload
      rcases hcond with hshort | hother | hcomplete
      · omega
      · exact absurd hmagic hother
      · exact hcomplete
  · intro c n hn
    have hlength : (c.bytes.take n).length = n := by
      rw [List.length_take]
      omega
    constructor
    · intro hrefused
      by_contra hlong
      have hmagic : (c.bytes.take n).take 4 = kDwarfContextMagic := by
        rw [List.take_take, Nat.min_eq_left (by omega)]
        rfl
      obtain ⟨ctx', hload⟩ := accepted_of_long_magic (by omega) hmagic ctx
      exact hrefused _ ctx' hload
    · intro hshort memory ctx' hload
      obtain ⟨hlong, -⟩ := long_magic_of_accepted hload
      omega

/-- The header of a file that announces one thread. -/
def announcedThread : List UInt8 := [0x44, 0x57, 0x46, 0x43, 1, 0, 1, 0, 1, 0, 0, 0]

/-- A context with one thread, which has no frames. -/
def idleContext : DwarfContextRecord := ⟨1, 1, [⟨0, 0, [], by decide⟩], by decide⟩

/-- A file that ends behind its header is accepted, with a thread that is not in it. -/
theorem not_acceptsOnlyComplete_announced :
    ¬AcceptsOnlyComplete announcedThread ⟨.zero 12, []⟩ := by
  intro haccepts
  have hload : loadDwarfContextFile (fun _ _ => calmMemory []) (.ofImage announcedThread)
      ⟨.zero 12, []⟩ = some (true, ⟨(RawObject.zero 12).store 0 announcedThread, [.zero]⟩) := by
    decide
  have hcomplete := haccepts _ _ hload
  have htake : announcedThread = idleContext.bytes.take 12 := by decide
  rw [htake] at hcomplete
  exact not_completeFile_take (by decide) hcomplete

/-- The characterization at the context with one thread: its first eleven bytes are
refused, and its first twelve are not in all memory. -/
theorem acceptsOnlyComplete_iff_idleContext :
    (∀ memory ctx', loadDwarfContextFile memory (.ofImage (idleContext.bytes.take 11))
        ⟨.zero 12, []⟩ ≠ some (true, ctx')) ∧
      ¬∀ memory ctx', loadDwarfContextFile memory (.ofImage (idleContext.bytes.take 12))
        ⟨.zero 12, []⟩ ≠ some (true, ctx') := by
  obtain ⟨-, hprefixes⟩ := acceptsOnlyComplete_iff ⟨.zero 12, []⟩
  refine ⟨(hprefixes idleContext 11 (by decide)).mpr (by decide), fun hrefused => ?_⟩
  have hshort := (hprefixes idleContext 12 (by decide)).mp hrefused
  omega

end DwarfExpr
