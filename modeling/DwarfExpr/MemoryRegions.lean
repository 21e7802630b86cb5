import DwarfExpr.Dwarf2line
import DwarfExpr.MinidumpRequests

/-!
# Memory reads at the bounds of a region

`memory_provider` and `Minidump::GetMemory` compare a request with a captured region in
the same way, with 64-bit sums that wrap around. Both are right about every request that
ends within the address space, for regions that do so too.
-/

namespace DwarfExpr

open AddressRange (Covers Overruns wrapCheck)
open InputStream (slice)

/-- The stack memory of the frame has all bytes of the request. -/
def DwarfContextFrame.Covers (frame : DwarfContextFrame) (addr size : BitVec 64) : Prop :=
  AddressRange.Covers frame.stackBase.toNat frame.stackMemory.length addr.toNat size.toNat

/-- The request starts in the stack memory of the frame and reaches the end of the address
space. -/
def DwarfContextFrame.Overruns (frame : DwarfContextFrame) (addr size : BitVec 64) : Prop :=
  AddressRange.Overruns 64 frame.stackBase.toNat frame.stackMemory.length addr.toNat size.toNat

/-- `memory_provider` answers as exact arithmetic would: it succeeds exactly if the stack
memory covers the request, and then the buffer is the bytes at its offset. -/
def MemoryProviderExact (context : Option DwarfContext) (frame : DwarfContextFrame)
    (addr size : BitVec 64) : Prop :=
  ((memoryProvider context addr size).isSome = true ↔ frame.Covers addr size) ∧
    ∀ view, memoryProvider context addr size = some view →
      view.bytes = slice frame.stackMemory (addr.toNat - frame.stackBase.toNat) size.toNat ∧
        view.bytes.length = size.toNat

/-- The memory range of the descriptor has all bytes of the request. -/
def MDMemoryDescriptor.Covers (d : MDMemoryDescriptor) (address size : BitVec 64) : Prop :=
  AddressRange.Covers d.startOfMemoryRange (MDMemoryDescriptor.memory d).dataSize address.toNat
    size.toNat

/-- The bytes of the file that the descriptor gives for a request. -/
def MDMemoryDescriptor.fileBytes (d : MDMemoryDescriptor) (image : List UInt8)
    (address size : BitVec 64) : List UInt8 :=
  slice image ((MDMemoryDescriptor.memory d).rva + (address.toNat - d.startOfMemoryRange))
    size.toNat

/-- `GetMemory` on a fresh stream succeeds only with the bytes that a descriptor which
covers the request gives for it. -/
def GetMemoryExact (m : Minidump) (address size : BitVec 64) : Prop :=
  ∀ buffer, (m.reopen.getMemory address size).1 = some buffer →
    ∃ d ∈ m.memories, MDMemoryDescriptor.Covers d address size ∧
      buffer = MDMemoryDescriptor.fileBytes d m.stream.image address size

/-- `memory_provider` in a frame is the check on words. -/
theorem memoryProvider_eq {context : Option DwarfContext} {frame : DwarfContextFrame}
    (hframe : getFirstThreadFrame context = some frame)
    (hsize : frame.stackMemory.length < 2 ^ 32) (addr size : BitVec 64) :
    memoryProvider context addr size =
      if wrapCheck frame.stackBase (.ofNat 64 frame.stackMemory.length) addr size then
        some ⟨frame.stackMemory, addr - frame.stackBase, size⟩
      else none := by
  have hlength : (BitVec.ofNat 32 frame.stackMemory.length).setWidth 64 =
      .ofNat 64 frame.stackMemory.length := by
    apply BitVec.eq_of_toNat_eq
    simp only [BitVec.toNat_setWidth, BitVec.toNat_ofNat]
    omega
  simp only [memoryProvider, hframe, hlength]
  rfl

/-- `memory_provider` answers exactly if the stack memory ends within the address space and
the request does not run past its end, or the stack memory does not and does not cover the
request either. -/
theorem memoryProviderExact_iff {context : Option DwarfContext} {frame : DwarfContextFrame}
    (hframe : getFirstThreadFrame context = some frame)
    (hsize : frame.stackMemory.length < 2 ^ 32) (addr size : BitVec 64) :
    MemoryProviderExact context frame addr size ↔
      (frame.stackBase.toNat + frame.stackMemory.length < 2 ^ 64 → ¬frame.Overruns addr size) ∧
        (2 ^ 64 ≤ frame.stackBase.toNat + frame.stackMemory.length →
          ¬frame.Covers addr size) := by
  have hexact := AddressRange.wrapCheck_exact_iff frame.stackBase
    (.ofNat 64 frame.stackMemory.length) addr size
  have hlength : (BitVec.ofNat 64 frame.stackMemory.length).toNat = frame.stackMemory.length := by
    rw [BitVec.toNat_ofNat]
    omega
  rw [hlength] at hexact
  unfold MemoryProviderExact DwarfContextFrame.Covers DwarfContextFrame.Overruns
  rw [← hexact, memoryProvider_eq hframe hsize, Option.isSome_ite]
  constructor
  · rintro ⟨hiff, -⟩
    exact hiff
  · refine fun hiff => ⟨hiff, fun view hview => ?_⟩
    obtain ⟨hcheck, rfl⟩ := Option.ite_some_none_eq_some.mp hview
    obtain ⟨hle, -, hend⟩ := hiff.mp hcheck
    have hoffset := (AddressRange.toNat_sub_of_wrapCheck hcheck).1
    have hinside : addr.toNat - frame.stackBase.toNat + size.toNat ≤
        frame.stackMemory.length := by omega
    rw [MemoryView.bytes, hoffset]
    exact ⟨rfl, InputStream.length_slice hinside⟩

/-- A descriptor that gives an offset passes the check on words, and the offset is where
its bytes for the request are. -/
theorem MDMemoryDescriptor.offsetOf_eq_some {d : MDMemoryDescriptor} {address size : BitVec 64}
    {off : ℤ} (hoff : MDMemoryDescriptor.offsetOf d address size = some off) :
    wrapCheck (.ofNat 64 d.startOfMemoryRange)
        (.ofNat 64 (MDMemoryDescriptor.memory d).dataSize) address size = true ∧
      off = ((MDMemoryDescriptor.memory d).rva + (address.toNat - d.startOfMemoryRange) : ℕ) := by
  have hstart : d.startOfMemoryRange < 256 ^ 8 := RawObject.word_lt d 0 8
  have hlen : (MDMemoryDescriptor.memory d).dataSize < 256 ^ 4 := RawObject.word_lt d 8 4
  have hrva : (MDMemoryDescriptor.memory d).rva < 256 ^ 4 := RawObject.word_lt d 12 4
  obtain ⟨hcheck, hoff⟩ := Option.ite_some_none_eq_some.mp hoff
  refine ⟨hcheck, ?_⟩
  obtain ⟨hsub, hlt⟩ := AddressRange.toNat_sub_of_wrapCheck hcheck
  simp only [BitVec.toNat_ofNat] at hsub hlt
  have hstart' : d.startOfMemoryRange % 2 ^ 64 = d.startOfMemoryRange := by omega
  rw [hstart'] at hsub hlt
  have hsum : (BitVec.ofNat 64 (MDMemoryDescriptor.memory d).rva +
      (address - BitVec.ofNat 64 d.startOfMemoryRange)).toNat =
        (MDMemoryDescriptor.memory d).rva + (address.toNat - d.startOfMemoryRange) := by
    rw [BitVec.toNat_add, hsub, BitVec.toNat_ofNat]
    omega
  rw [← hoff, BitVec.toInt_eq_toNat_of_lt (by omega), hsum]

/-- A descriptor that gives an offset covers the request if that ends within the address
space. -/
theorem MDMemoryDescriptor.covers_of_offsetOf {d : MDMemoryDescriptor} {address size : BitVec 64}
    {off : ℤ} (hoff : MDMemoryDescriptor.offsetOf d address size = some off)
    (hend : address.toNat + size.toNat < 2 ^ 64) : MDMemoryDescriptor.Covers d address size := by
  have hstart : d.startOfMemoryRange < 256 ^ 8 := RawObject.word_lt d 0 8
  have hlen : (MDMemoryDescriptor.memory d).dataSize < 256 ^ 4 := RawObject.word_lt d 8 4
  obtain ⟨hcheck, -⟩ := MDMemoryDescriptor.offsetOf_eq_some hoff
  have hcovers := AddressRange.covers_of_wrapCheck hcheck hend
  simp only [BitVec.toNat_ofNat] at hcovers
  rwa [Nat.mod_eq_of_lt (by omega), Nat.mod_eq_of_lt (by omega)] at hcovers

/-- The first descriptor that gives an offset, and the offset. -/
def Minidump.firstOffset (m : Minidump) (address size : BitVec 64) : Option ℤ :=
  m.memories.findSome? fun d => MDMemoryDescriptor.offsetOf d address size

/-- On a fresh stream the first offset decides: the answer is what the file has there. -/
theorem getMemory_reopen_eq_some_iff {m : Minidump} {address size : BitVec 64}
    {buffer : List UInt8} :
    (m.reopen.getMemory address size).1 = some buffer ↔
      ∃ off, m.firstOffset address size = some off ∧
        ¬(off < 0 ∨ (0 < size.toNat ∧ m.stream.image.length < off.toNat + size.toNat)) ∧
        buffer = slice m.stream.image off.toNat size.toNat := by
  have hscan := @scanMemories_of_unfailed address size m.memories m.reopen.stream rfl
  have hget : (m.reopen.getMemory address size).1 =
      (scanMemories address size m.memories m.reopen.stream).1 := rfl
  rw [hget, hscan, Option.bind_eq_some_iff]
  constructor
  · rintro ⟨off, hfirst, hbuffer⟩
    obtain ⟨hfits, hbuffer⟩ := Option.ite_none_left_eq_some.mp hbuffer
    exact ⟨off, hfirst, hfits, (Option.some.inj hbuffer).symm⟩
  · rintro ⟨off, hfirst, hfits, rfl⟩
    exact ⟨off, hfirst, if_neg hfits⟩

/-- `GetMemory` hands out only bytes of a descriptor that covers the request exactly if the
request ends within the address space, or gets nothing, or another descriptor does cover it
and gives the same bytes. -/
theorem getMemoryExact_iff (m : Minidump) (address size : BitVec 64) :
    GetMemoryExact m address size ↔
      address.toNat + size.toNat < 2 ^ 64 ∨ m.Silent (.getMemory address size) ∨
        ∃ d ∈ m.memories, MDMemoryDescriptor.Covers d address size ∧
          ∃ off, m.firstOffset address size = some off ∧
            MDMemoryDescriptor.fileBytes d m.stream.image address size =
              slice m.stream.image off.toNat size.toNat := by
  constructor
  · intro hexact
    by_cases hsilent : m.Silent (.getMemory address size)
    · exact Or.inr (Or.inl hsilent)
    · simp only [Minidump.Silent, not_forall] at hsilent
      obtain ⟨off, hfirst, hfits⟩ := hsilent
      obtain ⟨d, hmem, hcovers, hbytes⟩ := hexact (slice m.stream.image off.toNat size.toNat)
        (getMemory_reopen_eq_some_iff.mpr ⟨off, hfirst, hfits, rfl⟩)
      exact Or.inr (Or.inr ⟨d, hmem, hcovers, off, hfirst, hbytes.symm⟩)
  · intro hcond buffer hbuffer
    obtain ⟨off, hfirst, hfits, rfl⟩ := getMemory_reopen_eq_some_iff.mp hbuffer
    rcases hcond with hend | hsilent | ⟨d, hmem, hcovers, off', hfirst', hbytes⟩
    · obtain ⟨d, hmem, hoff⟩ := List.exists_of_findSome?_eq_some hfirst
      refine ⟨d, hmem, MDMemoryDescriptor.covers_of_offsetOf hoff hend, ?_⟩
      obtain ⟨-, rfl⟩ := MDMemoryDescriptor.offsetOf_eq_some hoff
      rw [Int.toNat_natCast]
      rfl
    · exact absurd (hsilent off hfirst) hfits
    · rw [hfirst] at hfirst'
      cases hfirst'
      exact ⟨d, hmem, hcovers, hbytes.symm⟩

/-- Exactly when both providers of memory keep to the captured regions. -/
theorem memoryReads_exact_iff {context : Option DwarfContext} {frame : DwarfContextFrame}
    (hframe : getFirstThreadFrame context = some frame)
    (hsize : frame.stackMemory.length < 2 ^ 32) (m : Minidump) (addr size : BitVec 64) :
    (MemoryProviderExact context frame addr size ↔
        (frame.stackBase.toNat + frame.stackMemory.length < 2 ^ 64 →
            ¬frame.Overruns addr size) ∧
          (2 ^ 64 ≤ frame.stackBase.toNat + frame.stackMemory.length →
            ¬frame.Covers addr size)) ∧
      (GetMemoryExact m addr size ↔
        addr.toNat + size.toNat < 2 ^ 64 ∨ m.Silent (.getMemory addr size) ∨
          ∃ d ∈ m.memories, MDMemoryDescriptor.Covers d addr size ∧
            ∃ off, m.firstOffset addr size = some off ∧
              MDMemoryDescriptor.fileBytes d m.stream.image addr size =
                slice m.stream.image off.toNat size.toNat) :=
  ⟨memoryProviderExact_iff hframe hsize addr size, getMemoryExact_iff m addr size⟩

/-- A context with one thread of one frame. -/
def oneFrameContext (frame : DwarfContextFrame) : DwarfContext :=
  ⟨(RawObject.zero 12).store 8 [1, 0, 0, 0], [⟨(RawObject.zero 12).store 8 [1, 0, 0, 0], [frame]⟩]⟩

/-- A frame with 16 bytes of stack memory, one byte below the end of the address space. -/
def highFrame : DwarfContextFrame :=
  { DwarfContextFrame.zero with
    stackMemoryBaseAddr := (RawObject.zero 8).store 0 (LittleEndian.encode 8 (2 ^ 64 - 17))
    stackMemory := List.replicate 16 0xaa }

/-- A minidump with the same memory at the start of its file, and more behind it. -/
def highMinidump : Minidump :=
  { Minidump.ofFile (List.replicate 16 0xaa ++ List.replicate 16 0xbb) with
    memories := [(RawObject.zero 16).store 0
      (LittleEndian.encode 8 (2 ^ 64 - 17) ++ LittleEndian.encode 4 16)] }

/-- Two bytes at the last byte of the range are handed out, with one byte from behind it:
their end wraps around to zero. -/
theorem memoryReads_not_exact :
    getFirstThreadFrame (some (oneFrameContext highFrame)) = some highFrame ∧
      highFrame.stackMemory.length < 2 ^ 32 ∧
      ¬MemoryProviderExact (some (oneFrameContext highFrame)) highFrame
          (.ofNat 64 (2 ^ 64 - 2)) 2 ∧
      ¬GetMemoryExact highMinidump (.ofNat 64 (2 ^ 64 - 2)) 2 := by
  refine ⟨rfl, by decide, ?_, ?_⟩
  · rintro ⟨hiff, -⟩
    have hcovers := hiff.mp (by decide)
    revert hcovers
    unfold DwarfContextFrame.Covers
    decide
  · intro hexact
    obtain ⟨d, hmem, hcovers, -⟩ := hexact [0xaa, 0xbb] (by decide)
    obtain rfl := List.mem_singleton.mp hmem
    revert hcovers
    unfold MDMemoryDescriptor.Covers
    decide

/-- The characterization at eight bytes inside the range. -/
theorem memoryReads_exact_iff_inside :
    MemoryProviderExact (some (oneFrameContext highFrame)) highFrame (.ofNat 64 (2 ^ 64 - 17)) 8 ∧
      GetMemoryExact highMinidump (.ofNat 64 (2 ^ 64 - 17)) 8 := by
  obtain ⟨hprovider, hminidump⟩ := @memoryReads_exact_iff (some (oneFrameContext highFrame))
    highFrame rfl (by decide) highMinidump (.ofNat 64 (2 ^ 64 - 17)) 8
  refine ⟨hprovider.mpr ⟨fun _ => ?_, fun hend => ?_⟩, hminidump.mpr (Or.inl (by decide))⟩
  · unfold DwarfContextFrame.Overruns AddressRange.Overruns
    decide
  · exact absurd hend (by decide)

end DwarfExpr
