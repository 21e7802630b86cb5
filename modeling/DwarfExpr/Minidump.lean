import DwarfExpr.MinidumpStream

/-!
# Reading a minidump file

`Minidump::Read` parses the header, the directory and the streams that the directory
names; `GetMemory` and `ReadString` read from the same stream afterwards. A parse that
lets the process crash has no result. Texts that are only printed are not modelled.
-/

namespace DwarfExpr

open InputStream (slice openAt)

/-- `MDRawContextAMD64`. -/
abbrev MDRawContextAMD64 := RawObject 1232

/-- `sizeof(MDRawContextPPC64)`. -/
def sizeofContextPPC64 : ℕ := 1160

/-- `MDRawContextARM64_Old`. -/
abbrev MDRawContextARM64Old := RawObject 796

/-- `MDRawContextARM64`. -/
abbrev MDRawContextARM64 := RawObject 912

/-- `MD_CONTEXT_CPU_MASK` applied to context flags, as a 32-bit value. -/
def cpuType (contextFlags : ℕ) : ℕ := contextFlags &&& 0xffffff00

/-- `MD_CONTEXT_ARM64_OLD`. -/
def mdContextARM64Old : ℕ := 0x80000000

/-- The flags that `ConvertOldARM64Context` computes from the old ones. -/
def convertOldARM64Flags (old : ℕ) : ℕ :=
  0x00400000 ||| (if old &&& (mdContextARM64Old ||| 2) ≠ 0 then 0x00400002 ||| 0x00400001 else 0)
    ||| (if old &&& (mdContextARM64Old ||| 4) ≠ 0 then 0x00400004 else 0)

/-- `ConvertOldARM64Context` into a zero-initialized context. The debug registers at the
end stay zero. -/
def convertOldARM64Context (old : MDRawContextARM64Old) : MDRawContextARM64 :=
  ((((((RawObject.zero 912).store 0
    (LittleEndian.encode 4 (convertOldARM64Flags (old.word 0 8)))).store 4
    (old.part 272 4)).store 8 (old.part 8 264)).store 272 (old.part 284 512)).store 784
    (old.part 280 4)).store 788 (old.part 276 4)

/-- The union member of a `MinidumpContext` that `Read` fills. -/
inductive ContextRecord where
  | amd64 (context : MDRawContextAMD64)
  | arm64 (context : MDRawContextARM64)
  deriving DecidableEq, Repr

/-- A `MinidumpContext` after a successful `Read`. -/
structure MinidumpContext where
  context : ContextRecord
  contextFlags : ℕ
  deriving DecidableEq, Repr

/-- `ReadBytes` with a null buffer: `none` if a byte is stored there. -/
def readBytesToNull (s : InputStream) (n : ℕ) : Option (Bool × InputStream) :=
  match readBytes s n with
  | (ok, [], s) => some (ok, s)
  | (_, _ :: _, _) => none

/-- Behind the end of the file the read fails. -/
theorem readBytesToNull_of_beyond {image : List UInt8} {pos n : ℕ} (hn : 0 < n)
    (hbeyond : image.length ≤ pos) :
    ∃ s', readBytesToNull (openAt image pos) n = some (false, s') ∧ s'.failbit = true := by
  obtain ⟨s', hread, hs'⟩ := @readBytes_of_not_le image pos n hn (by omega)
  have hnothing : slice image pos n = [] := by
    rw [slice, List.drop_eq_nil_of_le hbeyond, List.take_nil]
  rw [hnothing] at hread
  exact ⟨s', by simp only [readBytesToNull, hread], hs'⟩

/-- Inside the file the read stores a byte. -/
theorem readBytesToNull_of_inside {image : List UInt8} {pos n : ℕ} (hn : 0 < n)
    (hinside : pos < image.length) : readBytesToNull (openAt image pos) n = none := by
  obtain ⟨ok, s', hread⟩ :
      ∃ ok s', readBytes (openAt image pos) n = (ok, slice image pos n, s') := by
    by_cases hfits : pos + n ≤ image.length
    · exact ⟨_, _, readBytes_of_le hfits⟩
    · obtain ⟨s', hread, -⟩ := readBytes_of_not_le hn hfits
      exact ⟨_, _, hread⟩
  have hlength : (slice image pos n).length ≠ 0 := by
    simp only [slice, List.length_take, List.length_drop]
    omega
  generalize slice image pos n = got at hread hlength
  cases got with
  | nil => exact absurd rfl hlength
  | cons b got => simp only [readBytesToNull, hread]

/-- `MinidumpContext::Read`: the context if it succeeds, and the stream. The whole is
`none` if the process crashes. -/
def MinidumpContext.read (loc : MDLocationDescriptor) (s : InputStream) :
    Option (Option MinidumpContext × InputStream) :=
  match seekTo s loc.rva with
  | (false, s) => some (none, s)
  | (true, s) =>
    if loc.dataSize = 1232 then
      match readBytes s 1232 with
      | (false, _, s) => some (none, s)
      | (true, got, s) =>
        let amd64 := (RawObject.zero 1232).store 0 got
        some (some ⟨.amd64 amd64, amd64.word 48 4⟩, s)
    else if loc.dataSize = sizeofContextPPC64 then some (none, s)
    else if loc.dataSize = 796 then
      match readBytes s 8 with
      | (false, _, s) => some (none, s)
      | (true, flags, s) =>
        if cpuType (LittleEndian.decode flags) ≠ mdContextARM64Old then some (none, s)
        else
          match readBytes s (796 - 8) with
          | (false, _, s) => some (none, s)
          | (true, got, s) =>
            let arm64 := convertOldARM64Context ((RawObject.zero 796).store 8 got)
            some (some ⟨.arm64 arm64, arm64.word 0 4⟩, s)
    else
      -- The value 0 of `context_flags_` is taken for the buffer here, so this read
      -- cannot succeed and the rest of the branch is never reached.
      match readBytesToNull s 4 with
      | none => none
      | some (_, s) => some (none, s)

theorem readBytesToNull_later {s s' : InputStream} {n : ℕ} {ok : Bool}
    (h : readBytesToNull s n = some (ok, s')) : s.Later s' := by
  have hread := readBytes_later s n
  unfold readBytesToNull at h
  generalize readBytes s n = result at h hread
  obtain ⟨ok, got, t⟩ := result
  cases got with
  | nil =>
    obtain ⟨-, rfl⟩ : _ ∧ t = s' := by simpa using h
    exact hread
  | cons b got => cases h

theorem MinidumpContext.read_later {loc : MDLocationDescriptor} {s s' : InputStream}
    {c : Option MinidumpContext} (h : MinidumpContext.read loc s = some (c, s')) :
    s.Later s' := by
  unfold MinidumpContext.read at h
  have hseek := seekTo_later s loc.rva
  generalize seekTo s loc.rva = result at h hseek
  obtain ⟨ok, t⟩ := result
  cases ok with
  | false => cases h; exact hseek
  | true =>
    dsimp only at h hseek
    split at h
    · have hread := readBytes_later t 1232
      generalize readBytes t 1232 = result at h hread
      obtain ⟨ok, got, u⟩ := result
      cases ok with
      | false => cases h; exact hseek.trans hread
      | true => cases h; exact hseek.trans hread
    split at h
    · cases h; exact hseek
    split at h
    · have hflags := readBytes_later t 8
      generalize readBytes t 8 = result at h hflags
      obtain ⟨ok, flags, u⟩ := result
      cases ok with
      | false => cases h; exact hseek.trans hflags
      | true =>
        dsimp only at h hflags
        split at h
        · cases h; exact hseek.trans hflags
        have hread := readBytes_later u (796 - 8)
        generalize readBytes u (796 - 8) = result at h hread
        obtain ⟨ok, got, w⟩ := result
        cases ok with
        | false => cases h; exact (hseek.trans hflags).trans hread
        | true => cases h; exact (hseek.trans hflags).trans hread
    · cases hnull : readBytesToNull t 4 with
      | none => rw [hnull] at h; cases h
      | some result =>
        obtain ⟨ok, u⟩ := result
        rw [hnull] at h
        cases h
        exact hseek.trans (readBytesToNull_later hnull)

/-- `MinidumpContext::Read` sees of an unfailed stream only its file. -/
theorem MinidumpContext.read_eq_of_image {s t : InputStream} (hs : s.failbit = false)
    (ht : t.failbit = false) (himage : s.image = t.image) (loc : MDLocationDescriptor) :
    MinidumpContext.read loc s = MinidumpContext.read loc t := by
  simp only [MinidumpContext.read, seekTo_of_unfailed hs, seekTo_of_unfailed ht, himage]

/-- A `Minidump` whose stream is open. -/
structure Minidump where
  stream : InputStream
  header : MDRawHeader
  directories : List MDRawDirectory
  threads : List MDRawThread
  modules : List MDRawModule
  memories : List MDMemoryDescriptor
  exception : MDRawExceptionStream
  systemInfo : MDRawSystemInfo
  contexts : ℕ → Option MinidumpContext

/-- Everything of a `Minidump` but its stream. -/
def Minidump.detached (m : Minidump) : Minidump := { m with stream := .ofImage [] }

/-- A `Minidump` that differs in its stream only. -/
theorem Minidump.detached_eq_iff {m m' : Minidump} :
    m'.detached = m.detached ↔ m' = { m with stream := m'.stream } := by
  cases m
  cases m'
  simp [Minidump.detached]

/-- A `Minidump` just after `Open` on a file with these bytes. -/
def Minidump.ofFile (image : List UInt8) : Minidump where
  stream := .ofImage image
  header := .zero 32
  directories := []
  threads := []
  modules := []
  memories := []
  exception := .zero 168
  systemInfo := .zero 56
  contexts := fun _ => none

/-- `Minidump::ReadHeader`. -/
def Minidump.readHeader (m : Minidump) : Bool × Minidump :=
  let (ok, got, s) := readBytes m.stream 32
  let header := m.header.store 0 got
  (ok && header.word 0 4 = 0x504d444d && header.word 4 4 % 2 ^ 16 = 0xa793,
    { m with header := header, stream := s })

/-- The directory entries filled from the bytes of a read, which may have been short. -/
def directoriesOf (count : ℕ) (got : List UInt8) : List MDRawDirectory :=
  (List.range count).map fun i => (RawObject.zero 12).store 0 ((got.drop (12 * i)).take 12)

/-- `Minidump::ReadDirectoryList`. -/
def Minidump.readDirectoryList (m : Minidump) : Bool × Minidump :=
  let streamCount := m.header.word 8 4
  match seekTo m.stream (m.header.word 12 4) with
  | (false, s) => (false, { m with stream := s })
  | (true, s) =>
    if streamCount > 1000 then (false, { m with stream := s })
    else if streamCount > 0 then
      let (ok, got, s) := readBytes s (streamCount * 12)
      (ok, { m with directories := directoriesOf streamCount got, stream := s })
    else (true, { m with stream := s })

/-- `contexts_.insert`: an entry that exists is kept. -/
def insertContext (contexts : ℕ → Option MinidumpContext) (id : ℕ) (context : MinidumpContext) :
    ℕ → Option MinidumpContext :=
  fun k => if k = id then (contexts k).or (some context) else contexts k

/-- `contexts_[id] = context`. -/
def assignContext (contexts : ℕ → Option MinidumpContext) (id : ℕ) (context : MinidumpContext) :
    ℕ → Option MinidumpContext :=
  fun k => if k = id then some context else contexts k

/-- The loop of `ReadThreadListStream` over the threads. -/
def readContexts : List MDRawThread → (ℕ → Option MinidumpContext) → InputStream →
    Option (Bool × (ℕ → Option MinidumpContext) × InputStream)
  | [], contexts, s => some (true, contexts, s)
  | thread :: rest, contexts, s =>
    match MinidumpContext.read thread.threadContext s with
    | none => none
    | some (none, s) => some (false, contexts, s)
    | some (some context, s) =>
      readContexts rest (insertContext contexts thread.threadId context) s

/-- The context of the first thread is refused, which ends the loop, or inserted. -/
theorem readContexts_cons_cases {thread : MDRawThread} {rest : List MDRawThread}
    {s s' : InputStream} {ok : Bool} {contexts contexts' : ℕ → Option MinidumpContext}
    (h : readContexts (thread :: rest) contexts s = some (ok, contexts', s')) :
    (MinidumpContext.read thread.threadContext s = some (none, s') ∧ contexts' = contexts) ∨
      ∃ context t, MinidumpContext.read thread.threadContext s = some (some context, t) ∧
        readContexts rest (insertContext contexts thread.threadId context) t =
          some (ok, contexts', s') := by
  unfold readContexts at h
  cases hread : MinidumpContext.read thread.threadContext s with
  | none =>
    rw [hread] at h
    cases h
  | some result =>
    obtain ⟨c, t⟩ := result
    rw [hread] at h
    cases c with
    | none =>
      cases h
      exact Or.inl ⟨rfl, rfl⟩
    | some context => exact Or.inr ⟨context, t, rfl, h⟩

theorem readContexts_later {threads : List MDRawThread} {s s' : InputStream} {ok : Bool}
    {contexts contexts' : ℕ → Option MinidumpContext}
    (h : readContexts threads contexts s = some (ok, contexts', s')) : s.Later s' := by
  induction threads generalizing contexts s with
  | nil => cases h; exact .refl _
  | cons thread rest ih =>
    rcases readContexts_cons_cases h with ⟨hread, -⟩ | ⟨context, t, hread, hrest⟩
    · exact MinidumpContext.read_later hread
    · exact (MinidumpContext.read_later hread).trans (ih hrest)

/-- `Minidump::ReadThreadListStream`. -/
def Minidump.readThreadListStream (m : Minidump) (directory : MDRawDirectory) :
    Option (Bool × Minidump) :=
  match readStream directory m.threads 48 10000 m.stream with
  | (false, threads, s) => some (false, { m with threads := threads, stream := s })
  | (true, threads, s) =>
    (readContexts threads m.contexts s).map fun (ok, contexts, s) =>
      (ok, { m with threads := threads, contexts := contexts, stream := s })

/-- `Minidump::ReadModuleListStream`. -/
def Minidump.readModuleListStream (m : Minidump) (directory : MDRawDirectory) : Bool × Minidump :=
  let (ok, modules, s) := readStream directory m.modules mdModuleSize 10000 m.stream
  (ok, { m with modules := modules, stream := s })

/-- `Minidump::ReadMemoryListStream`. -/
def Minidump.readMemoryListStream (m : Minidump) (directory : MDRawDirectory) : Bool × Minidump :=
  let (ok, memories, s) := readStream directory m.memories 16 10000 m.stream
  (ok, { m with memories := memories, stream := s })

/-- `Minidump::ReadExceptionStream`. -/
def Minidump.readExceptionStream (m : Minidump) (directory : MDRawDirectory) :
    Option (Bool × Minidump) :=
  match readStreamSingle directory m.exception m.stream with
  | (false, exception, s) => some (false, { m with exception := exception, stream := s })
  | (true, exception, s) =>
    (MinidumpContext.read (MDRawExceptionStream.threadContext exception) s).map fun
      | (none, s) => (false, { m with exception := exception, stream := s })
      | (some context, s) =>
        (true, { m with
          exception := exception
          contexts := assignContext m.contexts (MDRawExceptionStream.threadId exception) context
          stream := s })

/-- `Minidump::ReadSystemInfoStream`. -/
def Minidump.readSystemInfoStream (m : Minidump) (directory : MDRawDirectory) : Bool × Minidump :=
  let (ok, systemInfo, s) := readStreamSingle directory m.systemInfo m.stream
  (ok, { m with systemInfo := systemInfo, stream := s })

/-- The stream types that `Read` handles. -/
inductive StreamType where
  | threadList | moduleList | memoryList | exception | systemInfo
  deriving DecidableEq, Repr

/-- The stream type of a directory entry, if `Read` handles it. -/
def MDRawDirectory.handledType (d : MDRawDirectory) : Option StreamType :=
  match d.streamType with
  | 3 => some .threadList
  | 4 => some .moduleList
  | 5 => some .memoryList
  | 6 => some .exception
  | 7 => some .systemInfo
  | _ => none

/-- The parse that `Read` makes of one directory entry: whether it succeeded, which
`Read` ignores, and the state; `none` if it crashes. -/
def Minidump.parse (m : Minidump) (directory : MDRawDirectory) : Option (Bool × Minidump) :=
  match directory.handledType with
  | some .threadList => m.readThreadListStream directory
  | some .moduleList => some (m.readModuleListStream directory)
  | some .memoryList => some (m.readMemoryListStream directory)
  | some .exception => m.readExceptionStream directory
  | some .systemInfo => some (m.readSystemInfoStream directory)
  | none => some (true, m)

/-- A parse uses the stream and nothing else of the file. -/
theorem Minidump.parse_later {m m' : Minidump} {directory : MDRawDirectory} {ok : Bool}
    (h : m.parse directory = some (ok, m')) : m.stream.Later m'.stream := by
  unfold Minidump.parse at h
  split at h
  · have hlist := readStream_later directory m.threads 48 10000 m.stream
    unfold Minidump.readThreadListStream at h
    generalize readStream directory m.threads 48 10000 m.stream = result at h hlist
    obtain ⟨okList, threads, s⟩ := result
    cases okList with
    | false => cases h; exact hlist
    | true =>
      obtain ⟨⟨okc, contexts, s'⟩, hcontexts, hm⟩ := Option.map_eq_some_iff.mp h
      cases hm
      exact hlist.trans (readContexts_later hcontexts)
  · cases h; exact readStream_later directory m.modules mdModuleSize 10000 m.stream
  · cases h; exact readStream_later directory m.memories 16 10000 m.stream
  · have hsingle := readStreamSingle_later directory m.exception m.stream
    unfold Minidump.readExceptionStream at h
    generalize readStreamSingle directory m.exception m.stream = result at h hsingle
    obtain ⟨okSingle, exception, s⟩ := result
    cases okSingle with
    | false => cases h; exact hsingle
    | true =>
      obtain ⟨⟨c, s'⟩, hcontext, hm⟩ := Option.map_eq_some_iff.mp h
      have hlater := hsingle.trans (MinidumpContext.read_later hcontext)
      cases c with
      | none => cases hm; exact hlater
      | some context => cases hm; exact hlater
  · cases h; exact readStreamSingle_later directory m.systemInfo m.stream
  · cases h; exact .refl m.stream

/-- The loop of `Minidump::Read` over the directory. -/
def Minidump.readDirectories : List MDRawDirectory → Minidump → Option Minidump
  | [], m => some m
  | directory :: rest, m =>
    match m.parse directory with
    | none => none
    | some (_, m) => readDirectories rest m

theorem Minidump.readDirectories_later {directories : List MDRawDirectory} {m m' : Minidump}
    (h : readDirectories directories m = some m') : m.stream.Later m'.stream := by
  induction directories generalizing m with
  | nil => cases h; exact .refl _
  | cons directory rest ih =>
    unfold readDirectories at h
    cases hparse : m.parse directory with
    | none => rw [hparse] at h; cases h
    | some result =>
      obtain ⟨ok, n⟩ := result
      rw [hparse] at h
      exact (parse_later hparse).trans (ih h)

/-- `Minidump::Read`, after `Open`. -/
def Minidump.read (image : List UInt8) : Option (Bool × Minidump) :=
  let (ok, m) := (Minidump.ofFile image).readHeader
  if !ok then some (false, m)
  else
    let (ok, m) := m.readDirectoryList
    if !ok then some (false, m)
    else (Minidump.readDirectories m.directories m).map fun m => (true, m)

/-- `Minidump::GetThread`: the first thread with the id. -/
def Minidump.getThread (m : Minidump) (threadId : ℕ) : Option MDRawThread :=
  m.threads.find? fun thread => MDRawThread.threadId thread = threadId

/-- `Minidump::GetCrashThread`. -/
def Minidump.getCrashThread (m : Minidump) : Option MDRawThread :=
  m.getThread (MDRawExceptionStream.threadId m.exception)

/-- `Minidump::GetContext`. -/
def Minidump.getContext (m : Minidump) (threadId : ℕ) : Option MinidumpContext :=
  m.contexts threadId

/-- `Minidump::GetCrashContext`. -/
def Minidump.getCrashContext (m : Minidump) : Option MinidumpContext :=
  m.getContext (MDRawExceptionStream.threadId m.exception)

/-- The file offset at which `GetMemory` looks for an address in a memory range, if the
range has the requested bytes. -/
def MDMemoryDescriptor.offsetOf (d : MDMemoryDescriptor) (address size : BitVec 64) :
    Option ℤ :=
  let startAddr := BitVec.ofNat 64 d.startOfMemoryRange
  let endAddr := startAddr + BitVec.ofNat 64 (MDMemoryDescriptor.memory d).dataSize
  if startAddr ≤ address && address < endAddr && address + size ≤ endAddr then
    some (BitVec.ofNat 64 (MDMemoryDescriptor.memory d).rva + (address - startAddr)).toInt
  else none

/-- The loop of `GetMemory` over the memory ranges. `malloc` is taken to succeed. -/
def scanMemories (address size : BitVec 64) :
    List MDMemoryDescriptor → InputStream → Option (List UInt8) × InputStream
  | [], s => (none, s)
  | d :: rest, s =>
    match MDMemoryDescriptor.offsetOf d address size with
    | none => scanMemories address size rest s
    | some off =>
      match seekTo s off with
      | (false, s) => scanMemories address size rest s
      | (true, s) =>
        match readBytes s size.toNat with
        | (false, _, s) => scanMemories address size rest s
        | (true, got, s) => (some got, s)

/-- `Minidump::GetMemory`: the buffer if it succeeds. -/
def Minidump.getMemory (m : Minidump) (address size : BitVec 64) :
    Option (List UInt8) × Minidump :=
  let (result, s) := scanMemories address size m.memories m.stream
  (result, { m with stream := s })

/-- The UTF-8 bytes that `UTF16ToUTF8` appends for a code point, `none` if it gives up. -/
def utf8OfCodePoint (unichar : ℕ) : Option (List UInt8) :=
  if unichar < 0x80 then some [.ofNat unichar]
  else if unichar < 0x800 then
    some [.ofNat (0xc0 ||| unichar >>> 6), .ofNat (0x80 ||| unichar &&& 0x3f)]
  else if unichar < 0x10000 then
    some [.ofNat (0xe0 ||| unichar >>> 12), .ofNat (0x80 ||| (unichar >>> 6) &&& 0x3f),
      .ofNat (0x80 ||| unichar &&& 0x3f)]
  else if unichar < 0x200000 then
    some [.ofNat (0xf0 ||| unichar >>> 18), .ofNat (0x80 ||| (unichar >>> 12) &&& 0x3f),
      .ofNat (0x80 ||| (unichar >>> 6) &&& 0x3f), .ofNat (0x80 ||| unichar &&& 0x3f)]
  else none

/-- The loop of `UTF16ToUTF8` over the words; `none` is the early return of `""`. The
bounds `0xdcff` are those of the source. -/
def utf16Loop : List ℕ → Option (List UInt8)
  | [] => some []
  | inWord :: rest =>
    if 0xdc00 ≤ inWord ∧ inWord ≤ 0xdcff then none
    else if 0xd800 ≤ inWord ∧ inWord ≤ 0xdbff then
      match rest with
      | [] => none
      | low :: rest =>
        if low < 0xdc00 ∨ 0xdcff < low then none
        else do
          let bytes ← utf8OfCodePoint ((inWord - 0xd7c0) <<< 10 ||| low &&& 0x03ff)
          let out ← utf16Loop rest
          return bytes ++ out
    else do
      let bytes ← utf8OfCodePoint inWord
      let out ← utf16Loop rest
      return bytes ++ out

/-- `UTF16ToUTF8`. -/
def utf16ToUtf8 (words : List ℕ) : List UInt8 := (utf16Loop words).getD []

/-- The 16-bit words stored in a buffer. -/
def wordsOf (count : ℕ) (bytes : List UInt8) : List ℕ :=
  (List.range count).map fun i => LittleEndian.decode ((bytes.drop (2 * i)).take 2)

/-- `Minidump::ReadString`. -/
def Minidump.readString (m : Minidump) (offset : ℤ) : List UInt8 × Minidump :=
  match seekTo m.stream offset with
  | (false, s) => ([], { m with stream := s })
  | (true, s) =>
    match readBytes s 4 with
    | (false, _, s) => ([], { m with stream := s })
    | (true, sizeBytes, s) =>
      let size := LittleEndian.decode sizeBytes
      if size % 2 ≠ 0 then ([], { m with stream := s })
      else if size / 2 > 4096 then ([], { m with stream := s })
      else if size / 2 > 0 then
        match readBytes s size with
        | (false, _, s) => ([], { m with stream := s })
        | (true, got, s) => (utf16ToUtf8 (wordsOf (size / 2) got), { m with stream := s })
      else (utf16ToUtf8 [], { m with stream := s })

end DwarfExpr
