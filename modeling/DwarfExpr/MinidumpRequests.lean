import DwarfExpr.Lib.RequestLog
import DwarfExpr.Minidump
import DwarfExpr.MinidumpListStream

/-!
# Requests to an open minidump

The stream parses of `Read` and the queries after it share one stream, whose failure bit
nothing clears. A request on a failed stream gets nothing from the file, so its answer is
that of a freshly opened stream only where that would get nothing either.
-/

namespace DwarfExpr

open InputStream (slice openAt)
open RequestLog (Along HistoryIndependent)

/-- A stream parse inside `Read`, or a query after it. -/
inductive MinidumpRequest where
  | parse (directory : MDRawDirectory)
  | getMemory (address size : BitVec 64)
  | readString (offset : ℤ)

/-- The answer to a request: success and result, where the result of a parse is the
`Minidump` without its stream. -/
inductive MinidumpAnswer where
  | crash
  | parsed (ok : Bool) (m : Minidump)
  | memory (buffer : Option (List UInt8))
  | string (text : List UInt8)

/-- The `Minidump` with a freshly opened stream over the same file. -/
def Minidump.reopen (m : Minidump) : Minidump := { m with stream := .ofImage m.stream.image }

@[simp] theorem Minidump.reopen_threads (m : Minidump) : m.reopen.threads = m.threads := rfl

@[simp] theorem Minidump.reopen_modules (m : Minidump) : m.reopen.modules = m.modules := rfl

@[simp] theorem Minidump.reopen_memories (m : Minidump) : m.reopen.memories = m.memories := rfl

@[simp] theorem Minidump.reopen_exception (m : Minidump) :
    m.reopen.exception = m.exception := rfl

@[simp] theorem Minidump.reopen_systemInfo (m : Minidump) :
    m.reopen.systemInfo = m.systemInfo := rfl

/-- Serve one request. A crash ends the run. -/
def Minidump.serve (m : Minidump) : MinidumpRequest → MinidumpAnswer × Option Minidump
  | .parse directory =>
    match m.parse directory with
    | none => (.crash, none)
    | some (ok, m) => (.parsed ok m.detached, some m)
  | .getMemory address size =>
    let (buffer, m) := m.getMemory address size
    (.memory buffer, some m)
  | .readString offset =>
    let (text, m) := m.readString offset
    (.string text, some m)

/-- The answer that takes nothing from the file. Entries of other types are passed over,
which counts as success. -/
def Minidump.nothing (m : Minidump) : MinidumpRequest → MinidumpAnswer
  | .parse directory => .parsed directory.handledType.isNone m.detached
  | .getMemory _ _ => .memory none
  | .readString _ => .string []

/-- A list stream that fills nothing: the vector is filled already, or the entry and the
file do not announce a list. -/
def ListSilent {size : ℕ} (image : List UInt8) (stream : List (RawObject size))
    (directory : MDRawDirectory) (itemSize : ℕ) : Prop :=
  stream ≠ [] ∨ ¬∃ n h, ListHeaderAt image directory itemSize 10000 n h

/-- A location at which `MinidumpContext::Read` fails. -/
def ContextRefused (image : List UInt8) (loc : MDLocationDescriptor) : Prop :=
  if loc.dataSize = 1232 then image.length < loc.rva + 1232
  else if loc.dataSize = sizeofContextPPC64 then True
  else if loc.dataSize = 796 then
    image.length < loc.rva + 796 ∨
      cpuType (LittleEndian.decode (slice image loc.rva 8)) ≠ mdContextARM64Old
  else image.length ≤ loc.rva

/-- An offset at which `ReadString` finds a string that is not empty. -/
def StringAt (image : List UInt8) (offset : ℤ) : Prop :=
  let size := LittleEndian.decode (slice image offset.toNat 4)
  0 ≤ offset ∧ offset.toNat + 4 + size ≤ image.length ∧ size % 2 = 0 ∧ size / 2 ≤ 4096 ∧
    utf16ToUtf8 (wordsOf (size / 2) (slice image (offset.toNat + 4) size)) ≠ []

/-- The file has nothing new for the entry: a list stream fills nothing, or a record is of
the wrong size or incomplete and changes nothing. -/
def Minidump.EntrySilent (m : Minidump) (directory : MDRawDirectory) : Prop :=
  match directory.handledType with
  | some .threadList => ListSilent m.stream.image m.threads directory 48
  | some .moduleList => ListSilent m.stream.image m.modules directory mdModuleSize
  | some .memoryList => ListSilent m.stream.image m.memories directory 16
  | some .exception =>
    directory.location.dataSize ≠ 168 ∨
      slice m.stream.image directory.location.rva 168 <+: m.exception.bytes ∧
        (m.stream.image.length < directory.location.rva + 168 ∨
          ContextRefused m.stream.image (MDRawExceptionStream.threadContext m.exception))
  | some .systemInfo =>
    directory.location.dataSize ≠ 56 ∨
      slice m.stream.image directory.location.rva 56 <+: m.systemInfo.bytes ∧
        m.stream.image.length < directory.location.rva + 56
  | none => True

/-- The file has nothing for the request: nothing for the entry, not all of the memory
range that would answer, or no string. -/
def Minidump.Silent (m : Minidump) : MinidumpRequest → Prop
  | .parse directory => m.EntrySilent directory
  | .getMemory address size =>
    ∀ off, m.memories.findSome? (fun d => MDMemoryDescriptor.offsetOf d address size) = some off →
      off < 0 ∨ (0 < size.toNat ∧ m.stream.image.length < off.toNat + size.toNat)
  | .readString offset => ¬StringAt m.stream.image offset

/-- On a failed stream no memory range is read. Induction on the ranges. -/
theorem scanMemories_of_failed {address size : BitVec 64} {ranges : List MDMemoryDescriptor}
    {s : InputStream} (hs : s.failbit = true) :
    (scanMemories address size ranges s).1 = none := by
  induction ranges generalizing s with
  | nil => rfl
  | cons d rest ih =>
    unfold scanMemories
    cases MDMemoryDescriptor.offsetOf d address size with
    | none => exact ih hs
    | some off =>
      obtain ⟨s', hseek, hs'⟩ := seekTo_of_failed hs off
      simp only [hseek]
      exact ih hs'

/-- On an unfailed stream the first range that covers the request decides: what it has in
the file is the answer, and otherwise the stream has failed. -/
theorem scanMemories_of_unfailed {address size : BitVec 64} {ranges : List MDMemoryDescriptor}
    {s : InputStream} (hs : s.failbit = false) :
    (scanMemories address size ranges s).1 =
      (ranges.findSome? fun d => MDMemoryDescriptor.offsetOf d address size).bind fun off =>
        if off < 0 ∨ (0 < size.toNat ∧ s.image.length < off.toNat + size.toNat) then none
        else some (slice s.image off.toNat size.toNat) := by
  induction ranges with
  | nil => rfl
  | cons d rest ih =>
    unfold scanMemories
    rw [List.findSome?_cons]
    cases MDMemoryDescriptor.offsetOf d address size with
    | none => exact ih
    | some off =>
      simp only [Option.bind_some]
      by_cases hneg : off < 0
      · obtain ⟨s', hseek, hs'⟩ := seekTo_of_neg hs hneg
        rw [if_pos (.inl hneg)]
        simp only [hseek]
        exact scanMemories_of_failed hs'
      · lift off to ℕ using Int.not_lt.mp hneg
        simp only [seekTo_of_unfailed hs off, Int.toNat_natCast]
        by_cases hfits : off + size.toNat ≤ s.image.length
        · rw [if_neg (by omega)]
          simp only [readBytes_of_le hfits]
        · by_cases hzero : 0 < size.toNat
          · obtain ⟨s', hread, hs'⟩ := readBytes_of_not_le hzero hfits
            rw [if_pos (by omega)]
            simp only [hread]
            exact scanMemories_of_failed hs'
          · have hnothing : size.toNat = 0 := by omega
            rw [if_neg (by omega), hnothing]
            simp only [readBytes_zero]

/-- On an unfailed stream `ReadString` depends on the file only. -/
theorem readString_of_unfailed {m : Minidump} (hs : m.stream.failbit = false) (offset : ℤ) :
    (m.readString offset).1 =
      let size := LittleEndian.decode (slice m.stream.image offset.toNat 4)
      if 0 ≤ offset ∧ offset.toNat + 4 + size ≤ m.stream.image.length ∧ size % 2 = 0 ∧
          size / 2 ≤ 4096 then
        utf16ToUtf8 (wordsOf (size / 2) (slice m.stream.image (offset.toNat + 4) size))
      else [] := by
  unfold Minidump.readString
  by_cases hneg : offset < 0
  · obtain ⟨s', hseek, -⟩ := seekTo_of_neg hs hneg
    simp only [hseek]
    rw [if_neg (by omega)]
  lift offset to ℕ using Int.not_lt.mp hneg
  simp only [seekTo_of_unfailed hs offset, Int.toNat_natCast]
  generalize hsize : LittleEndian.decode (slice m.stream.image offset 4) = size
  by_cases hword : offset + 4 ≤ m.stream.image.length
  · simp only [readBytes_of_le hword, hsize]
    split
    case isTrue hodd => rw [if_neg (by omega)]
    case isFalse heven =>
      split
      case isTrue hlong => rw [if_neg (by omega)]
      case isFalse hshort =>
        by_cases hzero : size / 2 > 0
        · rw [if_pos hzero]
          by_cases hfits : offset + 4 + size ≤ m.stream.image.length
          · simp only [readBytes_of_le hfits]
            rw [if_pos (by omega)]
          · obtain ⟨s', hread, -⟩ := readBytes_of_not_le (by omega) hfits
            simp only [hread]
            rw [if_neg (by omega)]
        · obtain rfl : size = 0 := by omega
          rw [if_neg hzero, if_pos (by omega)]
          rfl
  · obtain ⟨s', hread, -⟩ := readBytes_of_not_le (by decide) hword
    simp only [hread]
    rw [if_neg (by omega)]

/-- A parse on a failed stream fails and changes nothing but the stream, if the entry is
of a handled type. -/
theorem parse_of_failed {m : Minidump} (hs : m.stream.failbit = true)
    (directory : MDRawDirectory) :
    ∃ s', m.parse directory = some (directory.handledType.isNone, { m with stream := s' }) := by
  unfold Minidump.parse
  cases directory.handledType with
  | none => exact ⟨m.stream, rfl⟩
  | some type =>
    cases type with
    | threadList =>
      obtain ⟨s', hrun⟩ := @readStream_of_failed _ 48 10000 _ hs directory m.threads
      exact ⟨s', by simp only [Minidump.readThreadListStream, hrun]; rfl⟩
    | moduleList =>
      obtain ⟨s', hrun⟩ := @readStream_of_failed _ mdModuleSize 10000 _ hs directory m.modules
      exact ⟨s', by simp only [Minidump.readModuleListStream, hrun]; rfl⟩
    | memoryList =>
      obtain ⟨s', hrun⟩ := @readStream_of_failed _ 16 10000 _ hs directory m.memories
      exact ⟨s', by simp only [Minidump.readMemoryListStream, hrun]; rfl⟩
    | exception =>
      obtain ⟨s', hrun⟩ := readStreamSingle_of_failed hs directory m.exception
      exact ⟨s', by simp only [Minidump.readExceptionStream, hrun]; rfl⟩
    | systemInfo =>
      obtain ⟨s', hrun⟩ := readStreamSingle_of_failed hs directory m.systemInfo
      exact ⟨s', by simp only [Minidump.readSystemInfoStream, hrun]; rfl⟩

/-- A request on a failed stream gets nothing. -/
theorem serve_of_failed {m : Minidump} (hs : m.stream.failbit = true) (q : MinidumpRequest) :
    (m.serve q).1 = m.nothing q := by
  cases q with
  | parse directory =>
    obtain ⟨s', hparse⟩ := parse_of_failed hs directory
    simp only [Minidump.serve, hparse]
    rfl
  | getMemory address size =>
    have hscan := @scanMemories_of_failed address size m.memories m.stream hs
    exact congrArg MinidumpAnswer.memory hscan
  | readString offset =>
    obtain ⟨t, hseek, -⟩ := seekTo_of_failed hs offset
    simp only [Minidump.serve, Minidump.readString, hseek]
    rfl

/-- A parse on an unfailed stream ends as on a freshly opened one, unless it does not use
the stream at all. -/
theorem parse_of_unfailed {m : Minidump} (hs : m.stream.failbit = false)
    (directory : MDRawDirectory) :
    m.parse directory = m.reopen.parse directory ∨
      ∃ ok, m.parse directory = some (ok, m) ∧
        m.reopen.parse directory = some (ok, m.reopen) := by
  have hfresh : m.reopen.stream.failbit = false := rfl
  have himage : m.stream.image = m.reopen.stream.image := rfl
  have hlist {size itemSize : ℕ} (stream : List (RawObject size)) :
      readStream directory stream itemSize 10000 m.stream =
          readStream directory stream itemSize 10000 m.reopen.stream ∨
        readStream directory stream itemSize 10000 m.stream = (false, stream, m.stream) ∧
          readStream directory stream itemSize 10000 m.reopen.stream =
            (false, stream, m.reopen.stream) := by
    by_cases hempty : stream = []
    · subst hempty
      exact .inl (readStream_eq_of_image hs hfresh himage directory)
    · exact .inr ⟨readStream_of_ne_nil hempty _ _, readStream_of_ne_nil hempty _ _⟩
  have hsingle {size : ℕ} (stream : RawObject size) :=
    readStreamSingle_eq_of_image hs hfresh himage directory stream
  unfold Minidump.parse
  cases directory.handledType with
  | none => exact .inr ⟨true, rfl, rfl⟩
  | some type =>
    cases type with
    | threadList =>
      unfold Minidump.readThreadListStream
      rcases @hlist _ 48 m.threads with hrun | ⟨hrun, hrun'⟩
      · exact .inl (by simp only [Minidump.reopen_threads, hrun]; rfl)
      · exact .inr ⟨false, by simp only [hrun], by simp only [Minidump.reopen_threads, hrun']; rfl⟩
    | moduleList =>
      unfold Minidump.readModuleListStream
      rcases @hlist _ mdModuleSize m.modules with hrun | ⟨hrun, hrun'⟩
      · exact .inl (by simp only [Minidump.reopen_modules, hrun]; rfl)
      · exact .inr ⟨false, by simp only [hrun], by simp only [Minidump.reopen_modules, hrun']; rfl⟩
    | memoryList =>
      unfold Minidump.readMemoryListStream
      rcases @hlist _ 16 m.memories with hrun | ⟨hrun, hrun'⟩
      · exact .inl (by simp only [Minidump.reopen_memories, hrun]; rfl)
      · exact .inr ⟨false, by simp only [hrun],
          by simp only [Minidump.reopen_memories, hrun']; rfl⟩
    | exception =>
      left
      simp only [Minidump.readExceptionStream, Minidump.reopen_exception, hsingle]
      rfl
    | systemInfo =>
      left
      simp only [Minidump.readSystemInfoStream, Minidump.reopen_systemInfo, hsingle]
      rfl

/-- A request on an unfailed stream is answered as on a freshly opened one. -/
theorem serve_of_unfailed {m : Minidump} (hs : m.stream.failbit = false) (q : MinidumpRequest) :
    (m.serve q).1 = (m.reopen.serve q).1 := by
  have hfresh : m.reopen.stream.failbit = false := rfl
  cases q with
  | parse directory =>
    rcases parse_of_unfailed hs directory with hsame | ⟨ok, hparse, hparse'⟩
    · simp only [Minidump.serve, hsame]
    · simp only [Minidump.serve, hparse, hparse']
      rfl
  | getMemory address size =>
    have hscan := @scanMemories_of_unfailed address size m.memories _ hs
    have hscan' := @scanMemories_of_unfailed address size m.memories _ hfresh
    exact congrArg MinidumpAnswer.memory (hscan.trans hscan'.symm)
  | readString offset =>
    have hstring := readString_of_unfailed hs offset
    have hstring' := readString_of_unfailed hfresh offset
    exact congrArg MinidumpAnswer.string (hstring.trans hstring'.symm)

/-- A list stream that fills nothing is one that fails and leaves the vector as it was. -/
theorem readStream_silent_iff {size itemSize : ℕ} {s : InputStream} (hs : s.failbit = false)
    (hpos : 0 < itemSize) (directory : MDRawDirectory) (stream : List (RawObject size)) :
    ((readStream directory stream itemSize 10000 s).1 = false ∧
        (readStream directory stream itemSize 10000 s).2.1 = stream) ↔
      ListSilent s.image stream directory itemSize := by
  unfold ListSilent
  by_cases hempty : stream = []
  · subst hempty
    simp only [ne_eq, not_true_eq_false, false_or]
    constructor
    · rintro ⟨hok, hstream⟩ ⟨n, h, hat⟩
      rw [readStream_of_listHeaderAt hs hpos hat] at hok hstream
      split at hok
      case isFalse => cases hok
      case isTrue hcount =>
        rw [if_pos hcount] at hstream
        have hlength := @length_readItems size itemSize (List.replicate n (RawObject.zero size))
          (openAt s.image (directory.location.rva + h))
        rw [hstream, List.length_nil, List.length_replicate] at hlength
        omega
    · intro hnone
      obtain ⟨s', hrun⟩ := @readStream_of_not_listHeaderAt size _ _ _ _ hs hpos hnone
      rw [hrun]
      exact ⟨rfl, rfl⟩
  · rw [readStream_of_ne_nil hempty]
    exact ⟨fun _ => .inl hempty, fun _ => ⟨rfl, rfl⟩⟩

/-- `MinidumpContext::Read` on an unfailed stream fails exactly at refused locations. -/
theorem contextRead_none_iff {s : InputStream} (hs : s.failbit = false)
    (loc : MDLocationDescriptor) :
    (∃ s', MinidumpContext.read loc s = some (none, s')) ↔ ContextRefused s.image loc := by
  unfold MinidumpContext.read ContextRefused
  simp only [seekTo_of_unfailed hs]
  split
  · by_cases hfits : loc.rva + 1232 ≤ s.image.length
    · simp only [readBytes_of_le hfits]
      simp only [Option.some.injEq, Prod.mk.injEq, reduceCtorEq, false_and, exists_false, false_iff]
      omega
    · obtain ⟨s', hread, -⟩ := readBytes_of_not_le (by decide) hfits
      simp only [hread]
      exact ⟨fun _ => by omega, fun _ => ⟨_, rfl⟩⟩
  split
  · exact ⟨fun _ => trivial, fun _ => ⟨_, rfl⟩⟩
  split
  · by_cases hflags : loc.rva + 8 ≤ s.image.length
    · simp only [readBytes_of_le hflags]
      split
      case isTrue hcpu => exact ⟨fun _ => .inr hcpu, fun _ => ⟨_, rfl⟩⟩
      case isFalse hcpu =>
        by_cases hfits : loc.rva + 8 + (796 - 8) ≤ s.image.length
        · simp only [readBytes_of_le hfits]
          simp only [Option.some.injEq, Prod.mk.injEq, reduceCtorEq, false_and, exists_false,
            false_iff, not_or]
          exact ⟨by omega, hcpu⟩
        · obtain ⟨s', hread, -⟩ := readBytes_of_not_le (by decide) hfits
          simp only [hread]
          exact ⟨fun _ => .inl (by omega), fun _ => ⟨_, rfl⟩⟩
    · obtain ⟨s', hread, -⟩ := readBytes_of_not_le (by decide) hflags
      simp only [hread]
      exact ⟨fun _ => .inl (by omega), fun _ => ⟨_, rfl⟩⟩
  · by_cases hbeyond : s.image.length ≤ loc.rva
    · obtain ⟨s', hnull, -⟩ := @readBytesToNull_of_beyond s.image loc.rva 4 (by decide) hbeyond
      simp only [hnull]
      exact ⟨fun _ => hbeyond, fun _ => ⟨_, rfl⟩⟩
    · have hnull := @readBytesToNull_of_inside s.image loc.rva 4 (by decide) (by omega)
      simp only [hnull, reduceCtorEq, exists_false, hbeyond]

/-- The thread list parse changes nothing and fails exactly when the list fills nothing. -/
theorem readThreadListStream_silent_iff {m : Minidump} (hs : m.stream.failbit = false)
    (directory : MDRawDirectory) :
    (∃ s', m.readThreadListStream directory = some (false, { m with stream := s' })) ↔
      ListSilent m.stream.image m.threads directory 48 := by
  have hsilent := @readStream_silent_iff 48 48 _ hs (by decide) directory m.threads
  unfold Minidump.readThreadListStream
  cases hrun : readStream directory m.threads 48 10000 m.stream with
  | mk ok result =>
    obtain ⟨threads, s⟩ := result
    rw [hrun] at hsilent
    rw [← hsilent]
    cases ok with
    | false =>
      constructor
      · rintro ⟨s', hm⟩
        exact ⟨rfl, congrArg (fun r => Minidump.threads r.2) (Option.some.inj hm)⟩
      · rintro ⟨-, rfl⟩
        exact ⟨s, rfl⟩
    | true =>
      refine ⟨?_, fun h => nomatch h.1⟩
      rintro ⟨s', hm⟩
      obtain ⟨⟨okc, contexts, s''⟩, hcontexts, hm⟩ := Option.map_eq_some_iff.mp hm
      have hok : okc = false := congrArg Prod.fst hm
      have hthreads : threads = m.threads := congrArg (fun r => Minidump.threads r.2) hm
      -- A vector filled before would have made `ReadStream` fail, and an empty list of
      -- threads has no context that could fail.
      by_cases hempty : m.threads = []
      · rw [hthreads, hempty] at hcontexts
        cases hcontexts
        cases hok
      · rw [readStream_of_ne_nil hempty] at hrun
        cases hrun

/-- The same for the exception stream. -/
theorem readExceptionStream_silent_iff {m : Minidump} (hs : m.stream.failbit = false)
    (directory : MDRawDirectory) :
    (∃ s', m.readExceptionStream directory = some (false, { m with stream := s' })) ↔
      directory.location.dataSize ≠ 168 ∨
        slice m.stream.image directory.location.rva 168 <+: m.exception.bytes ∧
          (m.stream.image.length < directory.location.rva + 168 ∨
            ContextRefused m.stream.image (MDRawExceptionStream.threadContext m.exception)) := by
  have hstore := @RawObject.store_zero_eq_self_iff 168 m.exception
    (slice m.stream.image directory.location.rva 168) (InputStream.length_slice_le _ _ _)
  unfold Minidump.readExceptionStream readStreamSingle
  simp only [seekTo_of_unfailed hs]
  by_cases hsize : directory.location.dataSize = 168
  case neg =>
    rw [if_pos hsize]
    exact ⟨fun _ => .inl hsize, fun _ => ⟨_, rfl⟩⟩
  rw [if_neg (not_not_intro hsize)]
  by_cases hfits : directory.location.rva + 168 ≤ m.stream.image.length
  · have hcontext := @contextRead_none_iff
      (openAt m.stream.image (directory.location.rva + 168)) rfl
    simp only [readBytes_of_le hfits]
    constructor
    · rintro ⟨s', hm⟩
      obtain ⟨⟨c, s''⟩, hread, hm⟩ := Option.map_eq_some_iff.mp hm
      cases c with
      | some context =>
        have hok : true = false := congrArg Prod.fst hm
        cases hok
      | none =>
        have hsame := congrArg (fun r => Minidump.exception r.2) hm
        rw [show m.exception.store 0 _ = m.exception from hsame] at hread
        exact .inr ⟨hstore.mp hsame, .inr ((hcontext _).mp ⟨_, hread⟩)⟩
    · rintro (hother | ⟨hheld, hbeyond | hrefused⟩)
      · exact absurd hsize hother
      · omega
      · obtain ⟨s', hread⟩ := (hcontext _).mpr hrefused
        rw [hstore.mpr hheld, hread]
        exact ⟨s', rfl⟩
  · obtain ⟨s', hread, -⟩ := readBytes_of_not_le (by decide) hfits
    simp only [hread]
    constructor
    · rintro ⟨s'', hm⟩
      have hsame := congrArg (fun r => Minidump.exception r.2) (Option.some.inj hm)
      exact .inr ⟨hstore.mp hsame, .inl (by omega)⟩
    · rintro (hother | ⟨hheld, -⟩)
      · exact absurd hsize hother
      · rw [hstore.mpr hheld]
        exact ⟨s', rfl⟩

/-- The same for the system information. -/
theorem readSystemInfoStream_silent_iff {m : Minidump} (hs : m.stream.failbit = false)
    (directory : MDRawDirectory) :
    (∃ s', m.readSystemInfoStream directory = (false, { m with stream := s' })) ↔
      directory.location.dataSize ≠ 56 ∨
        slice m.stream.image directory.location.rva 56 <+: m.systemInfo.bytes ∧
          m.stream.image.length < directory.location.rva + 56 := by
  have hstore := @RawObject.store_zero_eq_self_iff 56 m.systemInfo
    (slice m.stream.image directory.location.rva 56) (InputStream.length_slice_le _ _ _)
  unfold Minidump.readSystemInfoStream readStreamSingle
  simp only [seekTo_of_unfailed hs]
  by_cases hsize : directory.location.dataSize = 56
  case neg =>
    rw [if_pos hsize]
    exact ⟨fun _ => .inl hsize, fun _ => ⟨_, rfl⟩⟩
  rw [if_neg (not_not_intro hsize)]
  by_cases hfits : directory.location.rva + 56 ≤ m.stream.image.length
  · simp only [readBytes_of_le hfits]
    constructor
    · rintro ⟨s', hm⟩
      have hok : true = false := congrArg Prod.fst hm
      cases hok
    · rintro (hother | ⟨-, hbeyond⟩)
      · exact absurd hsize hother
      · omega
  · obtain ⟨s', hread, -⟩ := readBytes_of_not_le (by decide) hfits
    simp only [hread]
    constructor
    · rintro ⟨s'', hm⟩
      have hsame := congrArg (fun r => Minidump.systemInfo r.2) hm
      exact .inr ⟨hstore.mp hsame, by omega⟩
    · rintro (hother | ⟨hheld, -⟩)
      · exact absurd hsize hother
      · rw [hstore.mpr hheld]
        exact ⟨s', rfl⟩

/-- A parse on an unfailed stream gets nothing exactly when the file has nothing for it. -/
theorem parse_silent_iff {m : Minidump} (hs : m.stream.failbit = false)
    (directory : MDRawDirectory) :
    (∃ s', m.parse directory = some (directory.handledType.isNone, { m with stream := s' })) ↔
      m.EntrySilent directory := by
  unfold Minidump.parse Minidump.EntrySilent
  cases directory.handledType with
  | none => exact ⟨fun _ => trivial, fun _ => ⟨m.stream, rfl⟩⟩
  | some type =>
    cases type with
    | threadList => exact readThreadListStream_silent_iff hs directory
    | moduleList =>
      dsimp only
      rw [← @readStream_silent_iff 112 mdModuleSize _ hs (by decide) directory m.modules]
      unfold Minidump.readModuleListStream
      constructor
      · rintro ⟨s', hm⟩
        have hm := Option.some.inj hm
        exact ⟨congrArg Prod.fst hm, congrArg (fun r => Minidump.modules r.2) hm⟩
      · rintro ⟨hok, hmodules⟩
        refine ⟨(readStream directory m.modules mdModuleSize 10000 m.stream).2.2, ?_⟩
        simp only [hok, hmodules, Option.isNone_some]
    | memoryList =>
      dsimp only
      rw [← @readStream_silent_iff 16 16 _ hs (by decide) directory m.memories]
      unfold Minidump.readMemoryListStream
      constructor
      · rintro ⟨s', hm⟩
        have hm := Option.some.inj hm
        exact ⟨congrArg Prod.fst hm, congrArg (fun r => Minidump.memories r.2) hm⟩
      · rintro ⟨hok, hmemories⟩
        refine ⟨(readStream directory m.memories 16 10000 m.stream).2.2, ?_⟩
        simp only [hok, hmemories, Option.isNone_some]
    | exception => exact readExceptionStream_silent_iff hs directory
    | systemInfo =>
      dsimp only
      simp only [Option.some.injEq, Option.isNone_some]
      exact readSystemInfoStream_silent_iff hs directory

/-- A request on an unfailed stream gets nothing exactly when the file has nothing for
it. -/
theorem serve_eq_nothing_iff {m : Minidump} (hs : m.stream.failbit = false)
    (q : MinidumpRequest) : (m.serve q).1 = m.nothing q ↔ m.Silent q := by
  cases q with
  | parse directory =>
    refine Iff.trans ?_ (parse_silent_iff hs directory)
    simp only [Minidump.serve, Minidump.nothing]
    cases m.parse directory with
    | none => simp
    | some result =>
      obtain ⟨ok, m'⟩ := result
      simp only [MinidumpAnswer.parsed.injEq, Minidump.detached_eq_iff, Option.some.injEq,
        Prod.mk.injEq]
      constructor
      · rintro ⟨hok, hm⟩
        exact ⟨_, hok, hm⟩
      · rintro ⟨s', hok, rfl⟩
        exact ⟨hok, rfl⟩
  | getMemory address size =>
    have hscan := @scanMemories_of_unfailed address size m.memories _ hs
    simp only [Minidump.serve, Minidump.getMemory, Minidump.nothing, Minidump.Silent,
      MinidumpAnswer.memory.injEq, hscan, Option.bind_eq_none_iff]
    apply forall₂_congr
    intro off hfirst
    split
    case isTrue hmissing => exact ⟨fun _ => hmissing, fun _ => rfl⟩
    case isFalse hfound => exact ⟨fun h => (nomatch h), fun h => absurd h hfound⟩
  | readString offset =>
    have hstring := readString_of_unfailed hs offset
    simp only [Minidump.serve, Minidump.nothing, Minidump.Silent, StringAt,
      MinidumpAnswer.string.injEq, hstring]
    split
    case isTrue hfound =>
      obtain ⟨hoff, hfits, heven, hlong⟩ := hfound
      constructor
      · rintro hempty ⟨-, -, -, -, htext⟩
        exact htext hempty
      · intro hnone
        by_contra htext
        exact hnone ⟨hoff, hfits, heven, hlong, htext⟩
    case isFalse hmissing =>
      refine ⟨?_, fun _ => rfl⟩
      rintro - ⟨hoff, hfits, heven, hlong, -⟩
      exact hmissing ⟨hoff, hfits, heven, hlong⟩

/-- A request is answered as on a freshly opened stream exactly when the stream has not
failed or the file has nothing for the request. -/
theorem serve_eq_reopen_iff (m : Minidump) (q : MinidumpRequest) :
    (m.serve q).1 = (m.reopen.serve q).1 ↔ m.stream.failbit = false ∨ m.Silent q := by
  cases hs : m.stream.failbit with
  | false => exact ⟨fun _ => .inl rfl, fun _ => serve_of_unfailed hs q⟩
  | true =>
    have hfresh : (m.reopen.serve q).1 = m.reopen.nothing q ↔ m.reopen.Silent q :=
      serve_eq_nothing_iff rfl q
    have hnothing : m.reopen.nothing q = m.nothing q := by cases q <;> rfl
    have hsilent : m.reopen.Silent q ↔ m.Silent q := by cases q <;> exact Iff.rfl
    rw [serve_of_failed hs, ← hnothing, eq_comm, hfresh, hsilent]
    simp

/-- A sequence of stream parses and queries is answered as on freshly opened streams
exactly when, before each request, no earlier one has made the stream fail or the file has
nothing for the request. -/
theorem serve_historyIndependent_iff (m : Minidump) (requests : List MinidumpRequest) :
    HistoryIndependent Minidump.serve Minidump.reopen m requests ↔
      Along Minidump.serve (fun m q => m.stream.failbit = false ∨ m.Silent q) m requests := by
  have hiff (m : Minidump) (q : MinidumpRequest) (_ : True) := serve_eq_reopen_iff m q
  exact RequestLog.Along.congr_of_invariant hiff (fun _ _ _ _ _ => trivial) trivial

/-- The entry of a module list that lies behind the end of the file. -/
def missingModuleList : MDRawDirectory := directoryEntry 4 4 1000

/-- The entry of a memory list with one range. -/
def oneMemoryRange : MDRawDirectory := directoryEntry 5 20 56

/-- A minidump file with these two entries. -/
def truncatedFile : List UInt8 :=
  LittleEndian.encode 4 0x504d444d ++ LittleEndian.encode 4 0xa793 ++ LittleEndian.encode 4 2 ++
    LittleEndian.encode 4 32 ++ List.replicate 16 0 ++ missingModuleList.bytes ++
    oneMemoryRange.bytes ++ LittleEndian.encode 4 1 ++ LittleEndian.encode 8 0x1000 ++
    LittleEndian.encode 4 4 ++ LittleEndian.encode 4 72

/-- Whether a request succeeded. -/
def MinidumpAnswer.succeeded : MinidumpAnswer → Bool
  | .crash => false
  | .parsed ok _ => ok
  | .memory buffer => buffer.isSome
  | .string text => !text.isEmpty

/-- The missing module list takes the memory list behind it along. -/
theorem serve_not_historyIndependent :
    ¬HistoryIndependent Minidump.serve Minidump.reopen (Minidump.ofFile truncatedFile)
      [.parse missingModuleList, .parse oneMemoryRange] := by
  intro h
  have hsecond := congrArg MinidumpAnswer.succeeded (h.2 _ rfl).1
  revert hsecond
  decide

/-- `Read` reports success on that file, without its memory list. -/
example : (Minidump.read truncatedFile).map (fun r => (r.1, r.2.directories, r.2.memories)) =
    some (true, [missingModuleList, oneMemoryRange], []) := by decide

end DwarfExpr
