import DwarfExpr.MinidumpListStream
import DwarfExpr.MinidumpOrder

/-!
# Streams that fail to parse

`ReadStream` resizes the vector before it reads the items into it, and `ReadStreamSingle`
reads straight into its target. A stream of which the file has only a part fails with the
target changed, and `Read` keeps what is then in it.
-/

namespace DwarfExpr

open InputStream (slice openAt)

/-- A parse that fails leaves its target as it was. -/
def Untouched {α : Type*} (target : α) (outcome : Bool × α × InputStream) : Prop :=
  outcome.1 = false → outcome.2.1 = target

/-- The entry announces a list for an empty vector, and the file ends before the list does. -/
def ListCutShort {size : ℕ} (image : List UInt8) (stream : List (RawObject size))
    (directory : MDRawDirectory) (itemSize maxItemSize : ℕ) : Prop :=
  stream = [] ∧ (∃ n h, ListHeaderAt image directory itemSize maxItemSize n h) ∧
    image.length < directory.location.rva + directory.location.dataSize

/-- The entry has the size of the record, and the file has only a part of it, which the
target does not begin with already. -/
def RecordCutShort {size : ℕ} (image : List UInt8) (stream : RawObject size)
    (directory : MDRawDirectory) : Prop :=
  directory.location.dataSize = size ∧ image.length < directory.location.rva + size ∧
    ¬slice image directory.location.rva size <+: stream.bytes

section

variable {size itemSize maxItemSize : ℕ} {directory : MDRawDirectory} {s : InputStream}

/-- A list that is cut short leaves as many items as it announces. -/
theorem length_of_listCutShort {stream : List (RawObject size)} (hs : s.failbit = false)
    (hpos : 0 < itemSize) (hcut : ListCutShort s.image stream directory itemSize maxItemSize) :
    (readStream directory stream itemSize maxItemSize s).1 = false ∧
      0 < (readStream directory stream itemSize maxItemSize s).2.1.length := by
  obtain ⟨rfl, ⟨n, h, hat⟩, hend⟩ := hcut
  have hdata := hat.end_eq
  have hfile := hat.headerInFile
  have hcount : n > 0 := by
    by_contra hzero
    obtain rfl : n = 0 := by omega
    omega
  have hzeros : (List.replicate n (RawObject.zero size)).length = n := List.length_replicate
  rw [readStream_of_listHeaderAt hs hpos hat, if_pos hcount, length_readItems, hzeros]
  refine ⟨readItems_of_not_le hpos _ ?_ ?_, hcount⟩
  · rw [← List.length_pos_iff, hzeros]
    exact hcount
  · rw [hzeros]
    omega

/-- What `ReadStream` makes of a stream that is not cut short: the vector as it was, or all
items of the list that is announced. -/
theorem readStream_whole_cases {stream : List (RawObject size)} (hpos : 0 < itemSize)
    (hsize : itemSize ≤ size)
    (hwhole : s.failbit = true ∨ ¬ListCutShort s.image stream directory itemSize maxItemSize) :
    (∃ s', readStream directory stream itemSize maxItemSize s = (false, stream, s')) ∨
      ∃ v s' n h, readStream directory stream itemSize maxItemSize s = (true, v, s') ∧
        ListStreamAt s.image directory itemSize maxItemSize n h ∧ v.length = n ∧
          ∀ i (hi : i < v.length), v[i].bytes.take itemSize =
            slice s.image (directory.location.rva + h + i * itemSize) itemSize := by
  cases hs : s.failbit with
  | true => exact Or.inl (readStream_of_failed hs directory stream)
  | false =>
    by_cases hempty : stream = []
    · subst hempty
      by_cases hheader : ∃ n h, ListHeaderAt s.image directory itemSize maxItemSize n h
      · obtain ⟨n, h, hat⟩ := hheader
        have hfits : directory.location.rva + directory.location.dataSize ≤ s.image.length := by
          rw [hs] at hwhole
          by_contra hcut
          exact (hwhole.resolve_left (by decide)) ⟨rfl, ⟨n, h, hat⟩, Nat.not_le.mp hcut⟩
        obtain ⟨v, s', hrun, hlength, hitems⟩ :=
          readStream_of_listStreamAt hs hsize hpos ⟨hat, hfits⟩
        exact Or.inr ⟨v, s', n, h, hrun, ⟨hat, hfits⟩, hlength, hitems⟩
      · exact Or.inl (readStream_of_not_listHeaderAt hs hpos hheader)
    · exact Or.inl ⟨s, readStream_of_ne_nil hempty directory s⟩

/-- `ReadStream` leaves no trace when it fails, except of a list that is cut short. -/
theorem readStream_untouched_iff {stream : List (RawObject size)} (hpos : 0 < itemSize)
    (hsize : itemSize ≤ size) :
    Untouched stream (readStream directory stream itemSize maxItemSize s) ↔
      s.failbit = true ∨ ¬ListCutShort s.image stream directory itemSize maxItemSize := by
  constructor
  · intro hkept
    cases hs : s.failbit with
    | true => exact Or.inl rfl
    | false =>
      refine Or.inr fun hcut => ?_
      obtain ⟨hfail, hlength⟩ := length_of_listCutShort hs hpos hcut
      rw [hkept hfail, hcut.1] at hlength
      exact Nat.lt_irrefl 0 hlength
  · intro hwhole hfail
    rcases readStream_whole_cases hpos hsize hwhole with ⟨s', hrun⟩ | ⟨v, s', n, h, hrun, -⟩
    · rw [hrun]
    · rw [hrun] at hfail
      cases hfail

/-- `ReadStreamSingle` leaves no trace when it fails, except of a record that is cut short. -/
theorem readStreamSingle_untouched_iff {stream : RawObject size} :
    Untouched stream (readStreamSingle directory stream s) ↔
      s.failbit = true ∨ ¬RecordCutShort s.image stream directory := by
  cases hs : s.failbit with
  | true =>
    obtain ⟨s', hrun⟩ := readStreamSingle_of_failed hs directory stream
    rw [hrun]
    exact iff_of_true (fun _ => rfl) (Or.inl rfl)
  | false =>
    simp only [Bool.false_eq_true, false_or, Untouched, RecordCutShort, readStreamSingle,
      seekTo_of_unfailed hs]
    by_cases hsize : directory.location.dataSize = size
    · by_cases hfits : directory.location.rva + size ≤ s.image.length
      · simp [hsize, readBytes_of_le hfits, Nat.not_lt.mpr hfits]
      · rcases Nat.eq_zero_or_pos size with rfl | hpos
        · simp [hsize, readBytes_zero, slice]
        · obtain ⟨s', hread, -⟩ := readBytes_of_not_le hpos hfits
          have hstored := @RawObject.store_zero_eq_self_iff size stream
            (slice s.image directory.location.rva size) (InputStream.length_slice_le _ _ _)
          simp [hsize, hread, hstored, Nat.not_le.mp hfits]
    · simp [hsize]

end

/-- The parse of an entry leaves its target as it was if `ReadStream` or `ReadStreamSingle`
fails. -/
def Minidump.LeavesNoTrace (m : Minidump) (directory : MDRawDirectory) : Prop :=
  match directory.handledType with
  | some .threadList => Untouched m.threads (readStream directory m.threads 48 10000 m.stream)
  | some .moduleList =>
    Untouched m.modules (readStream directory m.modules mdModuleSize 10000 m.stream)
  | some .memoryList => Untouched m.memories (readStream directory m.memories 16 10000 m.stream)
  | some .exception => Untouched m.exception (readStreamSingle directory m.exception m.stream)
  | some .systemInfo => Untouched m.systemInfo (readStreamSingle directory m.systemInfo m.stream)
  | none => True

/-- The list or the record of an entry is cut short. -/
def Minidump.CutShort (m : Minidump) (directory : MDRawDirectory) : Prop :=
  match directory.handledType with
  | some .threadList => ListCutShort m.stream.image m.threads directory 48 10000
  | some .moduleList => ListCutShort m.stream.image m.modules directory mdModuleSize 10000
  | some .memoryList => ListCutShort m.stream.image m.memories directory 16 10000
  | some .exception => RecordCutShort m.stream.image m.exception directory
  | some .systemInfo => RecordCutShort m.stream.image m.systemInfo directory
  | none => False

/-- A parse leaves no trace when it fails exactly if the stream has failed before or nothing is
cut short. -/
theorem Minidump.leavesNoTrace_iff (m : Minidump) (directory : MDRawDirectory) :
    m.LeavesNoTrace directory ↔ m.stream.failbit = true ∨ ¬m.CutShort directory := by
  unfold LeavesNoTrace CutShort
  cases directory.handledType with
  | none => exact iff_of_true trivial (Or.inr id)
  | some type =>
    cases type with
    | threadList | moduleList | memoryList => exact readStream_untouched_iff (by decide) (by decide)
    | exception | systemInfo => exact readStreamSingle_untouched_iff

/-- The vector is empty, or holds all items of a list that an entry of this type announces. -/
def DecodedFrom {size : ℕ} (image : List UInt8) (directories : List MDRawDirectory)
    (type : StreamType) (itemSize : ℕ) (v : List (RawObject size)) : Prop :=
  v = [] ∨ ∃ d ∈ directories, d.handledType = some type ∧
    ∃ n h, ListStreamAt image d itemSize 10000 n h ∧ v.length = n ∧
      ∀ i (hi : i < v.length),
        v[i].bytes.take itemSize = slice image (d.location.rva + h + i * itemSize) itemSize

/-- The lists that the accessors expose are decoded from the file or empty. -/
structure Minidump.ListsDecoded (m : Minidump) : Prop where
  threads : DecodedFrom m.stream.image m.directories .threadList 48 m.threads
  modules : DecodedFrom m.stream.image m.directories .moduleList mdModuleSize m.modules
  memories : DecodedFrom m.stream.image m.directories .memoryList 16 m.memories

/-- A vector stays decoded when an entry that is not cut short is parsed into it. -/
theorem DecodedFrom.readStream {size itemSize : ℕ} {s : InputStream}
    {directories : List MDRawDirectory} {directory : MDRawDirectory} {type : StreamType}
    {v : List (RawObject size)} (hv : DecodedFrom s.image directories type itemSize v)
    (hpos : 0 < itemSize) (hsize : itemSize ≤ size) (hmem : directory ∈ directories)
    (htype : directory.handledType = some type)
    (hwhole : s.failbit = true ∨ ¬ListCutShort s.image v directory itemSize 10000) :
    DecodedFrom s.image directories type itemSize
      (DwarfExpr.readStream directory v itemSize 10000 s).2.1 := by
  rcases readStream_whole_cases hpos hsize hwhole with ⟨s', hrun⟩ | ⟨v', s', n, h, hrun, hat⟩
  · rw [hrun]
    exact hv
  · rw [hrun]
    exact Or.inr ⟨directory, hmem, htype, n, h, hat⟩

/-- What a parse leaves in the lists. -/
structure Minidump.ListsParsed (m : Minidump) (directory : MDRawDirectory) (m' : Minidump) :
    Prop where
  directories : m'.directories = m.directories
  threads : m'.threads = if directory.handledType = some .threadList then
    (DwarfExpr.readStream directory m.threads 48 10000 m.stream).2.1 else m.threads
  modules : m'.modules = if directory.handledType = some .moduleList then
    (DwarfExpr.readStream directory m.modules mdModuleSize 10000 m.stream).2.1 else m.modules
  memories : m'.memories = if directory.handledType = some .memoryList then
    (DwarfExpr.readStream directory m.memories 16 10000 m.stream).2.1 else m.memories

/-- Each parse changes one list at most. -/
theorem Minidump.listsParsed_of_parse {m m' : Minidump} {directory : MDRawDirectory} {ok : Bool}
    (hparse : m.parse directory = some (ok, m')) : m.ListsParsed directory m' := by
  unfold Minidump.parse at hparse
  cases htype : directory.handledType with
  | none =>
    rw [htype] at hparse
    cases hparse
    exact ⟨rfl, by simp [htype], by simp [htype], by simp [htype]⟩
  | some type =>
    rw [htype] at hparse
    cases type with
    | threadList =>
      simp only [readThreadListStream] at hparse
      rcases hrun : DwarfExpr.readStream directory m.threads 48 10000 m.stream with
        ⟨_ | _, threads, s⟩
      · rw [hrun] at hparse
        cases hparse
        exact ⟨rfl, by simp [htype, hrun], by simp [htype], by simp [htype]⟩
      · rw [hrun] at hparse
        obtain ⟨⟨okc, contexts, s'⟩, -, hm⟩ := Option.map_eq_some_iff.mp hparse
        cases hm
        exact ⟨rfl, by simp [htype, hrun], by simp [htype], by simp [htype]⟩
    | moduleList =>
      obtain rfl : (m.readModuleListStream directory).2 = m' :=
        congrArg Prod.snd (Option.some.inj hparse)
      exact ⟨rfl, by simp [htype, readModuleListStream], by simp [htype, readModuleListStream],
        by simp [htype, readModuleListStream]⟩
    | memoryList =>
      obtain rfl : (m.readMemoryListStream directory).2 = m' :=
        congrArg Prod.snd (Option.some.inj hparse)
      exact ⟨rfl, by simp [htype, readMemoryListStream], by simp [htype, readMemoryListStream],
        by simp [htype, readMemoryListStream]⟩
    | systemInfo =>
      obtain rfl : (m.readSystemInfoStream directory).2 = m' :=
        congrArg Prod.snd (Option.some.inj hparse)
      exact ⟨rfl, by simp [htype, readSystemInfoStream], by simp [htype, readSystemInfoStream],
        by simp [htype, readSystemInfoStream]⟩
    | exception =>
      simp only [readExceptionStream] at hparse
      rcases hrun : readStreamSingle directory m.exception m.stream with ⟨_ | _, exception, s⟩
      · rw [hrun] at hparse
        cases hparse
        exact ⟨rfl, by simp [htype], by simp [htype], by simp [htype]⟩
      · rw [hrun] at hparse
        obtain ⟨⟨c, s'⟩, -, hm⟩ := Option.map_eq_some_iff.mp hparse
        cases c with
        | none =>
          cases hm
          exact ⟨rfl, by simp [htype], by simp [htype], by simp [htype]⟩
        | some context =>
          cases hm
          exact ⟨rfl, by simp [htype], by simp [htype], by simp [htype]⟩

/-- The lists stay decoded when an entry that is not cut short is parsed. -/
theorem Minidump.ListsDecoded.parse {m m' : Minidump} {directory : MDRawDirectory} {ok : Bool}
    (hm : m.ListsDecoded) (hmem : directory ∈ m.directories)
    (hwhole : m.stream.failbit = true ∨ ¬m.CutShort directory)
    (hparse : m.parse directory = some (ok, m')) : m'.ListsDecoded := by
  obtain ⟨hdirectories, hthreads, hmodules, hmemories⟩ := listsParsed_of_parse hparse
  have himage := (parse_later hparse).image_eq
  unfold CutShort at hwhole
  refine ⟨?_, ?_, ?_⟩
  · rw [himage, hdirectories, hthreads]
    split
    case isTrue htype =>
      rw [htype] at hwhole
      exact hm.threads.readStream (by decide) (by decide) hmem htype hwhole
    case isFalse => exact hm.threads
  · rw [himage, hdirectories, hmodules]
    split
    case isTrue htype =>
      rw [htype] at hwhole
      exact hm.modules.readStream (by decide) (by decide) hmem htype hwhole
    case isFalse => exact hm.modules
  · rw [himage, hdirectories, hmemories]
    split
    case isTrue htype =>
      rw [htype] at hwhole
      exact hm.memories.readStream (by decide) (by decide) hmem htype hwhole
    case isFalse => exact hm.memories

/-- The loop of `Read` over these entries, entered with a `Minidump`, comes to the parse of an
entry. -/
def Minidump.ComesTo (start : Minidump) (directories : List MDRawDirectory) (m : Minidump)
    (directory : MDRawDirectory) : Prop :=
  ∃ before after, directories = before ++ directory :: after ∧
    readDirectories before start = some m

/-- The lists stay decoded in a run that parses nothing that is cut short. Induction on the
entries. -/
theorem Minidump.ListsDecoded.readDirectories {directories : List MDRawDirectory}
    {start m : Minidump} (hstart : start.ListsDecoded)
    (hmem : ∀ d ∈ directories, d ∈ start.directories)
    (hrun : Minidump.readDirectories directories start = some m)
    (hwhole : ∀ n d, start.ComesTo directories n d → n.stream.failbit = true ∨ ¬n.CutShort d) :
    m.ListsDecoded := by
  induction directories generalizing start with
  | nil =>
    cases hrun
    exact hstart
  | cons d rest ih =>
    obtain ⟨hd, hrest⟩ := List.forall_mem_cons.mp hmem
    unfold Minidump.readDirectories at hrun
    rcases hparse : start.parse d with _ | ⟨ok, next⟩
    · rw [hparse] at hrun
      cases hrun
    · rw [hparse] at hrun
      have hnext := hstart.parse hd (hwhole start d ⟨[], rest, rfl, rfl⟩) hparse
      refine ih hnext ?_ hrun ?_
      · rw [(listsParsed_of_parse hparse).directories]
        exact hrest
      · rintro n e ⟨before, after, rfl, hbefore⟩
        refine hwhole n e ⟨d :: before, after, rfl, ?_⟩
        rw [Minidump.readDirectories, hparse]
        exact hbefore

/-- `Read` has opened the file and read its header and its directory. -/
def Minidump.Opens (image : List UInt8) (start : Minidump) : Prop :=
  ∃ m, (Minidump.ofFile image).readHeader = (true, m) ∧ m.readDirectoryList = (true, start)

/-- `Read` returns `true` after its loop over the directory. -/
theorem Minidump.read_eq_true_iff {image : List UInt8} {m : Minidump} :
    Minidump.read image = some (true, m) ↔
      ∃ start, Opens image start ∧ readDirectories start.directories start = some m := by
  unfold Minidump.read Opens
  rcases hheader : (Minidump.ofFile image).readHeader with ⟨_ | _, opened⟩
  · simp
  · rcases hlist : opened.readDirectoryList with ⟨_ | _, start⟩
    · simp [hlist]
    · simp [hlist]

/-- Nothing is in the lists before the loop. -/
theorem Minidump.Opens.listsDecoded {image : List UInt8} {start : Minidump}
    (hopens : Opens image start) : start.ListsDecoded := by
  obtain ⟨m, hheader, hlist⟩ := hopens
  have hread : (Minidump.ofFile image).readHeader.2 = m := by rw [hheader]
  rw [← hread] at hlist
  have hunread := (unread_of_readDirectoryList hlist).unreadAt
  exact ⟨Or.inl (hunread .threadList), Or.inl (hunread .moduleList),
    Or.inl (hunread .memoryList)⟩

/-- A parse that fails leaves no trace exactly if the stream has failed before or neither list
nor record of the entry is cut short; and when `Read` returns `true` after parses that all meet
this condition, each list is decoded from the file or empty. -/
theorem parses_leaveNoTrace_iff (n : Minidump) (directory : MDRawDirectory)
    (image : List UInt8) :
    (n.LeavesNoTrace directory ↔ n.stream.failbit = true ∨ ¬n.CutShort directory) ∧
    ∀ m, Minidump.read image = some (true, m) →
      (∀ start n directory, Minidump.Opens image start →
        start.ComesTo start.directories n directory →
          n.stream.failbit = true ∨ ¬n.CutShort directory) →
      m.ListsDecoded := by
  refine ⟨n.leavesNoTrace_iff directory, fun m hread hwhole => ?_⟩
  obtain ⟨start, hopens, hrun⟩ := Minidump.read_eq_true_iff.mp hread
  exact hopens.listsDecoded.readDirectories (fun d hd => hd) hrun fun n d =>
    hwhole start n d hopens

/-- A file whose directory announces a memory list with one range, of which the file has only
the first half. -/
def cutShortFile : List UInt8 :=
  LittleEndian.encode 4 0x504d444d ++ LittleEndian.encode 4 0xa793 ++ LittleEndian.encode 4 1 ++
    LittleEndian.encode 4 32 ++ List.replicate 16 0 ++
    (directoryEntry 5 20 44).bytes ++ LittleEndian.encode 4 1 ++ LittleEndian.encode 8 0x1000

/-- With the rest of the range `Read` decodes the list. -/
theorem parses_leaveNoTrace_iff_whole :
    ∃ m, Minidump.read (cutShortFile ++ List.replicate 8 0) = some (true, m) ∧
      m.ListsDecoded ∧ m.memories.length = 1 := by
  obtain ⟨m, hread, hcount⟩ :
      ∃ m, Minidump.read (cutShortFile ++ List.replicate 8 0) = some (true, m) ∧
        m.memories.length = 1 := ⟨_, rfl, rfl⟩
  refine ⟨m, hread, (parses_leaveNoTrace_iff m (directoryEntry 5 20 44) _).2 m hread ?_, hcount⟩
  rintro start n d ⟨opened, hheader, hlist⟩ ⟨before, after, hsplit, hbefore⟩
  obtain rfl : _ = opened := congrArg Prod.snd hheader
  obtain rfl : _ = start := congrArg Prod.snd hlist
  have hentries : [directoryEntry 5 20 44] = before ++ d :: after := hsplit
  cases before with
  | nil =>
    obtain rfl : _ = n := Option.some.inj hbefore
    obtain rfl : directoryEntry 5 20 44 = d := (List.cons.inj hentries).1
    exact Or.inr fun hcut => absurd hcut.2.2 (by decide)
  | cons e before => simp at hentries

/-- `ReadStream` fails on the list and leaves half a memory range in the vector, and `Read`
succeeds with it. -/
theorem cutShortFile_leavesTrace :
    ¬(Minidump.ofFile cutShortFile).LeavesNoTrace (directoryEntry 5 20 44) ∧
      ∃ m, Minidump.read cutShortFile = some (true, m) ∧
        m.memories.map RawObject.bytes = [LittleEndian.encode 8 0x1000 ++ List.replicate 8 0] ∧
          ¬m.ListsDecoded := by
  refine ⟨fun h => ?_, _, rfl, by decide, fun h => ?_⟩
  · exact absurd (congrArg List.length (h rfl)) (by decide)
  · rcases h.memories with hnil | ⟨d, hd, -, n, hsize, hat, -⟩
    · exact absurd (congrArg List.length hnil) (by decide)
    · obtain rfl : d = directoryEntry 5 20 44 := List.mem_singleton.mp hd
      exact absurd hat.inFile (by decide)

end DwarfExpr
