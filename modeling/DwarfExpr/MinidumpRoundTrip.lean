import DwarfExpr.Lib.Layout
import DwarfExpr.MemoryRegions
import DwarfExpr.MinidumpContexts
import DwarfExpr.MinidumpListStream

/-!
# Minidumps of a process

A process that has crashed is saved as a header, a directory of five streams, the streams,
and behind them the contexts of the threads and the bytes of the memory regions. All that is
saved is found again by `Read`, and `GetMemory` answers like the saved memory.
-/

namespace DwarfExpr

open InputStream (slice openAt)
open Layout (Holds placed)

/-- A thread with its AMD64 context. The rest of its record are the fields behind the id, up
to the location of the context. -/
structure SavedThread where
  threadId : BitVec 32
  rest : List UInt8
  context : List UInt8
  length_rest : rest.length = 36
  length_context : context.length = 1232

/-- A region of memory. -/
structure SavedRegion where
  start : BitVec 64
  bytes : List UInt8

/-- What is saved of a process: the header without its signature, version and directory, the
threads, the records of the modules, the memory, the exception, and the system information. -/
structure SavedProcess where
  headerRest : List UInt8
  threads : List SavedThread
  modules : List (List UInt8)
  regions : List SavedRegion
  crashedThreadId : BitVec 32
  exceptionRecord : List UInt8
  crashContext : List UInt8
  systemInfo : List UInt8
  length_headerRest : headerRest.length = 16
  few_threads : threads.length ≤ 10000
  few_modules : modules.length ≤ 10000
  length_module : ∀ m ∈ modules, m.length = mdModuleSize
  few_regions : regions.length ≤ 10000
  length_exceptionRecord : exceptionRecord.length = 156
  length_crashContext : crashContext.length = 1232
  length_systemInfo : systemInfo.length = 56

/-- The bytes of a location descriptor. -/
def MDLocationDescriptor.bytes (loc : MDLocationDescriptor) : List UInt8 :=
  LittleEndian.encode 4 loc.dataSize ++ LittleEndian.encode 4 loc.rva

@[simp] theorem MDLocationDescriptor.length_bytes (loc : MDLocationDescriptor) :
    loc.bytes.length = 8 := by
  simp [bytes]

/-- The record of a thread whose context is at an offset. -/
def SavedThread.record (t : SavedThread) (rva : ℕ) : List UInt8 :=
  LittleEndian.encode 4 t.threadId.toNat ++ (t.rest ++ MDLocationDescriptor.bytes ⟨1232, rva⟩)

/-- The descriptor of a region whose bytes are at an offset. -/
def SavedRegion.descriptor (r : SavedRegion) (rva : ℕ) : List UInt8 :=
  LittleEndian.encode 8 r.start.toNat ++ MDLocationDescriptor.bytes ⟨r.bytes.length, rva⟩

namespace SavedProcess

variable (p : SavedProcess)

/-- Where the thread list is. -/
def threadsRva : ℕ := 32 + 5 * 12

/-- Where the module list is. -/
def modulesRva : ℕ := threadsRva + (4 + p.threads.length * 48)

/-- Where the memory list is. -/
def regionsRva : ℕ := p.modulesRva + (4 + p.modules.length * mdModuleSize)

/-- Where the exception stream is. -/
def exceptionRva : ℕ := p.regionsRva + (4 + p.regions.length * 16)

/-- Where the system information is. -/
def systemInfoRva : ℕ := p.exceptionRva + 168

/-- Where the contexts of the threads are. -/
def contextsRva : ℕ := p.systemInfoRva + 56

/-- Where the context of the exception is. -/
def crashContextRva : ℕ := p.contextsRva + p.threads.length * 1232

/-- Where the bytes of the memory regions are. -/
def bytesRva : ℕ := p.crashContextRva + 1232

/-- The entries of the directory: the type of a stream, its size and its offset. -/
def directory : List MDRawDirectory :=
  [directoryEntry 3 (4 + p.threads.length * 48) threadsRva,
    directoryEntry 4 (4 + p.modules.length * mdModuleSize) p.modulesRva,
    directoryEntry 5 (4 + p.regions.length * 16) p.regionsRva,
    directoryEntry 6 168 p.exceptionRva,
    directoryEntry 7 56 p.systemInfoRva]

/-- The header. -/
def header : List UInt8 :=
  LittleEndian.encode 4 0x504d444d ++ (LittleEndian.encode 4 0xa793 ++
    (LittleEndian.encode 4 5 ++ (LittleEndian.encode 4 32 ++ p.headerRest)))

/-- The threads with the places of their contexts. -/
def placedThreads : List (SavedThread × ℕ) := placed SavedThread.context p.contextsRva p.threads

/-- The memory regions with the places of their bytes. -/
def placedRegions : List (SavedRegion × ℕ) := placed SavedRegion.bytes p.bytesRva p.regions

/-- The records of the threads. -/
def threadRecords : List (List UInt8) := p.placedThreads.map fun t => t.1.record t.2

/-- The descriptors of the memory regions. -/
def descriptors : List (List UInt8) := p.placedRegions.map fun r => r.1.descriptor r.2

/-- The exception stream. -/
def exception : List UInt8 :=
  LittleEndian.encode 4 p.crashedThreadId.toNat ++ (p.exceptionRecord ++
    MDLocationDescriptor.bytes ⟨1232, p.crashContextRva⟩)

/-- The bytes of the file. -/
def image : List UInt8 :=
  p.header ++ (p.directory.flatMap RawObject.bytes ++
    (encodeListStream [] p.threadRecords ++ (encodeListStream [] p.modules ++
      (encodeListStream [] p.descriptors ++ (p.exception ++ (p.systemInfo ++
        (p.threads.flatMap SavedThread.context ++ (p.crashContext ++
          p.regions.flatMap SavedRegion.bytes))))))))

end SavedProcess

/-- A list of items of one width takes up four bytes and the items. -/
theorem length_encodeListStream {items : List (List UInt8)} {width : ℕ}
    (hwidth : ∀ item ∈ items, item.length = width) :
    (encodeListStream [] items).length = 4 + items.length * width := by
  rw [encodeListStream, List.append_nil, List.length_append, LittleEndian.length_encode,
    InputStream.length_flatten_of_width hwidth]

/-- A list stream that the file holds is read, and the stream is left behind it. -/
theorem readStream_of_holds {size itemSize maxItemSize : ℕ} {s : InputStream}
    {directory : MDRawDirectory} {items : List (List UInt8)} (hs : s.failbit = false)
    (hpos : 0 < itemSize) (hsize : itemSize ≤ size) (hcount : items.length ≤ maxItemSize)
    (hwidth : ∀ item ∈ items, item.length = itemSize)
    (hloc : directory.location.dataSize = 4 + items.length * itemSize)
    (hheld : Holds s.image directory.location.rva (encodeListStream [] items)) :
    ∃ (v : List (RawObject size)) (s' : InputStream),
      readStream directory [] itemSize maxItemSize s = (true, v, s') ∧ s'.failbit = false ∧
        s'.image = s.image ∧ v.map (fun item => item.bytes.take itemSize) = items := by
  have hlength := length_encodeListStream hwidth
  have hat : ListStreamAt s.image directory itemSize maxItemSize items.length 4 := by
    obtain ⟨before, after, himage, hbefore⟩ := hheld
    rw [himage, ← List.append_assoc]
    apply listStreamAt_of_encode hpos hcount hwidth (Or.inl rfl) hbefore.symm
    rw [hloc, hlength]
  have hend := hat.end_eq
  have hfile := hat.inFile
  have hitem (i : ℕ) (hi : i < items.length) :
      slice s.image (directory.location.rva + 4 + i * itemSize) itemSize = items[i] := by
    obtain ⟨before, after, himage, hbefore⟩ := hheld
    have hslice := @InputStream.slice_flatten itemSize
      (before ++ LittleEndian.encode 4 items.length) after items hwidth i hi
    rw [List.length_append, LittleEndian.length_encode, hbefore] at hslice
    rw [himage, ← hslice]
    simp only [encodeListStream, List.append_nil, List.append_assoc]
  rw [readStream_of_listHeaderAt hs hpos hat.toListHeaderAt]
  by_cases hzero : items.length > 0
  · have hzeros : (List.replicate items.length (RawObject.zero size)).length = items.length :=
      List.length_replicate
    obtain ⟨v, hread, hv, hslices⟩ := @readItems_of_le size itemSize s.image hsize
      (List.replicate items.length (RawObject.zero size)) (directory.location.rva + 4)
      (by rw [hzeros]; omega)
    rw [if_pos hzero, hread]
    refine ⟨v, _, rfl, rfl, rfl, ?_⟩
    rw [hzeros] at hv
    apply List.ext_getElem
    · rw [List.length_map, hv]
    · intro i hi hi'
      rw [List.getElem_map, hslices i (by omega), hitem i hi']
  · have hnil : items = [] := List.eq_nil_of_length_eq_zero (by omega)
    rw [if_neg hzero]
    exact ⟨[], _, rfl, rfl, rfl, hnil.symm⟩

namespace SavedProcess

variable (p : SavedProcess)

theorem length_threadRecord {record : List UInt8} (h : record ∈ p.threadRecords) :
    record.length = 48 := by
  obtain ⟨⟨t, rva⟩, -, rfl⟩ := List.mem_map.mp h
  simp [SavedThread.record, t.length_rest]

theorem length_descriptor {descriptor : List UInt8} (h : descriptor ∈ p.descriptors) :
    descriptor.length = 16 := by
  obtain ⟨⟨r, rva⟩, -, rfl⟩ := List.mem_map.mp h
  simp [SavedRegion.descriptor]

@[simp] theorem length_threadRecords : p.threadRecords.length = p.threads.length := by
  simp [threadRecords, placedThreads]

@[simp] theorem length_descriptors : p.descriptors.length = p.regions.length := by
  simp [descriptors, placedRegions]

theorem length_header : p.header.length = 32 := by
  simp [header, p.length_headerRest]

theorem length_exception : p.exception.length = 168 := by
  simp [exception, p.length_exceptionRecord]

theorem length_directory : (p.directory.flatMap RawObject.bytes).length = 5 * 12 := by
  simp only [directory, List.flatMap_cons, List.flatMap_nil, List.length_append,
    RawObject.length_eq, List.length_nil]

theorem length_contexts : (p.threads.flatMap SavedThread.context).length =
    p.threads.length * 1232 := by
  have hwidth : ∀ context ∈ p.threads.map SavedThread.context, context.length = 1232 := by
    simp only [List.forall_mem_map]
    exact fun t _ => t.length_context
  rw [List.flatMap_def, InputStream.length_flatten_of_width hwidth, List.length_map]

/-- The memory regions are the end of the file. -/
theorem length_image :
    p.image.length = p.bytesRva + (p.regions.flatMap SavedRegion.bytes).length := by
  simp only [image, List.length_append, length_header, length_directory,
    length_encodeListStream fun _ => p.length_threadRecord,
    length_encodeListStream p.length_module,
    length_encodeListStream fun _ => p.length_descriptor, length_threadRecords,
    length_descriptors, length_exception, p.length_systemInfo, length_contexts,
    p.length_crashContext, bytesRva, crashContextRva, contextsRva, systemInfoRva, exceptionRva,
    regionsRva, modulesRva, threadsRva]
  omega

/-- Where the parts of the file are. -/
structure PartsAt (image : List UInt8) : Prop where
  header : Holds image 0 p.header
  directory : Holds image 32 (p.directory.flatMap RawObject.bytes)
  threads : Holds image threadsRva (encodeListStream [] p.threadRecords)
  modules : Holds image p.modulesRva (encodeListStream [] p.modules)
  regions : Holds image p.regionsRva (encodeListStream [] p.descriptors)
  exception : Holds image p.exceptionRva p.exception
  systemInfo : Holds image p.systemInfoRva p.systemInfo
  contexts : Holds image p.contextsRva (p.threads.flatMap SavedThread.context)
  crashContext : Holds image p.crashContextRva p.crashContext
  bytes : Holds image p.bytesRva (p.regions.flatMap SavedRegion.bytes)

/-- The parts of the file are where its directory and its records say. -/
theorem partsAt_image : p.PartsAt p.image := by
  have hrecords := length_encodeListStream fun _ => p.length_threadRecord
  have hmodules := length_encodeListStream p.length_module
  have hdescriptors := length_encodeListStream fun _ => p.length_descriptor
  rw [length_threadRecords] at hrecords
  rw [length_descriptors] at hdescriptors
  have hall := Layout.holds_zero p.image
  have hdirectory := hall.right p.length_header
  have hthreads := hdirectory.right p.length_directory
  have hmodulesAt := hthreads.right hrecords
  have hregions := hmodulesAt.right hmodules
  have hexception := hregions.right hdescriptors
  have hsystemInfo := hexception.right p.length_exception
  have hcontexts := hsystemInfo.right p.length_systemInfo
  have hcrash := hcontexts.right p.length_contexts
  have hbytes := hcrash.right p.length_crashContext
  exact ⟨hall.left, hdirectory.left, hthreads.left, hmodulesAt.left, hregions.left,
    hexception.left, hsystemInfo.left, hcontexts.left, hcrash.left, hbytes⟩

end SavedProcess

/-- The bytes of a directory entry. -/
theorem directoryEntry_bytes (streamType dataSize rva : ℕ) :
    (directoryEntry streamType dataSize rva).bytes = LittleEndian.encode 4 streamType ++
      (LittleEndian.encode 4 dataSize ++ (LittleEndian.encode 4 rva ++ [])) := by
  rw [directoryEntry, RawObject.store_zero_bytes (by simp)]
  simp only [List.append_assoc, List.append_nil]

/-- The fields of a directory entry, if they fit. -/
theorem directoryEntry_fields {streamType dataSize rva : ℕ} (htype : streamType < 256 ^ 4)
    (hsize : dataSize < 256 ^ 4) (hrva : rva < 256 ^ 4) :
    MDRawDirectory.streamType (directoryEntry streamType dataSize rva) = streamType ∧
      MDRawDirectory.location (directoryEntry streamType dataSize rva) = ⟨dataSize, rva⟩ := by
  have hbytes := directoryEntry_bytes streamType dataSize rva
  refine ⟨@RawObject.word_of_bytes _ _ [] _ _ _ _ hbytes rfl htype, ?_⟩
  have hsizeAt := @RawObject.word_of_bytes _ _ (LittleEndian.encode 4 streamType) _ 4 4 dataSize
    hbytes (LittleEndian.length_encode 4 _) hsize
  rw [← List.append_assoc] at hbytes
  have hrvaAt := @RawObject.word_of_bytes _ _ (LittleEndian.encode 4 streamType ++
    LittleEndian.encode 4 dataSize) _ 8 4 rva hbytes (by simp) hrva
  simp only [MDRawDirectory.location, RawObject.location, hsizeAt, hrvaAt]

/-- Directory entries are read back from their bytes. -/
theorem directoriesOf_flatMap (entries : List MDRawDirectory) :
    directoriesOf entries.length (entries.flatMap RawObject.bytes) = entries := by
  have hwidth : ∀ entry ∈ entries.map RawObject.bytes, entry.length = 12 := by
    simp only [List.forall_mem_map]
    exact fun entry _ => entry.length_eq
  apply List.ext_getElem
  · simp [directoriesOf]
  · intro i hi hi'
    have hslice := @InputStream.slice_flatten 12 [] [] (entries.map RawObject.bytes) hwidth i
      (by simpa using hi')
    rw [List.nil_append, List.append_nil, List.length_nil, Nat.zero_add, slice,
      List.getElem_map, Nat.mul_comm] at hslice
    apply RawObject.ext
    simp only [directoriesOf, List.getElem_map, List.getElem_range, List.flatMap_def, hslice]
    exact RawObject.store_zero_bytes entries[i].length_eq

namespace SavedProcess

variable {p : SavedProcess} {image : List UInt8}

/-- The header is accepted. -/
theorem PartsAt.readHeader_eq (hat : p.PartsAt image) :
    (Minidump.ofFile image).readHeader = (true, { Minidump.ofFile image with
      header := ⟨p.header, p.length_header⟩, stream := openAt image 32 }) := by
  have hslice := hat.header.slice_eq p.length_header
  have hfits := hat.header.le
  have hread := @readBytes_of_le image 0 32 (by rw [p.length_header] at hfits; omega)
  have hstore : (RawObject.zero 32).store 0 p.header = ⟨p.header, p.length_header⟩ :=
    RawObject.ext (RawObject.store_zero_bytes p.length_header)
  have hsignature : (⟨p.header, p.length_header⟩ : MDRawHeader).word 0 4 = 0x504d444d :=
    @RawObject.word_of_bytes _ _ [] _ _ _ _ rfl rfl (by decide)
  have hversion : (⟨p.header, p.length_header⟩ : MDRawHeader).word 4 4 = 0xa793 :=
    @RawObject.word_of_bytes _ _ (LittleEndian.encode 4 0x504d444d) _ _ _ _ rfl rfl (by decide)
  have hstream : (Minidump.ofFile image).stream = openAt image 0 := rfl
  have hzero : (Minidump.ofFile image).header = .zero 32 := rfl
  unfold Minidump.readHeader
  rw [hstream, hread, hslice, hzero]
  simp only [hstore, hsignature, hversion]
  rfl

/-- The directory is read. -/
theorem PartsAt.readDirectoryList_eq (hat : p.PartsAt image) :
    ({ Minidump.ofFile image with
        header := ⟨p.header, p.length_header⟩, stream := openAt image 32 } :
      Minidump).readDirectoryList = (true, { Minidump.ofFile image with
        header := ⟨p.header, p.length_header⟩
        directories := p.directory
        stream := openAt image (32 + 5 * 12) }) := by
  have hslice := hat.directory.slice_eq p.length_directory
  have hfits := hat.directory.le
  have hread := @readBytes_of_le image 32 (5 * 12) (by rw [p.length_directory] at hfits; omega)
  have hcount : (⟨p.header, p.length_header⟩ : MDRawHeader).word 8 4 = 5 :=
    @RawObject.word_of_bytes _ _ (LittleEndian.encode 4 0x504d444d ++ LittleEndian.encode 4 0xa793)
      _ _ _ _ (by simp only [List.append_assoc]; rfl) rfl (by decide)
  have hrva : (⟨p.header, p.length_header⟩ : MDRawHeader).word 12 4 = 32 :=
    @RawObject.word_of_bytes _ _ (LittleEndian.encode 4 0x504d444d ++
      (LittleEndian.encode 4 0xa793 ++ LittleEndian.encode 4 5))
      _ _ _ _ (by simp only [List.append_assoc]; rfl) rfl (by decide)
  have hseek : seekTo (openAt image 32) (32 : ℕ) = (true, openAt image 32) :=
    seekTo_of_unfailed rfl 32
  have hentries : directoriesOf 5 (p.directory.flatMap RawObject.bytes) = p.directory :=
    directoriesOf_flatMap p.directory
  unfold Minidump.readDirectoryList
  simp only [hcount, hrva, hseek, hread, hslice, hentries]
  rfl

end SavedProcess

/-- The context that is read from the bytes of an AMD64 record. -/
def savedContext (bytes : List UInt8) : MinidumpContext := amd64Context bytes 0

/-- A single record that the file holds is read, and the stream is left behind it. -/
theorem readStreamSingle_of_holds {size : ℕ} (stream : RawObject size) {s : InputStream}
    {directory : MDRawDirectory} {bytes : List UInt8} (hs : s.failbit = false)
    (hlength : bytes.length = size) (hsize : directory.location.dataSize = size)
    (hheld : Holds s.image directory.location.rva bytes) :
    readStreamSingle directory stream s =
      (true, ⟨bytes, hlength⟩, openAt s.image (directory.location.rva + size)) := by
  have hle := hheld.le
  rw [hlength] at hle
  have hslice := hheld.slice_eq hlength
  have hread := @readBytes_of_le s.image directory.location.rva size hle
  have hstore : stream.store 0 bytes = ⟨bytes, hlength⟩ :=
    RawObject.ext (RawObject.store_zero_bytes hlength)
  simp only [readStreamSingle, seekTo_of_unfailed hs, hsize, ne_eq, not_true_eq_false, if_false,
    hread, hslice, hstore]

/-- A context that the file holds is read, and the stream is left behind it. -/
theorem contextRead_of_holds {s : InputStream} {loc : MDLocationDescriptor} {bytes : List UInt8}
    (hs : s.failbit = false) (hsize : loc.dataSize = 1232) (hlength : bytes.length = 1232)
    (hheld : Holds s.image loc.rva bytes) :
    MinidumpContext.read loc s =
      some (some (savedContext bytes), openAt s.image (loc.rva + 1232)) := by
  have hle := hheld.le
  rw [hlength] at hle
  have hslice := hheld.slice_eq hlength
  have hall := (Layout.holds_zero bytes).slice_eq hlength
  have hread := @readBytes_of_le s.image loc.rva 1232 hle
  simp only [MinidumpContext.read, seekTo_of_unfailed hs, hsize, if_true, hread, hslice,
    savedContext, amd64Context, hall]

/-- The fields of the record of a thread. -/
theorem SavedThread.record_fields {t : SavedThread} {rva : ℕ} {record : MDRawThread}
    (hrecord : record.bytes = t.record rva) (hrva : rva < 256 ^ 4) :
    MDRawThread.threadId record = t.threadId.toNat ∧
      MDRawThread.threadContext record = ⟨1232, rva⟩ := by
  have hbytes : record.bytes = LittleEndian.encode 4 t.threadId.toNat ++ (t.rest ++
      (LittleEndian.encode 4 1232 ++ (LittleEndian.encode 4 rva ++ []))) := by
    rw [hrecord, SavedThread.record, MDLocationDescriptor.bytes, List.append_nil]
  have hid := @RawObject.word_of_bytes _ record [] _ 0 4 t.threadId.toNat hbytes rfl (by
    have := t.threadId.isLt
    omega)
  rw [← List.append_assoc] at hbytes
  have hsize := @RawObject.word_of_bytes _ record _ _ 40 4 1232 hbytes
    (by simp [t.length_rest]) (by decide)
  rw [← List.append_assoc] at hbytes
  have hrvaAt := @RawObject.word_of_bytes _ record _ _ 44 4 rva hbytes
    (by simp [t.length_rest]) hrva
  refine ⟨hid, ?_⟩
  simp only [MDRawThread.threadContext, RawObject.location, hsize, hrvaAt]

/-- Looking for an id in the records is looking for it in the threads. Induction on the
threads. -/
theorem find?_records {saved : List (SavedThread × ℕ)} {records : List MDRawThread}
    (hrecords : records.map RawObject.bytes = saved.map fun t => t.1.record t.2)
    (hplaces : ∀ t ∈ saved, t.2 < 256 ^ 4) (id : ℕ) :
    (records.find? fun thread => MDRawThread.threadId thread = id).map RawObject.bytes =
      (saved.find? fun t => t.1.threadId.toNat = id).map fun t => t.1.record t.2 := by
  induction saved generalizing records with
  | nil =>
    obtain rfl : records = [] := by simpa using hrecords
    rfl
  | cons t saved ih =>
    obtain ⟨record, records, rfl, hrecord, hrest⟩ := List.map_eq_cons_iff.mp hrecords
    obtain ⟨hplace, hmore⟩ := List.forall_mem_cons.mp hplaces
    obtain ⟨hid, -⟩ := SavedThread.record_fields hrecord hplace
    rw [List.find?_cons, List.find?_cons, hid]
    by_cases hmatch : t.1.threadId.toNat = id
    · simp only [hmatch, decide_true, Option.map_some, hrecord]
    · simp only [hmatch, decide_false, ih hrest hmore]

/-- The contexts of saved threads are read: the first of every id is added. Induction on the
threads. -/
theorem readContexts_of_holds {saved : List (SavedThread × ℕ)} {records : List MDRawThread}
    {s : InputStream} (hs : s.failbit = false)
    (hrecords : records.map RawObject.bytes = saved.map fun t => t.1.record t.2)
    (hheld : ∀ t ∈ saved, Holds s.image t.2 t.1.context ∧ t.2 < 256 ^ 4)
    (contexts : ℕ → Option MinidumpContext) :
    ∃ s', readContexts records contexts s = some (true, fun id => (contexts id).or
        ((saved.find? fun t => t.1.threadId.toNat = id).map
          fun t => savedContext t.1.context), s') ∧
      s'.failbit = false ∧ s'.image = s.image := by
  induction saved generalizing records contexts s with
  | nil =>
    obtain rfl : records = [] := by simpa using hrecords
    exact ⟨s, by simp [readContexts], hs, rfl⟩
  | cons t saved ih =>
    obtain ⟨record, records, rfl, hrecord, hrest⟩ := List.map_eq_cons_iff.mp hrecords
    obtain ⟨⟨hcontext, hrva⟩, hmore⟩ := List.forall_mem_cons.mp hheld
    obtain ⟨hid, hloc⟩ := SavedThread.record_fields hrecord hrva
    have hread := @contextRead_of_holds s (MDRawThread.threadContext record) t.1.context hs
      (by rw [hloc]) t.1.length_context (by rw [hloc]; exact hcontext)
    obtain ⟨s', hothers, hs', himage⟩ := @ih records (openAt s.image _) rfl hrest hmore
      (insertContext contexts (MDRawThread.threadId record) (savedContext t.1.context))
    refine ⟨s', ?_, hs', himage⟩
    have hadded : (fun id => (insertContext contexts (MDRawThread.threadId record)
        (savedContext t.1.context) id).or ((saved.find? fun t => t.1.threadId.toNat = id).map
          fun t => savedContext t.1.context)) = fun id => (contexts id).or
            (((t :: saved).find? fun t => t.1.threadId.toNat = id).map
              fun t => savedContext t.1.context) := by
      funext id
      rw [List.find?_cons, hid]
      by_cases hmatch : t.1.threadId.toNat = id
      · simp [insertContext, hmatch]
      · have hmatch' : ¬id = t.1.threadId.toNat := fun h => hmatch h.symm
        simp [insertContext, hmatch, hmatch']
    rw [readContexts, hread, ← hadded]
    exact hothers

namespace SavedProcess

variable {p : SavedProcess} {image : List UInt8} {m : Minidump}

/-- The fields of the exception stream. -/
theorem exception_fields (p : SavedProcess) (hrva : p.crashContextRva < 256 ^ 4) :
    MDRawExceptionStream.threadId ⟨p.exception, p.length_exception⟩ = p.crashedThreadId.toNat ∧
      MDRawExceptionStream.threadContext ⟨p.exception, p.length_exception⟩ =
        ⟨1232, p.crashContextRva⟩ := by
  let record : MDRawExceptionStream := ⟨p.exception, p.length_exception⟩
  have hbytes : record.bytes = LittleEndian.encode 4 p.crashedThreadId.toNat ++
      (p.exceptionRecord ++ (LittleEndian.encode 4 1232 ++
        (LittleEndian.encode 4 p.crashContextRva ++ []))) := by
    rw [List.append_nil]
    rfl
  have hid := @RawObject.word_of_bytes _ record [] _ 0 4 p.crashedThreadId.toNat hbytes rfl (by
    have := p.crashedThreadId.isLt
    omega)
  rw [← List.append_assoc] at hbytes
  have hsize := @RawObject.word_of_bytes _ record _ _ 160 4 1232 hbytes
    (by simp [p.length_exceptionRecord]) (by decide)
  rw [← List.append_assoc] at hbytes
  have hrvaAt := @RawObject.word_of_bytes _ record _ _ 164 4 p.crashContextRva hbytes
    (by simp [p.length_exceptionRecord]) hrva
  refine ⟨hid, ?_⟩
  simp only [MDRawExceptionStream.threadContext, RawObject.location, record] at hsize hrvaAt ⊢
  rw [hsize, hrvaAt]

/-- The context of the first saved thread with an id. -/
def threadContext (p : SavedProcess) (id : ℕ) : Option MinidumpContext :=
  (p.threads.find? fun t => t.threadId.toNat = id).map fun t => savedContext t.context

/-- Looking for a thread does not depend on the places of the contexts. -/
theorem find?_placedThreads (p : SavedProcess) (id : ℕ) :
    ((p.placedThreads.find? fun t => t.1.threadId.toNat = id).map
      fun t => savedContext t.1.context) = p.threadContext id := by
  have hthreads : p.threads = p.placedThreads.map Prod.fst :=
    (Layout.map_fst_placed SavedThread.context p.contextsRva p.threads).symm
  rw [threadContext, hthreads, List.find?_map, Option.map_map]
  rfl

section

variable (hat : p.PartsAt image) (hsmall : image.length < 256 ^ 4)
  (hs : m.stream.failbit = false) (himage : m.stream.image = image)

include hat hsmall hs himage

/-- The thread list is read with the contexts of its threads. -/
theorem PartsAt.parse_threads (hm : m.threads = []) :
    ∃ v s', m.parse (directoryEntry 3 (4 + p.threads.length * 48) threadsRva) = some (true,
        { m with
          threads := v
          contexts := fun id => (m.contexts id).or (p.threadContext id)
          stream := s' }) ∧
      s'.failbit = false ∧ s'.image = image ∧ v.map RawObject.bytes = p.threadRecords := by
  have hlength := length_encodeListStream fun _ => p.length_threadRecord
  rw [length_threadRecords] at hlength
  have hfits := hat.threads.le
  rw [hlength] at hfits
  obtain ⟨htype, hloc⟩ := @directoryEntry_fields 3 (4 + p.threads.length * 48) threadsRva
    (by decide) (by omega) (by omega)
  have hheld := hat.threads
  rw [← himage] at hheld
  obtain ⟨v, s', hread, hs', himage', hv⟩ := @readStream_of_holds 48 48 10000 m.stream
    (directoryEntry 3 (4 + p.threads.length * 48) threadsRva) p.threadRecords hs (by decide)
    (le_refl _) (by rw [length_threadRecords]; exact p.few_threads)
    (fun _ => p.length_threadRecord) (by rw [hloc, length_threadRecords])
    (by rw [hloc]; exact hheld)
  have hwhole : v.map (fun item => item.bytes.take 48) = v.map RawObject.bytes :=
    List.map_congr_left fun item _ => List.take_of_length_le item.length_eq.le
  rw [hwhole] at hv
  have hplaced : ∀ t ∈ p.placedThreads, Holds s'.image t.2 t.1.context ∧ t.2 < 256 ^ 4 := by
    intro t ht
    have hcontext := hat.contexts.of_mem_placed ht
    have hle := hcontext.le
    rw [himage', himage]
    exact ⟨hcontext, by omega⟩
  obtain ⟨s'', hcontexts, hs'', himage''⟩ := @readContexts_of_holds p.placedThreads v s' hs' hv
    hplaced m.contexts
  simp only [find?_placedThreads] at hcontexts
  refine ⟨v, s'', ?_, hs'', himage''.trans (himage'.trans himage), hv⟩
  simp only [Minidump.parse, MDRawDirectory.handledType, htype, Minidump.readThreadListStream, hm,
    hread, hcontexts, Option.map_some]

/-- The module list is read. -/
theorem PartsAt.parse_modules (hm : m.modules = []) :
    ∃ v s', m.parse (directoryEntry 4 (4 + p.modules.length * mdModuleSize) p.modulesRva) =
        some (true, { m with modules := v, stream := s' }) ∧ s'.failbit = false ∧
      s'.image = image ∧ v.map (fun item => item.bytes.take mdModuleSize) = p.modules := by
  have hlength := length_encodeListStream p.length_module
  have hfits := hat.modules.le
  rw [hlength] at hfits
  obtain ⟨htype, hloc⟩ := @directoryEntry_fields 4 (4 + p.modules.length * mdModuleSize)
    p.modulesRva (by decide) (by omega) (by omega)
  have hheld := hat.modules
  rw [← himage] at hheld
  obtain ⟨v, s', hread, hs', himage', hv⟩ := @readStream_of_holds 112 mdModuleSize 10000 m.stream
    (directoryEntry 4 (4 + p.modules.length * mdModuleSize) p.modulesRva) p.modules hs (by decide)
    (by decide) p.few_modules p.length_module (by rw [hloc]) (by rw [hloc]; exact hheld)
  refine ⟨v, s', ?_, hs', himage'.trans himage, hv⟩
  simp only [Minidump.parse, MDRawDirectory.handledType, htype, Minidump.readModuleListStream, hm,
    hread]

/-- The memory list is read. -/
theorem PartsAt.parse_regions (hm : m.memories = []) :
    ∃ v s', m.parse (directoryEntry 5 (4 + p.regions.length * 16) p.regionsRva) =
        some (true, { m with memories := v, stream := s' }) ∧ s'.failbit = false ∧
      s'.image = image ∧ v.map RawObject.bytes = p.descriptors := by
  have hlength := length_encodeListStream fun _ => p.length_descriptor
  rw [length_descriptors] at hlength
  have hfits := hat.regions.le
  rw [hlength] at hfits
  obtain ⟨htype, hloc⟩ := @directoryEntry_fields 5 (4 + p.regions.length * 16) p.regionsRva
    (by decide) (by omega) (by omega)
  have hheld := hat.regions
  rw [← himage] at hheld
  obtain ⟨v, s', hread, hs', himage', hv⟩ := @readStream_of_holds 16 16 10000 m.stream
    (directoryEntry 5 (4 + p.regions.length * 16) p.regionsRva) p.descriptors hs (by decide)
    (le_refl _) (by rw [length_descriptors]; exact p.few_regions)
    (fun _ => p.length_descriptor) (by rw [hloc, length_descriptors]) (by rw [hloc]; exact hheld)
  have hwhole : v.map (fun item => item.bytes.take 16) = v.map RawObject.bytes :=
    List.map_congr_left fun item _ => List.take_of_length_le item.length_eq.le
  rw [hwhole] at hv
  refine ⟨v, s', ?_, hs', himage'.trans himage, hv⟩
  simp only [Minidump.parse, MDRawDirectory.handledType, htype, Minidump.readMemoryListStream, hm,
    hread]

/-- The exception stream is read with its context. -/
theorem PartsAt.parse_exception :
    ∃ s', m.parse (directoryEntry 6 168 p.exceptionRva) = some (true,
        { m with
          exception := ⟨p.exception, p.length_exception⟩
          contexts := assignContext m.contexts p.crashedThreadId.toNat
            (savedContext p.crashContext)
          stream := s' }) ∧ s'.failbit = false ∧ s'.image = image := by
  have hfits := hat.exception.le
  rw [p.length_exception] at hfits
  obtain ⟨htype, hloc⟩ := @directoryEntry_fields 6 168 p.exceptionRva (by decide) (by decide)
    (by omega)
  have hheld := hat.exception
  have hcrash := hat.crashContext
  have hcrashFits := hcrash.le
  rw [← himage] at hheld hcrash
  have hread := @readStreamSingle_of_holds 168 m.exception m.stream
    (directoryEntry 6 168 p.exceptionRva) p.exception hs p.length_exception (by rw [hloc])
    (by rw [hloc]; exact hheld)
  rw [hloc] at hread
  obtain ⟨hid, hcontextLoc⟩ := p.exception_fields (by omega)
  have hcontext : MinidumpContext.read ⟨1232, p.crashContextRva⟩
      (openAt m.stream.image (p.exceptionRva + 168)) = some (some (savedContext p.crashContext),
        openAt m.stream.image (p.crashContextRva + 1232)) :=
    contextRead_of_holds rfl rfl p.length_crashContext hcrash
  refine ⟨openAt m.stream.image (p.crashContextRva + 1232), ?_, rfl, himage⟩
  simp only [Minidump.parse, MDRawDirectory.handledType, htype, Minidump.readExceptionStream,
    hread, hcontextLoc, hcontext, hid, Option.map_some]

/-- The system information is read. -/
theorem PartsAt.parse_systemInfo :
    ∃ s', m.parse (directoryEntry 7 56 p.systemInfoRva) = some (true,
        { m with systemInfo := ⟨p.systemInfo, p.length_systemInfo⟩, stream := s' }) ∧
      s'.failbit = false ∧ s'.image = image := by
  have hfits := hat.systemInfo.le
  rw [p.length_systemInfo] at hfits
  obtain ⟨htype, hloc⟩ := @directoryEntry_fields 7 56 p.systemInfoRva (by decide) (by decide)
    (by omega)
  have hheld := hat.systemInfo
  rw [← himage] at hheld
  have hread := @readStreamSingle_of_holds 56 m.systemInfo m.stream
    (directoryEntry 7 56 p.systemInfoRva) p.systemInfo hs p.length_systemInfo (by rw [hloc])
    (by rw [hloc]; exact hheld)
  rw [hloc] at hread
  refine ⟨openAt m.stream.image (p.systemInfoRva + 56), ?_, rfl, himage⟩
  simp only [Minidump.parse, MDRawDirectory.handledType, htype, Minidump.readSystemInfoStream,
    hread]

end

/-- Everything of the process has been read, and the stream can be used. -/
structure Loaded (p : SavedProcess) (m : Minidump) : Prop where
  unfailed : m.stream.failbit = false
  image_eq : m.stream.image = p.image
  threads : m.threads.map RawObject.bytes = p.threadRecords
  modules : m.modules.map (fun item => item.bytes.take mdModuleSize) = p.modules
  memories : m.memories.map RawObject.bytes = p.descriptors
  exception : m.exception.bytes = p.exception
  systemInfo : m.systemInfo.bytes = p.systemInfo
  contexts : ∀ id, m.contexts id =
    if id = p.crashedThreadId.toNat then some (savedContext p.crashContext)
    else p.threadContext id

/-- The `Minidump` in front of the streams. -/
def beforeStreams (p : SavedProcess) : Minidump :=
  { Minidump.ofFile p.image with
    header := ⟨p.header, p.length_header⟩
    directories := p.directory
    stream := openAt p.image (32 + 5 * 12) }

/-- The streams of a process are parsed one after the other, and everything is loaded. -/
theorem exists_parses (p : SavedProcess) (hsmall : p.image.length < 2 ^ 32) :
    ∃ m₁ m₂ m₃ m₄ m,
      p.beforeStreams.parse (directoryEntry 3 (4 + p.threads.length * 48) threadsRva) =
        some (true, m₁) ∧
      m₁.parse (directoryEntry 4 (4 + p.modules.length * mdModuleSize) p.modulesRva) =
        some (true, m₂) ∧
      m₂.parse (directoryEntry 5 (4 + p.regions.length * 16) p.regionsRva) = some (true, m₃) ∧
      m₃.parse (directoryEntry 6 168 p.exceptionRva) = some (true, m₄) ∧
      m₄.parse (directoryEntry 7 56 p.systemInfoRva) = some (true, m) ∧
      m₁.threads.length = p.threads.length ∧ p.Loaded m := by
  have hat := p.partsAt_image
  have hsmall' : p.image.length < 256 ^ 4 := by omega
  obtain ⟨threads, s₁, hthreads, hs₁, himage₁, hrecords⟩ :=
    hat.parse_threads hsmall' (m := p.beforeStreams) rfl rfl rfl
  obtain ⟨modules, s₂, hmodules, hs₂, himage₂, hmoduleRecords⟩ :=
    hat.parse_modules hsmall' (m := { p.beforeStreams with
      threads := threads
      contexts := fun id => (p.beforeStreams.contexts id).or (p.threadContext id)
      stream := s₁ }) hs₁ himage₁ rfl
  obtain ⟨regions, s₃, hregions, hs₃, himage₃, hdescriptors⟩ :=
    hat.parse_regions hsmall' (m := { p.beforeStreams with
      threads := threads
      modules := modules
      contexts := fun id => (p.beforeStreams.contexts id).or (p.threadContext id)
      stream := s₂ }) hs₂ himage₂ rfl
  obtain ⟨s₄, hexception, hs₄, himage₄⟩ :=
    hat.parse_exception hsmall' (m := { p.beforeStreams with
      threads := threads
      modules := modules
      memories := regions
      contexts := fun id => (p.beforeStreams.contexts id).or (p.threadContext id)
      stream := s₃ }) hs₃ himage₃
  obtain ⟨s₅, hsystemInfo, hs₅, himage₅⟩ :=
    hat.parse_systemInfo hsmall' (m := { p.beforeStreams with
      threads := threads
      modules := modules
      memories := regions
      exception := ⟨p.exception, p.length_exception⟩
      contexts := assignContext
        (fun id => (p.beforeStreams.contexts id).or (p.threadContext id))
        p.crashedThreadId.toNat (savedContext p.crashContext)
      stream := s₄ }) hs₄ himage₄
  have hlength : threads.length = p.threads.length := by
    rw [← List.length_map RawObject.bytes, hrecords, length_threadRecords]
  exact ⟨_, _, _, _, _, hthreads, hmodules, hregions, hexception, hsystemInfo, hlength,
    ⟨hs₅, himage₅, hrecords, hmoduleRecords, hdescriptors, rfl, rfl, fun id => rfl⟩⟩

/-- The header and the directory of the file lead to the streams. -/
theorem read_eq (p : SavedProcess) :
    Minidump.read p.image =
      (Minidump.readDirectories p.directory p.beforeStreams).map fun m => (true, m) := by
  have hat := p.partsAt_image
  simp only [Minidump.read, hat.readHeader_eq, hat.readDirectoryList_eq]
  rfl

/-- The file of a process is read, and everything is loaded. -/
theorem exists_loaded (p : SavedProcess) (hsmall : p.image.length < 2 ^ 32) :
    ∃ m, Minidump.read p.image = some (true, m) ∧ p.Loaded m := by
  obtain ⟨m₁, m₂, m₃, m₄, m, hthreads, hmodules, hregions, hexception, hsystemInfo, -, hloaded⟩ :=
    p.exists_parses hsmall
  refine ⟨m, ?_, hloaded⟩
  rw [p.read_eq]
  simp only [directory, Minidump.readDirectories, hthreads, hmodules, hregions, hexception,
    hsystemInfo, Option.map_some]

/-- The first saved thread with an id, as its record. -/
def threadRecord (p : SavedProcess) (id : ℕ) : Option (List UInt8) :=
  (p.placedThreads.find? fun t => t.1.threadId.toNat = id).map fun t => t.1.record t.2

/-- The contexts of the threads lie within four gigabytes if the file does. -/
theorem placedThreads_lt (p : SavedProcess) (hsmall : p.image.length < 2 ^ 32) :
    ∀ t ∈ p.placedThreads, t.2 < 256 ^ 4 := by
  intro t ht
  have hle := (p.partsAt_image.contexts.of_mem_placed ht).le
  omega

/-- The thread that crashed. -/
theorem Loaded.threadId_exception (h : p.Loaded m) (hsmall : p.image.length < 2 ^ 32) :
    MDRawExceptionStream.threadId m.exception = p.crashedThreadId.toNat := by
  have hcrash := p.partsAt_image.crashContext.le
  have hexception : m.exception = ⟨p.exception, p.length_exception⟩ := RawObject.ext h.exception
  rw [hexception]
  exact (p.exception_fields (by omega)).1

/-- A minidump of a process gives all of it back: the threads by their ids, the modules, the
system information, and the contexts by thread. The thread that crashed has the context of
the exception, any other the context of the first thread with its id. -/
theorem read_gives_back (p : SavedProcess) (hsmall : p.image.length < 2 ^ 32) :
    ∃ m, Minidump.read p.image = some (true, m) ∧
      (∀ id, (m.getThread id).map RawObject.bytes = p.threadRecord id) ∧
      m.getCrashThread.map RawObject.bytes = p.threadRecord p.crashedThreadId.toNat ∧
      m.modules.map (fun item => item.bytes.take mdModuleSize) = p.modules ∧
      m.systemInfo.bytes = p.systemInfo ∧
      m.getCrashContext = some (savedContext p.crashContext) ∧
      ∀ id, id ≠ p.crashedThreadId.toNat → m.getContext id = p.threadContext id := by
  obtain ⟨m, hread, hloaded⟩ := p.exists_loaded hsmall
  have hthread (id : ℕ) : (m.getThread id).map RawObject.bytes = p.threadRecord id :=
    find?_records hloaded.threads (p.placedThreads_lt hsmall) id
  have hcrashed := hloaded.threadId_exception hsmall
  refine ⟨m, hread, hthread, ?_, hloaded.modules, hloaded.systemInfo, ?_, ?_⟩
  · rw [Minidump.getCrashThread, hcrashed, hthread]
  · rw [Minidump.getCrashContext, Minidump.getContext, hcrashed, hloaded.contexts, if_pos rfl]
  · intro id hid
    rw [Minidump.getContext, hloaded.contexts, if_neg hid]

end SavedProcess

/-- An AMD64 record with a stack pointer and a frame pointer. -/
def amd64Record (rsp rbp : BitVec 64) : List UInt8 :=
  List.replicate 48 0 ++ (LittleEndian.encode 4 0x0010001f ++ (List.replicate 100 0 ++
    (LittleEndian.encode 8 rsp.toNat ++ (LittleEndian.encode 8 rbp.toNat ++
      List.replicate 1064 0))))

theorem length_amd64Record (rsp rbp : BitVec 64) : (amd64Record rsp rbp).length = 1232 := by
  simp only [amd64Record, List.length_append, List.length_replicate, LittleEndian.length_encode]

/-- A thread with a stack of six bytes. -/
def stackThread (threadId : BitVec 32) (rsp : BitVec 64) : SavedThread where
  threadId := threadId
  rest := List.replicate 36 0
  context := amd64Record rsp (rsp + 6)
  length_rest := by simp
  length_context := length_amd64Record _ _

/-- A process of two threads, of which the second has crashed. -/
def crashedProcess : SavedProcess where
  headerRest := List.replicate 16 0
  threads := [stackThread 1 0x7000, stackThread 2 0x8000]
  modules := []
  regions := [⟨0x7000, [1, 2, 3, 4, 5, 6]⟩, ⟨0x8000, [7, 8, 9, 10, 11, 12]⟩]
  crashedThreadId := 2
  exceptionRecord := List.replicate 156 0
  crashContext := amd64Record 0x8002 0x8006
  systemInfo := List.replicate 56 0
  length_headerRest := by simp
  few_threads := by decide
  few_modules := by decide
  length_module := by simp
  few_regions := by decide
  length_exceptionRecord := by simp
  length_crashContext := length_amd64Record _ _
  length_systemInfo := by simp

/-- Its file is small. -/
theorem length_crashedProcess : crashedProcess.image.length < 2 ^ 32 := by
  rw [SavedProcess.length_image]
  decide

/-- The context of the exception is found for the second thread. -/
theorem SavedProcess.read_gives_back_crashedProcess :
    ∃ m, Minidump.read crashedProcess.image = some (true, m) ∧
      m.getCrashContext = some (savedContext (amd64Record 0x8002 0x8006)) ∧
      m.getContext 1 = some (savedContext (amd64Record 0x7000 0x7006)) := by
  obtain ⟨m, hread, -, -, -, -, hcrash, hcontexts⟩ :=
    SavedProcess.read_gives_back crashedProcess length_crashedProcess
  exact ⟨m, hread, hcrash, hcontexts 1 (by decide)⟩

end DwarfExpr
