import Mathlib.Algebra.Group.Nat.Defs
import DwarfExpr.Lib.InputStream
import DwarfExpr.Lib.RawObject

/-!
# Records and streams of a minidump file

The records of a minidump are read straight into the memory of C structures, so they
are modelled as bytes with a reader for each field that the sources use. The streams of
the file hold either one record or a counted list of them. All reading goes through
`readBytes` and `seekTo`, here on an open stream.
-/

namespace DwarfExpr

open InputStream (slice openAt)

/-- `MDRawHeader`. -/
abbrev MDRawHeader := RawObject 32

/-- `MDLocationDescriptor`. -/
structure MDLocationDescriptor where
  dataSize : ℕ
  rva : ℕ
  deriving DecidableEq, Repr

/-- The location descriptor at an offset of a record. -/
def RawObject.location {size : ℕ} (obj : RawObject size) (off : ℕ) : MDLocationDescriptor :=
  ⟨obj.word off 4, obj.word (off + 4) 4⟩

/-- `MDRawDirectory`. -/
abbrev MDRawDirectory := RawObject 12

/-- `MDRawDirectory::stream_type`. -/
def MDRawDirectory.streamType (d : MDRawDirectory) : ℕ := d.word 0 4

/-- `MDRawDirectory::location`. -/
def MDRawDirectory.location (d : MDRawDirectory) : MDLocationDescriptor := RawObject.location d 4

/-- A directory entry with these fields. -/
def directoryEntry (streamType dataSize rva : ℕ) : MDRawDirectory :=
  (RawObject.zero 12).store 0 (LittleEndian.encode 4 streamType ++
    LittleEndian.encode 4 dataSize ++ LittleEndian.encode 4 rva)

/-- `MDRawThread`. -/
abbrev MDRawThread := RawObject 48

/-- `MDRawThread::thread_id`. -/
def MDRawThread.threadId (t : MDRawThread) : ℕ := t.word 0 4

/-- `MDRawThread::thread_context`. -/
def MDRawThread.threadContext (t : MDRawThread) : MDLocationDescriptor := RawObject.location t 40

/-- `MDRawModule`. Only its first `MD_MODULE_SIZE` bytes are in the file. -/
abbrev MDRawModule := RawObject 112

/-- `MD_MODULE_SIZE`. -/
def mdModuleSize : ℕ := 108

/-- `MDMemoryDescriptor`. -/
abbrev MDMemoryDescriptor := RawObject 16

/-- `MDMemoryDescriptor::start_of_memory_range`. -/
def MDMemoryDescriptor.startOfMemoryRange (m : MDMemoryDescriptor) : ℕ := m.word 0 8

/-- `MDMemoryDescriptor::memory`. -/
def MDMemoryDescriptor.memory (m : MDMemoryDescriptor) : MDLocationDescriptor :=
  RawObject.location m 8

/-- `MDRawExceptionStream`. -/
abbrev MDRawExceptionStream := RawObject 168

/-- `MDRawExceptionStream::thread_id`. -/
def MDRawExceptionStream.threadId (e : MDRawExceptionStream) : ℕ := e.word 0 4

/-- `MDRawExceptionStream::thread_context`. -/
def MDRawExceptionStream.threadContext (e : MDRawExceptionStream) : MDLocationDescriptor :=
  RawObject.location e 160

/-- `MDRawSystemInfo`. -/
abbrev MDRawSystemInfo := RawObject 56

/-- `Minidump::ReadBytes`: success, the bytes stored into the buffer, and the stream. -/
def readBytes (s : InputStream) (n : ℕ) : Bool × List UInt8 × InputStream :=
  let (got, s) := s.read n
  (got.length = n, got, s)

/-- `Minidump::SeekTo`. -/
def seekTo (s : InputStream) (off : ℤ) : Bool × InputStream :=
  let s := s.seekg off
  (s.good, s)

/-- Seeking on a stream that has not failed succeeds. -/
theorem seekTo_of_unfailed {s : InputStream} (hs : s.failbit = false) (off : ℕ) :
    seekTo s off = (true, openAt s.image off) := by
  simp only [seekTo, InputStream.seekg_natCast hs]
  rfl

/-- A read inside the file succeeds. -/
theorem readBytes_of_le {image : List UInt8} {pos n : ℕ} (h : pos + n ≤ image.length) :
    readBytes (openAt image pos) n = (true, slice image pos n, openAt image (pos + n)) := by
  have hgood : (openAt image pos).good = true := rfl
  have hfst := InputStream.read_fst_of_good hgood n
  have hlength := InputStream.length_slice h
  have hsnd := InputStream.read_snd_of_length hgood (by rw [hfst]; exact hlength)
  simp only [readBytes, hfst, hsnd]
  simp [openAt, hlength]

/-- Reading nothing succeeds everywhere. -/
theorem readBytes_zero (image : List UInt8) (pos : ℕ) :
    readBytes (openAt image pos) 0 = (true, slice image pos 0, openAt image pos) := by
  simp [readBytes, InputStream.read, InputStream.good, openAt, slice]

/-- A read that reaches beyond the file fails, unless it asks for nothing. It stores what
the file has. -/
theorem readBytes_of_not_le {image : List UInt8} {pos n : ℕ} (hn : 0 < n)
    (h : ¬pos + n ≤ image.length) :
    ∃ s', readBytes (openAt image pos) n = (false, slice image pos n, s') ∧ s'.failbit = true := by
  have hgood : (openAt image pos).good = true := rfl
  have hfst := InputStream.read_fst_of_good hgood n
  have hshort : ¬(slice image pos n).length = n := by
    rw [InputStream.length_slice_eq_iff]
    omega
  refine ⟨_, ?_, InputStream.read_failbit_of_short hgood (by rw [hfst]; exact hshort)⟩
  simp only [readBytes, hfst]
  exact congrArg (fun ok => (ok, _, _)) (decide_eq_false hshort)

/-- A read that asks for something and succeeds leaves the failure bit clear. -/
theorem readBytes_unfailed {s : InputStream} {n : ℕ} (hn : 0 < n)
    (h : (readBytes s n).1 = true) : (readBytes s n).2.2.failbit = false := by
  by_cases hgood : s.good = true
  · have hread := InputStream.read_snd_of_length hgood (of_decide_eq_true h)
    rw [show (readBytes s n).2.2 = (s.read n).2 from rfl, hread]
    simp only [InputStream.good, Bool.and_eq_true, Bool.not_eq_true'] at hgood
    exact hgood.2
  · have hread := InputStream.read_of_not_good (by simpa using hgood) n
    simp only [readBytes, hread, List.length_nil, decide_eq_true_eq] at h
    omega

/-- A read that fails leaves the failure bit set. -/
theorem readBytes_failbit {s : InputStream} {n : ℕ} (h : (readBytes s n).1 = false) :
    (readBytes s n).2.2.failbit = true := by
  by_cases hgood : s.good = true
  · exact InputStream.read_failbit_of_short hgood (of_decide_eq_false h)
  · have hread := InputStream.read_of_not_good (by simpa using hgood) n
    simp only [readBytes, hread]

/-- A seek fails exactly when it leaves the failure bit set. -/
theorem seekTo_ok_iff (s : InputStream) (off : ℤ) :
    (seekTo s off).1 = true ↔ (seekTo s off).2.failbit = false := by
  have heof : (s.seekg off).eofbit = false := by
    unfold InputStream.seekg
    split
    · rfl
    · split <;> rfl
  simp [seekTo, InputStream.good, heof]

/-- A stream that has failed refuses every seek and stays failed. -/
theorem seekTo_of_failed {s : InputStream} (hs : s.failbit = true) (off : ℤ) :
    ∃ s', seekTo s off = (false, s') ∧ s'.failbit = true := by
  have hfail := InputStream.seekg_failbit_of_failbit hs off
  refine ⟨s.seekg off, ?_, hfail⟩
  simp [seekTo, InputStream.good, hfail]

/-- A seek to a negative offset makes the stream fail. -/
theorem seekTo_of_neg {s : InputStream} (hs : s.failbit = false) {off : ℤ} (hoff : off < 0) :
    ∃ s', seekTo s off = (false, s') ∧ s'.failbit = true := by
  refine ⟨s.seekg off, ?_, ?_⟩
  · simp [seekTo, InputStream.good, InputStream.seekg, hs, hoff]
  · simp [InputStream.seekg, hs, hoff]

theorem readBytes_later (s : InputStream) (n : ℕ) : s.Later (readBytes s n).2.2 :=
  s.read_later n

theorem seekTo_later (s : InputStream) (off : ℤ) : s.Later (seekTo s off).2 :=
  s.seekg_later off

/-- The item loop of `ReadStream` over the items still to be read. -/
def readItems {size : ℕ} (itemSize : ℕ) :
    List (RawObject size) → InputStream → Bool × List (RawObject size) × InputStream
  | [], s => (true, [], s)
  | item :: rest, s =>
    match readBytes s itemSize with
    | (false, got, s) => (false, item.store 0 got :: rest, s)
    | (true, got, s) =>
      let (ok, rest, s) := readItems itemSize rest s
      (ok, item.store 0 got :: rest, s)

theorem readItems_later {size itemSize : ℕ} (items : List (RawObject size)) (s : InputStream) :
    s.Later (readItems itemSize items s).2.2 := by
  induction items generalizing s with
  | nil => exact .refl s
  | cons item rest ih =>
    have hread := readBytes_later s itemSize
    unfold readItems
    generalize readBytes s itemSize = result at hread
    obtain ⟨ok, got, t⟩ := result
    cases ok with
    | false => exact hread
    | true => exact hread.trans (ih t)

/-- The loop keeps the number of items. -/
theorem length_readItems {size itemSize : ℕ} (items : List (RawObject size)) (s : InputStream) :
    (readItems itemSize items s).2.1.length = items.length := by
  induction items generalizing s with
  | nil => rfl
  | cons item rest ih =>
    unfold readItems
    generalize readBytes s itemSize = result
    obtain ⟨ok, got, t⟩ := result
    cases ok with
    | false => rfl
    | true => exact congrArg (· + 1) (ih t)

/-- A read of an item that fails leaves the failure bit set. -/
theorem readItems_failbit {size itemSize : ℕ} {items : List (RawObject size)} {s : InputStream}
    (h : (readItems itemSize items s).1 = false) :
    (readItems itemSize items s).2.2.failbit = true := by
  induction items generalizing s with
  | nil => cases h
  | cons item rest ih =>
    have hread := @readBytes_failbit s itemSize
    unfold readItems at h ⊢
    generalize readBytes s itemSize = result at h hread
    obtain ⟨ok, got, t⟩ := result
    cases ok with
    | false => exact hread rfl
    | true => exact ih h

/-- The check of `ReadStream` on the size of the stream: read the padding if there is
any, and refuse every other size. -/
def readPadding (dataSize itemCount itemSize : ℕ) (s : InputStream) : Bool × InputStream :=
  if dataSize = 4 + itemCount * itemSize then (true, s)
  else if dataSize = 4 + 4 + itemCount * itemSize then
    let (ok, _, s) := readBytes s 4
    (ok, s)
  else (false, s)

theorem readPadding_later (dataSize itemCount itemSize : ℕ) (s : InputStream) :
    s.Later (readPadding dataSize itemCount itemSize s).2 := by
  unfold readPadding
  split
  · exact .refl s
  · split
    · exact readBytes_later s 4
    · exact .refl s

/-- `ReadStream` on a stream of items of type `T`, whose size is `size`. -/
def readStream {size : ℕ} (directory : MDRawDirectory) (stream : List (RawObject size))
    (itemSize maxItemSize : ℕ) (s : InputStream) : Bool × List (RawObject size) × InputStream :=
  if stream.length ≠ 0 then (false, stream, s)
  else
    match seekTo s directory.location.rva with
    | (false, s) => (false, stream, s)
    | (true, s) =>
      if directory.location.dataSize < 4 then (false, stream, s)
      else
        match readBytes s 4 with
        | (false, _, s) => (false, stream, s)
        | (true, countBytes, s) =>
          let itemCount := LittleEndian.decode countBytes
          if itemCount > (2 ^ 32 - 1) / itemSize then (false, stream, s)
          else
            match readPadding directory.location.dataSize itemCount itemSize s with
            | (false, s) => (false, stream, s)
            | (true, s) =>
              if itemCount > maxItemSize then (false, stream, s)
              else if itemCount > 0 then
                readItems itemSize (List.replicate itemCount (RawObject.zero size)) s
              else (true, stream, s)

theorem readStream_later {size : ℕ} (directory : MDRawDirectory) (stream : List (RawObject size))
    (itemSize maxItemSize : ℕ) (s : InputStream) :
    s.Later (readStream directory stream itemSize maxItemSize s).2.2 := by
  unfold readStream
  split
  · exact .refl s
  have hseek := seekTo_later s directory.location.rva
  generalize seekTo s directory.location.rva = result at hseek
  obtain ⟨ok, t⟩ := result
  cases ok with
  | false => exact hseek
  | true =>
    dsimp only
    split
    · exact hseek
    have hread := readBytes_later t 4
    generalize readBytes t 4 = result at hread
    obtain ⟨ok, countBytes, u⟩ := result
    cases ok with
    | false => exact hseek.trans hread
    | true =>
      dsimp only
      split
      · exact hseek.trans hread
      have hpad := readPadding_later directory.location.dataSize (LittleEndian.decode countBytes)
        itemSize u
      generalize readPadding directory.location.dataSize (LittleEndian.decode countBytes)
        itemSize u = result at hpad
      obtain ⟨ok, w⟩ := result
      have hheader := (hseek.trans hread).trans hpad
      cases ok with
      | false => exact hheader
      | true =>
        dsimp only
        split
        · exact hheader
        · split
          · exact hheader.trans (readItems_later _ w)
          · exact hheader

/-- A vector that is filled already makes `ReadStream` fail at once. -/
theorem readStream_of_ne_nil {size itemSize maxItemSize : ℕ} {stream : List (RawObject size)}
    (hne : stream ≠ []) (directory : MDRawDirectory) (s : InputStream) :
    readStream directory stream itemSize maxItemSize s = (false, stream, s) := by
  rw [readStream, if_pos]
  simpa using hne

/-- On a stream that has failed `ReadStream` fails and leaves the vector as it was. -/
theorem readStream_of_failed {size itemSize maxItemSize : ℕ} {s : InputStream}
    (hs : s.failbit = true) (directory : MDRawDirectory) (stream : List (RawObject size)) :
    ∃ s', readStream directory stream itemSize maxItemSize s = (false, stream, s') := by
  obtain ⟨t, hseek, -⟩ := seekTo_of_failed hs (MDRawDirectory.location directory).rva
  unfold readStream
  split
  · exact ⟨_, rfl⟩
  · simp only [hseek]
    exact ⟨_, rfl⟩

/-- `ReadStream` sees of an unfailed stream only its file. -/
theorem readStream_eq_of_image {size itemSize maxItemSize : ℕ} {s t : InputStream}
    (hs : s.failbit = false) (ht : t.failbit = false) (himage : s.image = t.image)
    (directory : MDRawDirectory) :
    readStream directory ([] : List (RawObject size)) itemSize maxItemSize s =
      readStream directory [] itemSize maxItemSize t := by
  simp only [readStream, seekTo_of_unfailed hs, seekTo_of_unfailed ht, himage, List.length_nil,
    ne_eq, not_true_eq_false, if_false]

/-- `ReadStreamSingle` into an object of type `T`, whose size is `size`. -/
def readStreamSingle {size : ℕ} (directory : MDRawDirectory) (stream : RawObject size)
    (s : InputStream) : Bool × RawObject size × InputStream :=
  match seekTo s directory.location.rva with
  | (false, s) => (false, stream, s)
  | (true, s) =>
    if directory.location.dataSize ≠ size then (false, stream, s)
    else
      match readBytes s size with
      | (ok, got, s) => (ok, stream.store 0 got, s)

theorem readStreamSingle_later {size : ℕ} (directory : MDRawDirectory) (stream : RawObject size)
    (s : InputStream) : s.Later (readStreamSingle directory stream s).2.2 := by
  unfold readStreamSingle
  have hseek := seekTo_later s directory.location.rva
  generalize seekTo s directory.location.rva = result at hseek
  obtain ⟨ok, t⟩ := result
  cases ok with
  | false => exact hseek
  | true =>
    dsimp only
    split
    · exact hseek
    · exact hseek.trans (readBytes_later t size)

/-- On a stream that has failed `ReadStreamSingle` fails and leaves its target as it was. -/
theorem readStreamSingle_of_failed {size : ℕ} {s : InputStream} (hs : s.failbit = true)
    (directory : MDRawDirectory) (stream : RawObject size) :
    ∃ s', readStreamSingle directory stream s = (false, stream, s') := by
  obtain ⟨t, hseek, -⟩ := seekTo_of_failed hs (MDRawDirectory.location directory).rva
  exact ⟨t, by simp only [readStreamSingle, hseek]⟩

/-- Without a failed read `ReadStreamSingle` succeeds exactly when the size is right. -/
theorem readStreamSingle_ok_iff {size : ℕ} {directory : MDRawDirectory}
    {stream stream' : RawObject size} {s s' : InputStream} {ok : Bool}
    (hrun : readStreamSingle directory stream s = (ok, stream', s'))
    (hclear : s'.failbit = false) : ok = true ↔ directory.location.dataSize = size := by
  have hlater := readStreamSingle_later directory stream s
  rw [hrun] at hlater
  have hfail := @readBytes_failbit (openAt s.image directory.location.rva) size
  simp only [readStreamSingle, seekTo_of_unfailed (hlater.unfailed hclear)] at hrun
  split at hrun
  case isTrue hother =>
    cases hrun
    exact ⟨nofun, fun hsize => absurd hsize hother⟩
  case isFalse hsize =>
    cases hrun
    refine ⟨fun _ => not_not.mp hsize, fun _ => ?_⟩
    by_contra hok
    rw [hfail (by simpa using hok)] at hclear
    cases hclear

/-- `ReadStreamSingle` sees of an unfailed stream only its file. -/
theorem readStreamSingle_eq_of_image {size : ℕ} {s t : InputStream}
    (hs : s.failbit = false) (ht : t.failbit = false) (himage : s.image = t.image)
    (directory : MDRawDirectory) (stream : RawObject size) :
    readStreamSingle directory stream s = readStreamSingle directory stream t := by
  simp only [readStreamSingle, seekTo_of_unfailed hs, seekTo_of_unfailed ht, himage]

end DwarfExpr
