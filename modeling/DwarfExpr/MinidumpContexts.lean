import DwarfExpr.Minidump

/-!
# CPU contexts

A `MinidumpContext` holds a pointer to one of four register records and the flags that
say which. `Read` fills two of them only: the branch for the other record sizes reads
the flags through a null pointer. The flags of an AMD64 record are taken over unchecked.
-/

namespace DwarfExpr

open InputStream (slice)

/-- The members of the union `context_`. -/
inductive ContextMember where
  | x86 | amd64 | arm | arm64
  deriving DecidableEq, Repr

/-- `MD_CONTEXT_X86`, `MD_CONTEXT_AMD64`, `MD_CONTEXT_ARM` and `MD_CONTEXT_ARM64`. -/
def ContextMember.cpu : ContextMember → ℕ
  | x86 => 0x00010000
  | amd64 => 0x00100000
  | arm => 0x40000000
  | arm64 => 0x00400000

/-- The `switch` over the CPU type in the getters and in `~MinidumpContext`: the member
that they access. -/
def accessedMember (contextFlags : ℕ) : Option ContextMember :=
  match cpuType contextFlags with
  | 0x00010000 => some .x86
  | 0x00100000 => some .amd64
  | 0x40000000 => some .arm
  | 0x00400000 => some .arm64
  | _ => none

/-- The accessed member is the one with that CPU type. -/
theorem accessedMember_eq_some_iff {contextFlags : ℕ} {member : ContextMember} :
    accessedMember contextFlags = some member ↔ cpuType contextFlags = member.cpu := by
  unfold accessedMember
  constructor
  · intro h
    split at h <;> simp_all [ContextMember.cpu]
    all_goals subst h; rfl
  · intro h
    rw [h]
    cases member <;> rfl

/-- A field of a record: its offset and its width. -/
structure RecordField where
  off : ℕ
  width : ℕ
  deriving DecidableEq, Repr

/-- `eip`, `rip` and the `iregs` entries of the pc. -/
def ContextMember.instructionPointer : ContextMember → RecordField
  | x86 => ⟨184, 4⟩
  | amd64 => ⟨248, 8⟩
  | arm => ⟨4 + 15 * 4, 4⟩
  | arm64 => ⟨8 + 32 * 8, 8⟩

/-- `esp`, `rsp` and the `iregs` entries of the stack pointer. -/
def ContextMember.stackPointer : ContextMember → RecordField
  | x86 => ⟨196, 4⟩
  | amd64 => ⟨152, 8⟩
  | arm => ⟨4 + 13 * 4, 4⟩
  | arm64 => ⟨8 + 31 * 8, 8⟩

/-- `ebp`, `rbp` and the `iregs` entries of the frame pointer. -/
def ContextMember.framePointer : ContextMember → RecordField
  | x86 => ⟨180, 4⟩
  | amd64 => ⟨160, 8⟩
  | arm => ⟨4 + 11 * 4, 4⟩
  | arm64 => ⟨8 + 29 * 8, 8⟩

/-- The member that points to the record. -/
def ContextRecord.member : ContextRecord → ContextMember
  | amd64 _ => .amd64
  | arm64 _ => .arm64

/-- A field read from the memory of the record. All members of the union hold the same
pointer, so the layout may be that of another record. -/
def ContextRecord.field : ContextRecord → RecordField → ℕ
  | amd64 context, f => context.word f.off f.width
  | arm64 context, f => context.word f.off f.width

/-- What the three getters share: `none` is the answer `false`. -/
def MinidumpContext.getPointer (field : ContextMember → RecordField) (c : MinidumpContext) :
    Option ℕ :=
  (accessedMember c.contextFlags).map fun member => c.context.field (field member)

/-- `MinidumpContext::GetInstructionPointer`. -/
def MinidumpContext.getInstructionPointer : MinidumpContext → Option ℕ :=
  getPointer ContextMember.instructionPointer

/-- `MinidumpContext::GetStackPointer`. -/
def MinidumpContext.getStackPointer : MinidumpContext → Option ℕ :=
  getPointer ContextMember.stackPointer

/-- `MinidumpContext::GetFramePointer`. -/
def MinidumpContext.getFramePointer : MinidumpContext → Option ℕ :=
  getPointer ContextMember.framePointer

/-- `MinidumpContext::~MinidumpContext`: the member that it deletes. -/
def MinidumpContext.deletedMember (c : MinidumpContext) : Option ContextMember :=
  accessedMember c.contextFlags

/-- The context records that a minidump may hold. -/
inductive ContextKind where
  | x86 | amd64 | arm | arm64 | arm64Old
  deriving DecidableEq, Repr

/-- The size of a record: `sizeof` of its structure. -/
def ContextKind.size : ContextKind → ℕ
  | x86 => 716
  | amd64 => 1232
  | arm => 368
  | arm64 => 912
  | arm64Old => 796

/-- The field `context_flags` of a record. -/
def ContextKind.contextFlags : ContextKind → RecordField
  | amd64 => ⟨48, 4⟩
  | arm64Old => ⟨0, 8⟩
  | _ => ⟨0, 4⟩

/-- The CPU type that the flags of a record name. -/
def ContextKind.cpu : ContextKind → ℕ
  | x86 => ContextMember.cpu .x86
  | amd64 => ContextMember.cpu .amd64
  | arm => ContextMember.cpu .arm
  | arm64 => ContextMember.cpu .arm64
  | arm64Old => mdContextARM64Old

/-- The member whose register fields have the places that they have in the record. The
registers of both ARM64 records stand behind eight bytes. -/
def ContextKind.registers : ContextKind → ContextMember
  | x86 => .x86
  | amd64 => .amd64
  | arm => .arm
  | arm64 => .arm64
  | arm64Old => .arm64

/-- A field of the record at an offset of the file, as an unsigned number. -/
def storedField (image : List UInt8) (rva : ℕ) (f : RecordField) : ℕ :=
  LittleEndian.decode (slice image (rva + f.off) f.width)

/-- The bytes at the location are a record of this kind: it has the size of the
structure, lies inside the file, and its flags name the CPU. -/
structure RecordAt (kind : ContextKind) (image : List UInt8) (loc : MDLocationDescriptor) :
    Prop where
  size_eq : loc.dataSize = kind.size
  inside : loc.rva + kind.size ≤ image.length
  names_cpu : cpuType (storedField image loc.rva kind.contextFlags) = kind.cpu

/-- `Read` succeeds, and the getters then return the registers that are stored. -/
def Decodes (kind : ContextKind) (loc : MDLocationDescriptor) (s : InputStream) : Prop :=
  ∃ c s', MinidumpContext.read loc s = some (some c, s') ∧
    c.getInstructionPointer = some (storedField s.image loc.rva kind.registers.instructionPointer) ∧
    c.getStackPointer = some (storedField s.image loc.rva kind.registers.stackPointer) ∧
    c.getFramePointer = some (storedField s.image loc.rva kind.registers.framePointer)

/-- What `Read` makes of an AMD64 record in the file. -/
def amd64Context (image : List UInt8) (rva : ℕ) : MinidumpContext :=
  let amd64 := (RawObject.zero 1232).store 0 (slice image rva 1232)
  ⟨.amd64 amd64, amd64.word 48 4⟩

/-- What `Read` makes of an old ARM64 record in the file. -/
def arm64OldContext (image : List UInt8) (rva : ℕ) : MinidumpContext :=
  let arm64 := convertOldARM64Context
    ((RawObject.zero 796).store 8 (slice image (rva + 8) (796 - 8)))
  ⟨.arm64 arm64, arm64.word 0 4⟩

/-- `Read` succeeds exactly on an AMD64-sized record inside the file, whatever its flags
are, and on an old ARM64 record. -/
theorem contextRead_some_iff {s : InputStream} (hs : s.failbit = false)
    (loc : MDLocationDescriptor) (c : MinidumpContext) :
    (∃ s', MinidumpContext.read loc s = some (some c, s')) ↔
      (loc.dataSize = 1232 ∧ loc.rva + 1232 ≤ s.image.length ∧ c = amd64Context s.image loc.rva) ∨
        (loc.dataSize = 796 ∧ loc.rva + 796 ≤ s.image.length ∧
          cpuType (LittleEndian.decode (slice s.image loc.rva 8)) = mdContextARM64Old ∧
          c = arm64OldContext s.image loc.rva) := by
  unfold MinidumpContext.read
  simp only [seekTo_of_unfailed hs]
  by_cases hamd64 : loc.dataSize = 1232
  · simp only [hamd64, if_true]
    by_cases hfits : loc.rva + 1232 ≤ s.image.length
    · simp only [readBytes_of_le hfits, hfits]
      simp [amd64Context, eq_comm]
    · obtain ⟨s', hread, -⟩ := readBytes_of_not_le (by decide) hfits
      simp only [hread, hfits]
      simp
  by_cases hppc64 : loc.dataSize = sizeofContextPPC64
  · simp [hppc64, sizeofContextPPC64]
  by_cases hold : loc.dataSize = 796
  · simp only [hold, if_neg (show ¬(796 = 1232) by decide), if_true,
      if_neg (show ¬(796 = sizeofContextPPC64) by decide)]
    by_cases hflags : loc.rva + 8 ≤ s.image.length
    · simp only [readBytes_of_le hflags]
      by_cases hcpu : cpuType (LittleEndian.decode (slice s.image loc.rva 8)) = mdContextARM64Old
      · simp only [hcpu, ne_eq, not_true_eq_false, if_false]
        by_cases hfits : loc.rva + 8 + (796 - 8) ≤ s.image.length
        · have hall : loc.rva + 796 ≤ s.image.length := by omega
          simp only [readBytes_of_le hfits, hall]
          simp [arm64OldContext, eq_comm]
        · have hshort : ¬loc.rva + 796 ≤ s.image.length := by omega
          obtain ⟨s', hread, -⟩ := readBytes_of_not_le (by decide) hfits
          simp only [hread, hshort]
          simp
      · simp [hcpu]
    · have hshort : ¬loc.rva + 796 ≤ s.image.length := by omega
      obtain ⟨s', hread, -⟩ := readBytes_of_not_le (by decide) hflags
      simp only [hread, hshort]
      simp
  · simp only [hamd64, hppc64, hold, if_false, false_and, or_false, iff_false]
    rintro ⟨s', hread⟩
    cases hnull : readBytesToNull (InputStream.openAt s.image loc.rva) 4 <;>
      rw [hnull] at hread <;> cases hread

/-- Nothing is read from a failed stream. -/
theorem contextRead_of_failed {s : InputStream} (hs : s.failbit = true)
    (loc : MDLocationDescriptor) : ∃ s', MinidumpContext.read loc s = some (none, s') := by
  obtain ⟨s', hseek, -⟩ := seekTo_of_failed hs loc.rva
  exact ⟨s', by simp only [MinidumpContext.read, hseek]⟩

/-- The fields of an AMD64 record are those of the file. -/
theorem amd64Context_field {image : List UInt8} {rva : ℕ} (hfits : rva + 1232 ≤ image.length)
    {f : RecordField} (hf : f.off + f.width ≤ 1232) :
    (amd64Context image rva).context.field f = storedField image rva f := by
  have hlength := InputStream.length_slice hfits
  have hpart := @RawObject.part_store_inside 1232 (.zero 1232) (slice image rva 1232) 0 f.off
    f.width (by omega) (by omega)
  rw [Nat.zero_add] at hpart
  simp only [amd64Context, ContextRecord.field, RawObject.word, hpart]
  exact congrArg LittleEndian.decode (InputStream.slice_slice hf)

/-- The flags of an AMD64 record are those of the file. -/
theorem amd64Context_contextFlags {image : List UInt8} {rva : ℕ}
    (hfits : rva + 1232 ≤ image.length) :
    (amd64Context image rva).contextFlags = storedField image rva ⟨48, 4⟩ :=
  @amd64Context_field image rva hfits ⟨48, 4⟩ (by decide)

/-- The integer registers of a converted record are those of the old record. -/
theorem convertOldARM64Context_part (old : MDRawContextARM64Old) {off width : ℕ} (hoff : 8 ≤ off)
    (hend : off + width ≤ 272) :
    (convertOldARM64Context old).part off width = old.part off width := by
  obtain ⟨k, rfl⟩ : ∃ k, off = 8 + k := ⟨off - 8, by omega⟩
  have hregs : (old.part 8 264).length = 264 := RawObject.length_part (by decide)
  unfold convertOldARM64Context
  rw [RawObject.part_store_before (by omega), RawObject.part_store_before (by omega),
    RawObject.part_store_before (by omega),
    RawObject.part_store_inside (by rw [hregs]; decide) (by rw [hregs]; omega)]
  exact InputStream.slice_slice (by omega)

/-- The converted flags name the CPU ARM64 whatever the old ones are. -/
theorem cpuType_convertOldARM64Flags (old : ℕ) :
    cpuType (convertOldARM64Flags old) = ContextMember.cpu .arm64 := by
  unfold convertOldARM64Flags
  split <;> split <;> rfl

/-- The flags of a converted record. -/
theorem convertOldARM64Context_flags (old : MDRawContextARM64Old) :
    (convertOldARM64Context old).word 0 4 = convertOldARM64Flags (old.word 0 8) := by
  have hencode := LittleEndian.length_encode 4 (convertOldARM64Flags (old.word 0 8))
  have hpart := @RawObject.part_store_inside 912 (.zero 912)
    (LittleEndian.encode 4 (convertOldARM64Flags (old.word 0 8))) 0 0 4 (by omega) (by omega)
  have hsmall : convertOldARM64Flags (old.word 0 8) < 256 ^ 4 := by
    unfold convertOldARM64Flags
    split <;> split <;> decide
  unfold convertOldARM64Context
  rw [RawObject.word, RawObject.part_store_before (by omega),
    RawObject.part_store_before (by omega), RawObject.part_store_before (by omega),
    RawObject.part_store_before (by omega), RawObject.part_store_before (by omega), hpart,
    List.drop_zero, List.take_of_length_le hencode.le, LittleEndian.decode_encode hsmall]

/-- The integer registers of an old ARM64 record are those of the file. -/
theorem arm64OldContext_field {image : List UInt8} {rva : ℕ} (hfits : rva + 796 ≤ image.length)
    {f : RecordField} (hoff : 8 ≤ f.off) (hend : f.off + f.width ≤ 272) :
    (arm64OldContext image rva).context.field f = storedField image rva f := by
  obtain ⟨k, hk⟩ : ∃ k, f.off = 8 + k := ⟨f.off - 8, by omega⟩
  have hlength : (slice image (rva + 8) (796 - 8)).length = 796 - 8 :=
    InputStream.length_slice (by omega)
  simp only [arm64OldContext, ContextRecord.field, RawObject.word,
    convertOldARM64Context_part _ hoff hend, storedField]
  rw [hk, RawObject.part_store_inside (by omega) (by omega), ← Nat.add_assoc]
  exact congrArg LittleEndian.decode (InputStream.slice_slice (by omega))

/-- The flags of an old ARM64 record make the getters access the member `arm64`. -/
theorem arm64OldContext_accessed (image : List UInt8) (rva : ℕ) :
    accessedMember (arm64OldContext image rva).contextFlags = some .arm64 := by
  rw [accessedMember_eq_some_iff]
  simp only [arm64OldContext, convertOldARM64Context_flags, cpuType_convertOldARM64Flags]

/-- A record of any other size lets the process crash. -/
theorem contextRead_crashes {s : InputStream} (hs : s.failbit = false)
    {loc : MDLocationDescriptor} (hamd64 : loc.dataSize ≠ 1232)
    (hppc64 : loc.dataSize ≠ sizeofContextPPC64) (hold : loc.dataSize ≠ 796)
    (hinside : loc.rva < s.image.length) : MinidumpContext.read loc s = none := by
  have hnull := @readBytesToNull_of_inside s.image loc.rva 4 (by decide) hinside
  simp only [MinidumpContext.read, seekTo_of_unfailed hs, if_neg hamd64, if_neg hppc64,
    if_neg hold, hnull]

/-- Reading a context record succeeds with the stored registers exactly for AMD64 and for
old ARM64 records. -/
theorem contextRead_decodes_iff {s : InputStream} (hs : s.failbit = false) {kind : ContextKind}
    {loc : MDLocationDescriptor} (hrecord : RecordAt kind s.image loc) :
    Decodes kind loc s ↔ kind = .amd64 ∨ kind = .arm64Old := by
  obtain ⟨hsize, hinside, hcpu⟩ := hrecord
  have hcrash (hamd64 : kind.size ≠ 1232) (hppc64 : kind.size ≠ sizeofContextPPC64)
      (hold : kind.size ≠ 796) (hpos : 0 < kind.size) : ¬Decodes kind loc s := by
    rintro ⟨c, s', hread, -⟩
    rw [contextRead_crashes hs (by rwa [hsize]) (by rwa [hsize]) (by rwa [hsize]) (by omega)]
      at hread
    cases hread
  cases kind with
  | x86 | arm | arm64 =>
    have h := hcrash (by decide) (by decide) (by decide) (by decide)
    simpa using h
  | amd64 =>
    have hfits : loc.rva + 1232 ≤ s.image.length := hinside
    obtain ⟨s', hread⟩ := (contextRead_some_iff hs loc _).mpr (Or.inl ⟨hsize, hfits, rfl⟩)
    have haccess : accessedMember (amd64Context s.image loc.rva).contextFlags = some .amd64 := by
      rw [accessedMember_eq_some_iff, amd64Context_contextFlags hfits]
      exact hcpu
    have hfield (f : RecordField) (hf : f.off + f.width ≤ 1232) := amd64Context_field hfits hf
    refine iff_of_true ⟨_, s', hread, ?_, ?_, ?_⟩ (Or.inl rfl)
    all_goals
      simp only [MinidumpContext.getInstructionPointer, MinidumpContext.getStackPointer,
        MinidumpContext.getFramePointer, MinidumpContext.getPointer, haccess, Option.map_some]
      exact congrArg some (hfield _ (by decide))
  | arm64Old =>
    have hfits : loc.rva + 796 ≤ s.image.length := hinside
    obtain ⟨s', hread⟩ :=
      (contextRead_some_iff hs loc _).mpr (Or.inr ⟨hsize, hfits, hcpu, rfl⟩)
    have haccess := arm64OldContext_accessed s.image loc.rva
    have hfield (f : RecordField) (hoff : 8 ≤ f.off) (hend : f.off + f.width ≤ 272) :=
      arm64OldContext_field hfits hoff hend
    refine iff_of_true ⟨_, s', hread, ?_, ?_, ?_⟩ (Or.inr rfl)
    all_goals
      simp only [MinidumpContext.getInstructionPointer, MinidumpContext.getStackPointer,
        MinidumpContext.getFramePointer, MinidumpContext.getPointer, haccess, Option.map_some]
      exact congrArg some (hfield _ (by decide) (by decide))

/-- The words of a record from an offset on: each of eight bytes has a value of its own. -/
def numberedWords (off n : ℕ) : List UInt8 :=
  (List.range n).map fun i => .ofNat ((off + i) / 8 + 1)

/-- A file with nothing but a record of this kind: its registers have different values. -/
def recordFile (kind : ContextKind) : List UInt8 :=
  numberedWords 0 kind.contextFlags.off ++
    LittleEndian.encode kind.contextFlags.width kind.cpu ++
    numberedWords (kind.contextFlags.off + kind.contextFlags.width)
      (kind.size - kind.contextFlags.off - kind.contextFlags.width)

/-- The file has the size of the record. -/
theorem length_recordFile (kind : ContextKind) : (recordFile kind).length = kind.size := by
  simp only [recordFile, numberedWords, List.length_append, List.length_map, List.length_range,
    LittleEndian.length_encode]
  cases kind <;> rfl

/-- The file holds such a record. -/
theorem recordFile_recordAt (kind : ContextKind) :
    RecordAt kind (recordFile kind) ⟨kind.size, 0⟩ where
  size_eq := rfl
  inside := by rw [length_recordFile, Nat.zero_add]
  names_cpu := by
    cases kind <;> rfl

/-- A file with an x86 record lets the process crash. -/
theorem contextRead_x86_crashes :
    RecordAt .x86 (recordFile .x86) ⟨716, 0⟩ ∧
      ¬Decodes .x86 ⟨716, 0⟩ (.ofImage (recordFile .x86)) := by
  refine ⟨recordFile_recordAt .x86, ?_⟩
  rintro ⟨c, s', hread, -⟩
  have hinside : 0 < (recordFile .x86).length := by
    rw [length_recordFile]
    decide
  have hcrash := @contextRead_crashes (.ofImage (recordFile .x86)) rfl ⟨716, 0⟩ (by decide)
    (by decide) (by decide) hinside
  rw [hcrash] at hread
  cases hread

/-- The characterization at a file with an AMD64 record. -/
theorem contextRead_decodes_iff_amd64 :
    Decodes .amd64 ⟨1232, 0⟩ (.ofImage (recordFile .amd64)) ↔
      ContextKind.amd64 = .amd64 ∨ ContextKind.amd64 = .arm64Old :=
  contextRead_decodes_iff rfl (recordFile_recordAt .amd64)

/-- The flags of the context name the record that it holds, so that the getters and the
destructor access the member of the union that was filled. -/
structure MinidumpContext.WellTagged (c : MinidumpContext) : Prop where
  tag : cpuType c.contextFlags = c.context.member.cpu
  getters : ∀ field, c.getPointer field = some (c.context.field (field c.context.member))
  destructor : c.deletedMember = some c.context.member

/-- The CPU type decides which member is accessed. -/
theorem MinidumpContext.wellTagged_iff {c : MinidumpContext} :
    c.WellTagged ↔ cpuType c.contextFlags = c.context.member.cpu := by
  constructor
  · exact WellTagged.tag
  · intro htag
    have haccess := accessedMember_eq_some_iff.mpr htag
    exact ⟨htag, fun field => by simp only [getPointer, haccess, Option.map_some], haccess⟩

/-- Whatever the bytes at the location are, a context read from there is tagged with the
record that it holds, unless it is AMD64-sized with flags that name another CPU. -/
theorem contextRead_wellTagged_iff (s : InputStream) (loc : MDLocationDescriptor) :
    (∀ c s', MinidumpContext.read loc s = some (some c, s') → c.WellTagged) ↔
      ¬(s.failbit = false ∧ loc.dataSize = 1232 ∧ loc.rva + 1232 ≤ s.image.length ∧
        cpuType (storedField s.image loc.rva ⟨48, 4⟩) ≠ ContextMember.cpu .amd64) := by
  constructor
  · rintro htagged ⟨hs, hsize, hfits, hcpu⟩
    obtain ⟨s', hread⟩ := (contextRead_some_iff hs loc _).mpr (Or.inl ⟨hsize, hfits, rfl⟩)
    have htag := (htagged _ s' hread).tag
    rw [amd64Context_contextFlags hfits] at htag
    exact hcpu htag
  · intro hcond c s' hread
    rw [MinidumpContext.wellTagged_iff]
    cases hs : s.failbit with
    | true =>
      obtain ⟨t, hfailed⟩ := contextRead_of_failed hs loc
      rw [hfailed] at hread
      cases hread
    | false =>
      rcases (contextRead_some_iff hs loc c).mp ⟨s', hread⟩ with
        ⟨hsize, hfits, rfl⟩ | ⟨-, -, -, rfl⟩
      · rw [amd64Context_contextFlags hfits]
        by_contra hcpu
        exact hcond ⟨hs, hsize, hfits, hcpu⟩
      · exact accessedMember_eq_some_iff.mp (arm64OldContext_accessed s.image loc.rva)

/-- A file with 1232 bytes whose flags name an x86 context. -/
def mistaggedFile : List UInt8 :=
  List.replicate 48 0 ++ LittleEndian.encode 4 (ContextMember.cpu .x86) ++ List.replicate 1180 0

/-- The bytes of an AMD64 record are accepted with an x86 tag. -/
theorem contextRead_mistagged :
    ¬∀ c s', MinidumpContext.read ⟨1232, 0⟩ (.ofImage mistaggedFile) = some (some c, s') →
      c.WellTagged := by
  intro htagged
  have hfits : 0 + 1232 ≤ mistaggedFile.length := by
    simp only [mistaggedFile, List.length_append, List.length_replicate,
      LittleEndian.length_encode]
    decide
  obtain ⟨s', hread⟩ := (@contextRead_some_iff (.ofImage mistaggedFile) rfl ⟨1232, 0⟩ _).mpr
    (Or.inl ⟨rfl, hfits, rfl⟩)
  have htag := (htagged _ s' hread).tag
  have hflags := amd64Context_contextFlags hfits
  rw [show (InputStream.ofImage mistaggedFile).image = mistaggedFile from rfl, hflags] at htag
  exact absurd htag (by decide)

end DwarfExpr
