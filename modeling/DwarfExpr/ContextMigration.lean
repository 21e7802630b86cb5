import DwarfExpr.MinidumpContexts

/-!
# Old ARM64 contexts

`MinidumpContext::Read` reads the flags of an old ARM64 record on their own and the rest of
the record into a second structure, whose flags stay zero. `ConvertOldARM64Context` looks for
the flags in that structure. It copies all registers, but finds none of the flags.
-/

namespace DwarfExpr

open InputStream (slice)

/-- `MD_CONTEXT_ARM64_CONTROL`. -/
def mdContextARM64Control : ℕ := 0x00400001

/-- `MD_CONTEXT_ARM64_INTEGER`. -/
def mdContextARM64Integer : ℕ := 0x00400002

/-- `MD_CONTEXT_ARM64_FLOATING_POINT`. -/
def mdContextARM64FloatingPoint : ℕ := 0x00400004

/-- Bit 1 of the old flags, which `MD_CONTEXT_ARM64_INTEGER_OLD` has besides the CPU type. -/
def oldIntegerBit : ℕ := 1

/-- Bit 2 of the old flags, which `MD_CONTEXT_ARM64_FLOATING_POINT_OLD` has besides the CPU
type. -/
def oldFloatingPointBit : ℕ := 2

/-- The flags have all bits of a mask. -/
def HasFlags (contextFlags mask : ℕ) : Prop := contextFlags &&& mask = mask

instance (contextFlags mask : ℕ) : Decidable (HasFlags contextFlags mask) :=
  inferInstanceAs (Decidable (_ = _))

/-- The new context has the registers that the old record at an offset of the file has, and no
debug registers. -/
structure SameRegisters (image : List UInt8) (rva : ℕ) (context : MDRawContextARM64) : Prop where
  iregs : ∀ i < 33, context.word (8 + 8 * i) 8 = storedField image rva ⟨8 + 8 * i, 8⟩
  cpsr : context.word 4 4 = storedField image rva ⟨272, 4⟩
  fpcr : context.word 784 4 = storedField image rva ⟨280, 4⟩
  fpsr : context.word 788 4 = storedField image rva ⟨276, 4⟩
  regs : ∀ i < 32, context.word (272 + 16 * i) 16 = storedField image rva ⟨284 + 16 * i, 16⟩
  debug : context.part 792 120 = List.replicate 120 0

/-- The new context is marked as having the groups of registers that the old record is marked
as having. -/
structure SameGroups (oldFlags newFlags : ℕ) : Prop where
  integer : oldFlags.testBit oldIntegerBit = true →
    HasFlags newFlags mdContextARM64Integer ∧ HasFlags newFlags mdContextARM64Control
  floatingPoint : oldFlags.testBit oldFloatingPointBit = true →
    HasFlags newFlags mdContextARM64FloatingPoint

/-- The record that `Read` converts: its flags are zero, the rest is from the file. -/
def oldRecordRead (image : List UInt8) (rva : ℕ) : MDRawContextARM64Old :=
  (RawObject.zero 796).store 8 (slice image (rva + 8) (796 - 8))

/-- The fields behind the flags are those of the file. -/
theorem oldRecordRead_part {image : List UInt8} {rva off width : ℕ}
    (hfits : rva + 796 ≤ image.length) (hoff : 8 ≤ off) (hend : off + width ≤ 796) :
    (oldRecordRead image rva).part off width = slice image (rva + off) width := by
  obtain ⟨k, rfl⟩ : ∃ k, off = 8 + k := ⟨off - 8, by omega⟩
  have hlength : (slice image (rva + 8) (796 - 8)).length = 796 - 8 :=
    InputStream.length_slice (by omega)
  rw [oldRecordRead, RawObject.part_store_inside (by omega) (by omega), ← Nat.add_assoc]
  exact InputStream.slice_slice (by omega)

/-- The flags are not. -/
theorem oldRecordRead_flags (image : List UInt8) (rva : ℕ) :
    (oldRecordRead image rva).word 0 8 = 0 := by
  rw [oldRecordRead, RawObject.word, RawObject.part_store_before (by decide)]
  rfl

/-- The fields that a converted record takes over, each at the place where it stands in the new
structure. -/
theorem convertOldARM64Context_parts (old : MDRawContextARM64Old) :
    (convertOldARM64Context old).part 4 4 = old.part 272 4 ∧
      (∀ k width, k + width ≤ 512 →
        (convertOldARM64Context old).part (272 + k) width = old.part (284 + k) width) ∧
      (convertOldARM64Context old).part 784 4 = old.part 280 4 ∧
      (convertOldARM64Context old).part 788 4 = old.part 276 4 ∧
      (convertOldARM64Context old).part 792 120 = List.replicate 120 0 := by
  have hflags := LittleEndian.length_encode 4 (convertOldARM64Flags (old.word 0 8))
  have hcpsr : (old.part 272 4).length = 4 := RawObject.length_part (by decide)
  have hiregs : (old.part 8 264).length = 264 := RawObject.length_part (by decide)
  have hregs : (old.part 284 512).length = 512 := RawObject.length_part (by decide)
  have hfpcr : (old.part 280 4).length = 4 := RawObject.length_part (by decide)
  have hfpsr : (old.part 276 4).length = 4 := RawObject.length_part (by decide)
  unfold convertOldARM64Context
  refine ⟨?_, fun k width hk => ?_, ?_, ?_, ?_⟩
  · rw [RawObject.part_store_before (by omega), RawObject.part_store_before (by omega),
      RawObject.part_store_before (by omega), RawObject.part_store_before (by omega),
      RawObject.part_store_self (by omega) hcpsr]
  · rw [RawObject.part_store_before (by omega), RawObject.part_store_before (by omega),
      RawObject.part_store_inside (by omega) (by omega)]
    exact InputStream.slice_slice hk
  · rw [RawObject.part_store_before (by omega), RawObject.part_store_self (by omega) hfpcr]
  · rw [RawObject.part_store_self (by omega) hfpsr]
  · rw [RawObject.part_store_behind (by omega), RawObject.part_store_behind (by omega),
      RawObject.part_store_behind (by omega), RawObject.part_store_behind (by omega),
      RawObject.part_store_behind (by omega), RawObject.part_store_behind (by omega)]
    simp only [RawObject.part, RawObject.zero, List.drop_replicate, List.take_replicate,
      show min 120 (912 - 792) = 120 from rfl]

/-- The registers of an old record arrive in the new context. -/
theorem sameRegisters_of_old {image : List UInt8} {rva : ℕ} (hfits : rva + 796 ≤ image.length) :
    SameRegisters image rva (convertOldARM64Context (oldRecordRead image rva)) := by
  obtain ⟨hcpsr, hregs, hfpcr, hfpsr, hdebug⟩ :=
    convertOldARM64Context_parts (oldRecordRead image rva)
  have hold {off width : ℕ} (hoff : 8 ≤ off) (hend : off + width ≤ 796) :=
    oldRecordRead_part hfits hoff hend
  refine ⟨fun i hi => ?_, ?_, ?_, ?_, fun i hi => ?_, hdebug⟩
  · rw [RawObject.word, convertOldARM64Context_part _ (by omega) (by omega),
      hold (by omega) (by omega), storedField]
  · rw [RawObject.word, hcpsr, hold (by decide) (by decide), storedField]
  · rw [RawObject.word, hfpcr, hold (by decide) (by decide), storedField]
  · rw [RawObject.word, hfpsr, hold (by decide) (by decide), storedField]
  · rw [RawObject.word, hregs _ _ (by omega), hold (by omega) (by omega), storedField]

/-- None of the old flags arrives there. -/
theorem arm64OldContext_contextFlags (image : List UInt8) (rva : ℕ) :
    (arm64OldContext image rva).contextFlags = 0x00400000 := by
  have hflags := oldRecordRead_flags image rva
  rw [oldRecordRead] at hflags
  simp only [arm64OldContext, convertOldARM64Context_flags, hflags]
  rfl

/-- A context read from an old record keeps its meaning: it has the same registers and is
marked with the same groups. -/
def KeepsMeaning (image : List UInt8) (rva : ℕ) (c : MinidumpContext) : Prop :=
  ∃ context, c.context = .arm64 context ∧ c.contextFlags = context.word 0 4 ∧
    SameRegisters image rva context ∧ SameGroups (storedField image rva ⟨0, 8⟩) c.contextFlags

/-- A context read from an old ARM64 record has all its registers, and keeps the meaning of the
record exactly if the record is marked neither with the integer nor with the floating-point
registers. -/
theorem contextRead_keepsMeaning_iff {s s' : InputStream} {loc : MDLocationDescriptor}
    {c : MinidumpContext} (hrecord : RecordAt .arm64Old s.image loc)
    (hread : MinidumpContext.read loc s = some (some c, s')) :
    KeepsMeaning s.image loc.rva c ↔
      (storedField s.image loc.rva ⟨0, 8⟩).testBit oldIntegerBit = false ∧
        (storedField s.image loc.rva ⟨0, 8⟩).testBit oldFloatingPointBit = false := by
  have hs : s.failbit = false := by
    rw [← Bool.not_eq_true]
    intro hfailed
    obtain ⟨t, hnothing⟩ := contextRead_of_failed hfailed loc
    rw [hnothing] at hread
    cases hread
  have hc : c = arm64OldContext s.image loc.rva := by
    rcases (contextRead_some_iff hs loc c).mp ⟨s', hread⟩ with ⟨hsize, -⟩ | ⟨-, -, -, hc⟩
    · rw [hrecord.size_eq] at hsize
      cases hsize
    · exact hc
  subst hc
  constructor
  · rintro ⟨-, -, -, -, hgroups⟩
    rw [arm64OldContext_contextFlags] at hgroups
    constructor
    · rw [← Bool.not_eq_true]
      intro hbit
      exact absurd (hgroups.integer hbit).1 (by decide)
    · rw [← Bool.not_eq_true]
      intro hbit
      exact absurd (hgroups.floatingPoint hbit) (by decide)
  · rintro ⟨hinteger, hfloat⟩
    have hcontext : arm64OldContext s.image loc.rva =
        ⟨.arm64 (convertOldARM64Context (oldRecordRead s.image loc.rva)),
          (convertOldARM64Context (oldRecordRead s.image loc.rva)).word 0 4⟩ := rfl
    have hregs := sameRegisters_of_old hrecord.inside
    rw [hcontext]
    generalize convertOldARM64Context (oldRecordRead s.image loc.rva) = context at hregs ⊢
    refine ⟨context, rfl, rfl, hregs, fun hbit => ?_, fun hbit => ?_⟩
    · rw [hinteger] at hbit
      cases hbit
    · rw [hfloat] at hbit
      cases hbit

/-- A record with different values in its registers that is marked with no group keeps its
meaning. -/
theorem contextRead_keepsMeaning_iff_unmarked :
    ∃ c s', MinidumpContext.read ⟨796, 0⟩ (.ofImage (recordFile .arm64Old)) =
        some (some c, s') ∧
      KeepsMeaning (recordFile .arm64Old) 0 c := by
  have hrecord := recordFile_recordAt .arm64Old
  obtain ⟨s', hread⟩ := (@contextRead_some_iff (.ofImage (recordFile .arm64Old)) rfl ⟨796, 0⟩ _).mpr
    (Or.inr ⟨rfl, hrecord.inside, hrecord.names_cpu, rfl⟩)
  exact ⟨_, s', hread, (contextRead_keepsMeaning_iff hrecord hread).mpr ⟨rfl, rfl⟩⟩

/-- A file with an old record of zero registers that is marked with both groups. -/
def markedOldFile : List UInt8 :=
  LittleEndian.encode 8 (mdContextARM64Old ||| 6) ++ List.replicate 788 0

/-- The record is read into a context that is marked with none. -/
theorem markedOldFile_losesMeaning :
    RecordAt .arm64Old markedOldFile ⟨796, 0⟩ ∧
      ∃ c s', MinidumpContext.read ⟨796, 0⟩ (.ofImage markedOldFile) = some (some c, s') ∧
        ¬KeepsMeaning markedOldFile 0 c := by
  have hlength : markedOldFile.length = 796 := by
    simp only [markedOldFile, List.length_append, List.length_replicate,
      LittleEndian.length_encode]
  have hrecord : RecordAt .arm64Old markedOldFile ⟨796, 0⟩ :=
    ⟨rfl, by rw [hlength]; decide, rfl⟩
  obtain ⟨s', hread⟩ := (@contextRead_some_iff (.ofImage markedOldFile) rfl ⟨796, 0⟩ _).mpr
    (Or.inr ⟨rfl, hrecord.inside, hrecord.names_cpu, rfl⟩)
  refine ⟨hrecord, _, s', hread, ?_⟩
  rintro ⟨-, -, -, -, hgroups⟩
  have hinteger := (hgroups.integer rfl).1
  rw [show (InputStream.ofImage markedOldFile).image = markedOldFile from rfl,
    arm64OldContext_contextFlags] at hinteger
  exact absurd hinteger (by decide)

end DwarfExpr
