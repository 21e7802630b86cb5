import DwarfExpr.SearcherUnits

/-!
# The range list of a unit

The addresses of a range record count from a base: that of the last address selection in
front of it or, without one, the low pc of the unit. `matchCUDie` adds the section offset
of the unit's range lists to every record instead.
-/

namespace DwarfExpr

/-- A range list as `dwarf_get_ranges_b` hands it over: range entries and address
selections, and then the end marker. -/
structure RawRangeList where
  items : List DwarfRanges
  items_type : ∀ r ∈ items, r.dwrType = .entry ∨ r.dwrType = .addressSelection

/-- The records of the list, with the end marker. -/
def RawRangeList.records (list : RawRangeList) : List DwarfRanges :=
  list.items ++ [⟨.endOfList, 0, 0⟩]

/-- The range entries with their bases, from a base on. -/
def basedEntries : DwarfAddr → List DwarfRanges → List (DwarfAddr × DwarfRanges)
  | _, [] => []
  | base, r :: rest =>
    if r.dwrType = .addressSelection then basedEntries r.dwrAddr2 rest
    else (base, r) :: basedEntries base rest

/-- The low pc of a unit, 0 if it has none. -/
def DwarfDie.lowPcOrZero (die : DwarfDie) : DwarfAddr :=
  match die.lowpc with
  | .ok low => low
  | _ => 0

/-- The range entries of a unit's range list with their bases. -/
def RawRangeList.based (list : RawRangeList) (die : DwarfDie) : List (DwarfAddr × DwarfRanges) :=
  basedEntries die.lowPcOrZero list.items

/-- The range entry contains the pc, counted from its base. -/
def InBasedEntry (pc : DwarfAddr) (e : DwarfAddr × DwarfRanges) : Prop :=
  e.2.dwrAddr1.toNat + e.1.toNat ≤ pc.toNat ∧ pc.toNat < e.2.dwrAddr2.toNat + e.1.toNat

/-- The test of `matchCUDie` takes the pc to lie in the range entry. -/
def MatchedEntry (die : DwarfDie) (pc : DwarfAddr) (r : DwarfRanges) : Prop :=
  r.dwrAddr1 + (getRnglistsBase die).2 ≤ pc ∧ pc < r.dwrAddr2 + (getRnglistsBase die).2

/-- The pc lies in one of the ranges of the unit. -/
def RawRangeList.Contains (list : RawRangeList) (die : DwarfDie) (pc : DwarfAddr) : Prop :=
  ∃ e ∈ list.based die, InBasedEntry pc e

/-- Every range record but the selections is one of the entries. Induction on the list. -/
theorem exists_basedEntries_iff {p : DwarfRanges → Prop} {base : DwarfAddr}
    {items : List DwarfRanges} :
    (∃ e ∈ basedEntries base items, p e.2) ↔
      ∃ r ∈ items, r.dwrType ≠ .addressSelection ∧ p r := by
  induction items generalizing base with
  | nil => simp [basedEntries]
  | cons r rest ih =>
    unfold basedEntries
    split
    case isTrue hselects => simp [ih, hselects]
    case isFalse hentry => simp [ih, hentry]

/-- The loop of `matchCUDie` accepts the unit exactly if it takes the pc to lie in one of
the entries. -/
theorem matchRanges_records_iff (list : RawRangeList) (die : DwarfDie) (pc : DwarfAddr) :
    matchRanges pc (getRnglistsBase die).2 list.records (getRnglistsBase die).1 = .inThisCu ↔
      ∃ e ∈ list.based die, MatchedEntry die pc e.2 := by
  have hdoc : ∀ r ∈ list.records, r.dwrType ≠ .other := by
    intro r hr
    rcases List.mem_append.mp hr with hitem | hend
    · rcases list.items_type r hitem with htype | htype <;> simp [htype]
    · simp [List.mem_singleton.mp hend]
  have hres : (getRnglistsBase die).1 ≠ .inThisCu := by
    rcases getRnglistsBase_res die with h | h | h <;> simp [h]
  have hcovers : ∀ r ∈ list.items, (DwarfRanges.covers (getRnglistsBase die).2 pc r = true ↔
      r.dwrType ≠ .addressSelection ∧ MatchedEntry die pc r) := by
    intro r hr
    rcases list.items_type r hr with htype | htype <;>
      simp [DwarfRanges.covers, MatchedEntry, htype, BitVec.not_lt, BitVec.not_le]
  have hend : DwarfRanges.covers (getRnglistsBase die).2 pc ⟨.endOfList, 0, 0⟩ = false := rfl
  have hany : list.records.any (DwarfRanges.covers (getRnglistsBase die).2 pc) = true ↔
      ∃ e ∈ list.based die, MatchedEntry die pc e.2 := by
    rw [RawRangeList.based, exists_basedEntries_iff, RawRangeList.records, List.any_append,
      List.any_cons, hend, List.any_nil, Bool.or_false, Bool.or_false, List.any_eq_true]
    constructor
    · rintro ⟨r, hr, hmatch⟩
      exact ⟨r, hr, (hcovers r hr).mp hmatch⟩
    · rintro ⟨r, hr, hmatch⟩
      exact ⟨r, hr, (hcovers r hr).mpr hmatch⟩
  rw [matchRanges_of_documented hdoc, ← hany]
  split
  case isTrue hmatched => simp [hmatched]
  case isFalse hmatched => simp [hmatched, hres]

/-- `matchCUDie` accepts a unit with a range list exactly if it takes the pc to lie in one
of the entries. -/
theorem matchCUDie_inThisCu_iff {ctx : DwarfCUContext} {die : DwarfDie} {offset : DwarfOff}
    {list : RawRangeList} (hranges : die.ranges = .ok ⟨.ok offset, .ok list.records⟩) :
    matchCUDie ctx die = .inThisCu ↔
      ∃ e ∈ list.based die, MatchedEntry die ctx.targetPc e.2 := by
  rw [matchCUDie_eq_of_ranges, hranges]
  simp only [Dlv.res, ne_eq, not_true_eq_false, if_false]
  exact matchRanges_records_iff list die ctx.targetPc

/-- If the base of each entry is the ranges base of the unit and no end of a range wraps
around, the unit is accepted at the addresses of its ranges. -/
theorem matchCUDie_of_bases {die : DwarfDie} {offset : DwarfOff} {list : RawRangeList}
    (hranges : die.ranges = .ok ⟨.ok offset, .ok list.records⟩)
    (hbases : ∀ e ∈ list.based die, e.1 = (getRnglistsBase die).2 ∧
      e.2.dwrAddr1.toNat + e.1.toNat < 2 ^ 64 ∧ e.2.dwrAddr2.toNat + e.1.toNat < 2 ^ 64)
    (ctx : DwarfCUContext) :
    matchCUDie ctx die = .inThisCu ↔ list.Contains die ctx.targetPc := by
  rw [matchCUDie_inThisCu_iff hranges]
  refine exists_congr fun e => and_congr_right fun he => ?_
  obtain ⟨hbase, hlow, hhigh⟩ := hbases e he
  rw [MatchedEntry, ← hbase, BitVec.le_def, BitVec.lt_def, BitVec.toNat_add_of_lt hlow,
    BitVec.toNat_add_of_lt hhigh]
  rfl

/-- `matchCUDie` accepts a unit with a range list exactly at the addresses of its ranges,
if each entry is taken to contain the pc exactly when it does, or if the pc is taken to lie
in some entry and lies in some entry. -/
theorem matchCUDie_ranges_iff {ctx : DwarfCUContext} {die : DwarfDie} {offset : DwarfOff}
    (list : RawRangeList) (hranges : die.ranges = .ok ⟨.ok offset, .ok list.records⟩) :
    (matchCUDie ctx die = .inThisCu ↔ list.Contains die ctx.targetPc) ↔
      (∀ e ∈ list.based die, MatchedEntry die ctx.targetPc e.2 ↔ InBasedEntry ctx.targetPc e) ∨
        (∃ e ∈ list.based die, MatchedEntry die ctx.targetPc e.2) ∧
          ∃ e ∈ list.based die, InBasedEntry ctx.targetPc e := by
  rw [matchCUDie_inThisCu_iff hranges, RawRangeList.Contains]
  constructor
  · intro hexact
    by_cases hcontains : ∃ e ∈ list.based die, InBasedEntry ctx.targetPc e
    · exact Or.inr ⟨hexact.mpr hcontains, hcontains⟩
    · refine Or.inl fun e he => ⟨fun hmatched => ?_, fun hin => absurd ⟨e, he, hin⟩ hcontains⟩
      exact absurd (hexact.mp ⟨e, he, hmatched⟩) hcontains
  · rintro (hsame | ⟨hmatched, hin⟩)
    · exact exists_congr fun e => and_congr_right fun he => hsame e he
    · exact iff_of_true hmatched hin

/-- The range list `[0x10, 0x20)` from the low pc on. -/
def lowPcRanges : RawRangeList := ⟨[⟨.entry, 0x10, 0x20⟩], by simp⟩

/-- A unit at `0x400000` with this range list. -/
def lowPcUnit : DwarfDie :=
  { plainDie 11 .compileUnit none with
    lowpc := .ok 0x400000
    ranges := .ok ⟨.ok 0, .ok lowPcRanges.records⟩ }

/-- The unit contains `0x400014` and is not accepted for it. -/
theorem matchCUDie_misses_lowPc :
    ¬(matchCUDie (.init 0x400014) lowPcUnit = .inThisCu ↔
      lowPcRanges.Contains lowPcUnit 0x400014) := by
  intro hexact
  have hcontains : lowPcRanges.Contains lowPcUnit 0x400014 :=
    ⟨(0x400000, ⟨.entry, 0x10, 0x20⟩), List.mem_singleton_self _, by decide, by decide⟩
  have haccepted := hexact.mpr hcontains
  revert haccepted
  decide

/-- The characterization at that unit. -/
theorem matchCUDie_ranges_iff_lowPcUnit :
    (matchCUDie (.init 0x400014) lowPcUnit = .inThisCu ↔
        lowPcRanges.Contains lowPcUnit 0x400014) ↔
      (∀ e ∈ lowPcRanges.based lowPcUnit,
          MatchedEntry lowPcUnit 0x400014 e.2 ↔ InBasedEntry 0x400014 e) ∨
        (∃ e ∈ lowPcRanges.based lowPcUnit, MatchedEntry lowPcUnit 0x400014 e.2) ∧
          ∃ e ∈ lowPcRanges.based lowPcUnit, InBasedEntry 0x400014 e :=
  @matchCUDie_ranges_iff (.init 0x400014) lowPcUnit 0 lowPcRanges rfl

end DwarfExpr
