import DwarfExpr.Lib.RequestLog
import DwarfExpr.SearcherTree

/-!
# Searching the units of a `Dwarf_Debug`

Two facts about `searchFunction` as a whole. Its answer depends on the earlier
calls through the unit cursor that libdwarf keeps inside the `Dwarf_Debug`, since
a successful search returns without running the cursor to the end. And it enters
a unit only through `DW_AT_ranges`: the verdict of `matchCUDie` on a contiguous
pc range is overwritten before it is used.
-/

namespace DwarfExpr

/-- What a single unit contributes to the loop of `searchFunction`. -/
inductive UnitVerdict where
  /-- The unit contains the function: the search succeeds. -/
  | hit (found : FoundFunction)
  /-- An error in the unit: the search fails at once. -/
  | stop
  /-- The search goes on with the next unit. -/
  | pass
  deriving DecidableEq, Repr

/-- The verdict on a unit for a pc. -/
def CompileUnit.verdict (pc : DwarfAddr) (u : CompileUnit) : UnitVerdict :=
  match searchInDieTree (.init pc) u.tree with
  | (.foundSubprog, ctx) => .hit ⟨u.cuDie, ctx.funcDie⟩
  | (.inThisCu, _) => .stop
  | (.error, _) => .stop
  | (_, _) => .pass

/-- The unit ends the search for the pc, with success or failure. -/
def CompileUnit.ends (pc : DwarfAddr) (u : CompileUnit) : Bool := u.verdict pc ≠ .pass

/-- The function delivered by a verdict. -/
def UnitVerdict.found : UnitVerdict → Option FoundFunction
  | .hit found => some found
  | _ => none

/-- The function found in a unit is reported together with that unit's DIE. -/
theorem CompileUnit.cuDie_of_found {pc : DwarfAddr} {u : CompileUnit} {f : FoundFunction}
    (h : (u.verdict pc).found = some f) : f.cuDie = u.cuDie := by
  unfold CompileUnit.verdict at h
  split at h <;> simp only [UnitVerdict.found, Option.some.injEq, reduceCtorEq] at h
  rw [← h]

/-- The search answers with the verdict of the first unit that ends it. -/
theorem searchUnits_fst (pc : DwarfAddr) (units : List CompileUnit) (cursor : CuCursor) :
    (searchUnits pc units cursor).1 =
      (units.find? (CompileUnit.ends pc)).bind fun u => (u.verdict pc).found := by
  induction units generalizing cursor with
  | nil => rfl
  | cons u rest ih =>
    unfold searchUnits
    have hverdict : u.verdict pc =
        match searchInDieTree (.init pc) u.tree with
        | (.foundSubprog, ctx) => .hit ⟨u.cuDie, ctx.funcDie⟩
        | (.inThisCu, _) => .stop
        | (.error, _) => .stop
        | (_, _) => .pass := rfl
    cases hres : searchInDieTree (.init pc) u.tree with
    | mk res ctx =>
      rw [hres] at hverdict
      cases res <;> simp_all [CompileUnit.ends, UnitVerdict.found]

/-- The units of a `Dwarf_Debug`. Each unit DIE has its own section offset. -/
structure DwarfDebug where
  units : List CompileUnit
  distinct : (units.map fun u => u.cuDie.offset).Nodup

/-- One call of `searchFunction` as a request to the `Dwarf_Debug`, whose state is
the unit cursor. -/
def DwarfDebug.serve (dbg : DwarfDebug) (cursor : CuCursor) (pc : DwarfAddr) :
    Option FoundFunction × Option CuCursor :=
  let (answer, cursor') := searchFunction dbg.units cursor pc
  (answer, some cursor')

/-- None of the units that the cursor has passed would end the search for this pc;
or the first of them to end it does so with an error, and so does the first of
the remaining units, if any. -/
def DwarfDebug.PassedUnitsSilent (dbg : DwarfDebug) (cursor : CuCursor) (pc : DwarfAddr) : Prop :=
  match (dbg.units.take cursor).find? (CompileUnit.ends pc) with
  | none => True
  | some u => u.verdict pc = .stop ∧
    ∀ v ∈ (dbg.units.drop cursor).find? (CompileUnit.ends pc), v.verdict pc = .stop

/-- A unit before the cursor and one after it have different unit DIEs. -/
theorem DwarfDebug.cuDie_ne_of_split (dbg : DwarfDebug) {cursor : ℕ} {u v : CompileUnit}
    (hu : u ∈ dbg.units.take cursor) (hv : v ∈ dbg.units.drop cursor) : u.cuDie ≠ v.cuDie := by
  intro heq
  have hnodup := dbg.distinct
  rw [← List.take_append_drop cursor dbg.units, List.map_append, List.nodup_append] at hnodup
  exact hnodup.2.2 _ (List.mem_map_of_mem hu) _ (List.mem_map_of_mem hv) (by rw [heq])

/-- One call answers as on a fresh handle exactly when the passed units are silent. -/
theorem DwarfDebug.serve_eq_fresh_iff (dbg : DwarfDebug) (cursor : CuCursor) (pc : DwarfAddr) :
    (dbg.serve cursor pc).1 = (dbg.serve 0 pc).1 ↔ dbg.PassedUnitsSilent cursor pc := by
  have hsplit : dbg.units.find? (CompileUnit.ends pc) =
      ((dbg.units.take cursor).find? (CompileUnit.ends pc)).or
        ((dbg.units.drop cursor).find? (CompileUnit.ends pc)) := by
    rw [← List.find?_append, List.take_append_drop]
  simp only [DwarfDebug.serve, searchFunction, searchUnits_fst, List.drop_zero, hsplit,
    DwarfDebug.PassedUnitsSilent]
  cases hpast : (dbg.units.take cursor).find? (CompileUnit.ends pc) with
  | none => simp
  | some u =>
    have humem := List.mem_of_find?_eq_some hpast
    have huends : u.verdict pc ≠ .pass := by
      simpa [CompileUnit.ends] using List.find?_some hpast
    simp only [Option.some_or, Option.bind_some]
    cases hrest : (dbg.units.drop cursor).find? (CompileUnit.ends pc) with
    | none =>
      cases hverdict : u.verdict pc with
      | hit f => simp [UnitVerdict.found]
      | stop => simp [UnitVerdict.found]
      | pass => exact absurd hverdict huends
    | some v =>
      have hvmem := List.mem_of_find?_eq_some hrest
      have hvends : v.verdict pc ≠ .pass := by
        simpa [CompileUnit.ends] using List.find?_some hrest
      have hne := dbg.cuDie_ne_of_split humem hvmem
      simp only [Option.bind_some, Option.mem_some_iff, forall_eq']
      cases hu : u.verdict pc with
      | hit f =>
        -- A hit in a passed unit cannot be repeated by a later unit.
        have hfu : f.cuDie = u.cuDie := CompileUnit.cuDie_of_found (by rw [hu]; rfl)
        simp only [reduceCtorEq, false_and, iff_false]
        intro heq
        have hfv : f.cuDie = v.cuDie := CompileUnit.cuDie_of_found (heq.trans rfl)
        exact hne (hfu.symm.trans hfv)
      | stop =>
        cases hv : v.verdict pc with
        | hit g => simp [UnitVerdict.found]
        | stop => simp [UnitVerdict.found]
        | pass => exact absurd hv hvends
      | pass => exact absurd hu huends

/-- A sequence of searches on one handle is independent of its history exactly when
before every call the units already passed are silent for its pc. -/
theorem searchFunction_historyIndependent_iff (dbg : DwarfDebug) (pcs : List DwarfAddr) :
    RequestLog.HistoryIndependent dbg.serve (fun _ => 0) 0 pcs ↔
      RequestLog.Along dbg.serve dbg.PassedUnitsSilent 0 pcs := by
  have hiff (cursor : CuCursor) (pc : DwarfAddr) (_ : True) :=
    dbg.serve_eq_fresh_iff cursor pc
  exact RequestLog.Along.congr_of_invariant hiff (fun _ _ _ _ _ => trivial) trivial

/-- A unit over the range list `[0x1000, 0x2000)` with the function `[0x1000, 0x1010)`. -/
def unitWithFunction : CompileUnit where
  cuDie := { plainDie 11 .compileUnit none with
    ranges := .ok ⟨.ok 0, .ok [⟨.entry, 0x1000, 0x2000⟩, ⟨.endOfList, 0, 0⟩]⟩ }
  children := .node (plainDie 42 .subprogram (some (0x1000, 0x10, .constant))) .absent .absent

/-- Debug information that consists of that unit alone. -/
def debugWithFunction : DwarfDebug := ⟨[unitWithFunction], by simp⟩

/-- The second of two equal searches fails, because the first one left the cursor
behind the only unit. -/
theorem searchFunction_not_historyIndependent :
    ¬RequestLog.HistoryIndependent debugWithFunction.serve (fun _ => 0) 0 [0x1004, 0x1004] := by
  intro h
  have hsecond := (h.2 1 rfl).1
  revert hsecond
  decide

/-- libdwarf reports no error about the range attributes of a unit DIE, and every
range record has a documented type. -/
structure DwarfDie.ErrorFree (die : DwarfDie) : Prop where
  ranges : die.ranges ≠ .error
  formref : ∀ attr, die.ranges = .ok attr → attr.globalFormref ≠ .error
  records : ∀ attr list, die.ranges = .ok attr → attr.getRanges = .ok list →
    ∀ record ∈ list, record.dwrType ≠ .other
  base : (getRnglistsBase die).1 ≠ .error

/-- A range record covers the pc, in the 64-bit arithmetic of `matchCUDie`. -/
def DwarfRanges.covers (cuRangesBase : DwarfOff) (pc : DwarfAddr) (record : DwarfRanges) : Bool :=
  record.dwrType = .entry &&
    !(pc < record.dwrAddr1 + cuRangesBase || record.dwrAddr2 + cuRangesBase ≤ pc)

/-- The attributes that let `matchCUDie` enter a unit: a `DW_AT_ranges` together with
a ranges base, or with a record that covers the pc. -/
def DwarfDie.isEntered (pc : DwarfAddr) (die : DwarfDie) : Bool :=
  match die.ranges with
  | .ok attr =>
    attr.globalFormref.res = .ok &&
      ((getRnglistsBase die).1 = .ok ||
        match attr.getRanges with
        | .ok list => list.any (DwarfRanges.covers (getRnglistsBase die).2 pc)
        | _ => false)
  | _ => false

/-- On documented records the loop either meets one that covers the pc or leaves the
result as it was. -/
theorem matchRanges_of_documented {pc : DwarfAddr} {base : DwarfOff} {list : List DwarfRanges}
    {res : SearchRes} (hdoc : ∀ record ∈ list, record.dwrType ≠ .other) :
    matchRanges pc base list res =
      if list.any (DwarfRanges.covers base pc) then .inThisCu else res := by
  induction list with
  | nil => rfl
  | cons record rest ih =>
    have hrest := ih fun r hr => hdoc r (List.mem_cons_of_mem _ hr)
    have hfirst := hdoc record List.mem_cons_self
    unfold matchRanges
    rw [List.any_cons, DwarfRanges.covers]
    cases htype : record.dwrType with
    | entry =>
      by_cases hout : (pc < record.dwrAddr1 + base || record.dwrAddr2 + base ≤ pc) = true
      · simp [hout, hrest]
      · simp [hout]
    | addressSelection => simpa using hrest
    | endOfList => simpa using hrest
    | other => exact absurd htype hfirst

/-- `getRnglistsBase` answers with one of the three codes of libdwarf. -/
theorem getRnglistsBase_res (die : DwarfDie) :
    (getRnglistsBase die).1 = .ok ∨ (getRnglistsBase die).1 = .noEntry ∨
      (getRnglistsBase die).1 = .error := by
  unfold getRnglistsBase
  rcases die.rnglistsBase with (_ | _ | _) | _ | _ <;>
    rcases die.gnuRangesBase with (_ | _ | _) | _ | _ <;> simp

/-- What `matchCUDie` returns depends on `DW_AT_ranges` alone: its verdict on the pc
range of the unit DIE is dead. -/
theorem matchCUDie_eq_of_ranges (ctx : DwarfCUContext) (die : DwarfDie) :
    matchCUDie ctx die =
      match die.ranges with
      | .ok attr =>
        if attr.globalFormref.res ≠ .ok then attr.globalFormref.res
        else
          match attr.getRanges with
          | .ok list =>
            matchRanges ctx.targetPc (getRnglistsBase die).2 list (getRnglistsBase die).1
          | _ => (getRnglistsBase die).1
      | attr => attr.res := by
  unfold matchCUDie
  generalize getRnglistsBase die = base
  rcases die.ranges with ⟨formref, getRanges⟩ | _ | _
  · cases formref <;> cases getRanges <;> cases getLowAndHighPc die <;> simp [Dlv.res]
  · cases getLowAndHighPc die <;> simp
  · cases getLowAndHighPc die <;> simp

/-- Without errors `matchCUDie` accepts exactly the units that can be entered, and
answers `DW_DLV_NO_ENTRY` for every other unit. -/
theorem matchCUDie_of_errorFree {ctx : DwarfCUContext} {die : DwarfDie} (hfree : die.ErrorFree) :
    if die.isEntered ctx.targetPc then
      matchCUDie ctx die = .inThisCu ∨ matchCUDie ctx die = .ok
    else matchCUDie ctx die = .noEntry := by
  have hbase : (getRnglistsBase die).1 = .ok ∨ (getRnglistsBase die).1 = .noEntry := by
    rcases getRnglistsBase_res die with h | h | h
    · exact Or.inl h
    · exact Or.inr h
    · exact absurd h hfree.base
  rw [matchCUDie_eq_of_ranges]
  unfold DwarfDie.isEntered
  cases hranges : die.ranges with
  | noEntry => simp [Dlv.res]
  | error => exact absurd hranges hfree.ranges
  | ok attr =>
    cases hformref : attr.globalFormref with
    | noEntry => simp [Dlv.res, hformref]
    | error => exact absurd hformref (hfree.formref attr hranges)
    | ok offset =>
      cases hlist : attr.getRanges with
      | ok list =>
        have hdoc := hfree.records attr list hranges hlist
        by_cases hcover : list.any (DwarfRanges.covers (getRnglistsBase die).2 ctx.targetPc)
        · simp [Dlv.res, hformref, hlist, matchRanges_of_documented hdoc, hcover]
        · rcases hbase with h | h <;>
            simp [Dlv.res, hformref, hlist, matchRanges_of_documented hdoc, hcover, h]
      | noEntry => rcases hbase with h | h <;> simp [Dlv.res, hformref, hlist, h]
      | error => rcases hbase with h | h <;> simp [Dlv.res, hformref, hlist, h]

/-- In an orderly unit without errors the verdict is that of its first exposed hit,
if the unit is entered at all. -/
theorem CompileUnit.Orderly.verdict_found {u : CompileUnit} (hu : u.Orderly)
    (hfree : u.cuDie.ErrorFree) (pc : DwarfAddr) :
    u.verdict pc =
      if u.cuDie.isEntered pc then
        match (u.children.exposed DwarfDie.isRangeless).find? (DwarfDie.isHit pc) with
        | some die => .hit ⟨u.cuDie, some die⟩
        | none => .pass
      else .pass := by
  have hmatch := @matchCUDie_of_errorFree (.init pc) _ hfree
  have hpc : (DwarfCUContext.init pc).targetPc = pc := rfl
  rw [hpc] at hmatch
  unfold CompileUnit.verdict
  by_cases henter : u.cuDie.isEntered pc = true
  · rw [if_pos henter] at hmatch ⊢
    have hfinds := hu.searchInDieTree_finds rfl hmatch
    rw [hpc] at hfinds
    generalize searchInDieTree (.init pc) u.tree = walk at hfinds ⊢
    obtain ⟨res, ctx⟩ := walk
    cases hfirst : (u.children.exposed DwarfDie.isRangeless).find? (DwarfDie.isHit pc) with
    | some die =>
      rw [hfirst] at hfinds
      obtain ⟨rfl, hfunc⟩ := hfinds
      show UnitVerdict.hit ⟨u.cuDie, ctx.funcDie⟩ = _
      rw [hfunc]
    | none =>
      rw [hfirst] at hfinds
      obtain ⟨rfl | rfl, _⟩ := hfinds <;> rfl
  · rw [if_neg henter] at hmatch ⊢
    have hroot := @CompileUnit.Orderly.searchInDie_root _ hu (.init pc) rfl
    simp [CompileUnit.tree, searchInDieTree, enterDie, hroot, hmatch]

/-- The unit is entered through `DW_AT_ranges`, and the walk through it can see a
function at the pc. -/
def CompileUnit.Reveals (pc : DwarfAddr) (u : CompileUnit) : Prop :=
  u.cuDie.isEntered pc = true ∧
    ∃ die ∈ u.children.exposed DwarfDie.isRangeless, die.IsFunctionAt pc ∧ die.EndFits

/-- A unit as the search may assume it: a tree as DWARF promises it, read without errors. -/
structure CompileUnit.Sound (u : CompileUnit) : Prop where
  orderly : u.Orderly
  errorFree : u.cuDie.ErrorFree

/-- In a sound unit no error ends the search. -/
theorem CompileUnit.Sound.verdict_ne_stop {u : CompileUnit} (hu : u.Sound) (pc : DwarfAddr) :
    u.verdict pc ≠ .stop := by
  rw [hu.orderly.verdict_found hu.errorFree]
  split
  · split <;> simp
  · simp

/-- A sound unit delivers a function exactly when it reveals one. -/
theorem CompileUnit.Sound.found_isSome_iff {u : CompileUnit} (hu : u.Sound) (pc : DwarfAddr) :
    (u.verdict pc).found.isSome = true ↔ u.Reveals pc := by
  rw [hu.orderly.verdict_found hu.errorFree, CompileUnit.Reveals]
  by_cases henter : u.cuDie.isEntered pc = true
  · simp only [henter, if_true, true_and]
    cases hfirst : (u.children.exposed DwarfDie.isRangeless).find? (DwarfDie.isHit pc) with
    | some die =>
      have hhit := (isHit_iff _ _).mp (List.find?_some hfirst)
      simp only [UnitVerdict.found, Option.isSome_some, true_iff]
      exact ⟨die, List.mem_of_find?_eq_some hfirst, ⟨hhit.1, hhit.2.1⟩, hhit.2.2⟩
    | none =>
      simp only [UnitVerdict.found, Option.isSome_none, Bool.false_eq_true, false_iff]
      rintro ⟨die, hmem, ⟨hfun, hcontains⟩, hend⟩
      have hno := List.find?_eq_none.mp hfirst die hmem
      exact hno ((isHit_iff _ _).mpr ⟨hfun, hcontains, hend⟩)
  · simp [henter, UnitVerdict.found]

/-- A search on a fresh handle succeeds exactly when some unit reveals a function. -/
theorem searchFunction_isSome_iff {units : List CompileUnit} (hunits : ∀ u ∈ units, u.Sound)
    (pc : DwarfAddr) :
    (searchFunction units 0 pc).1.isSome = true ↔ ∃ u ∈ units, u.Reveals pc := by
  have hends : ∀ u ∈ units, u.ends pc = true → (u.verdict pc).found.isSome = true := by
    intro u hu hend
    have hstop := (hunits u hu).verdict_ne_stop pc
    cases hverdict : u.verdict pc with
    | hit found => rfl
    | stop => exact absurd hverdict hstop
    | pass => simp [CompileUnit.ends, hverdict] at hend
  rw [searchFunction, List.drop_zero, searchUnits_fst]
  constructor
  · intro hsome
    cases hfirst : units.find? (CompileUnit.ends pc) with
    | none => simp [hfirst] at hsome
    | some u =>
      rw [hfirst] at hsome
      have hmem := List.mem_of_find?_eq_some hfirst
      exact ⟨u, hmem, ((hunits u hmem).found_isSome_iff pc).mp hsome⟩
  · rintro ⟨u, hmem, hreveals⟩
    have hfound := ((hunits u hmem).found_isSome_iff pc).mpr hreveals
    cases hfirst : units.find? (CompileUnit.ends pc) with
    | none =>
      have hpass := List.find?_eq_none.mp hfirst u hmem
      have hnone : u.verdict pc = .pass := by simpa [CompileUnit.ends] using hpass
      simp [hnone, UnitVerdict.found] at hfound
    | some v =>
      exact hends v (List.mem_of_find?_eq_some hfirst) (List.find?_some hfirst)

/-- A contiguous unit at the pc: its own range contains the pc, it has no
`DW_AT_ranges`, and its first child is a subprogram whose range contains the pc. -/
structure CompileUnit.ContiguousAt (pc : DwarfAddr) (u : CompileUnit) : Prop where
  contains : u.cuDie.Contains pc
  noRanges : u.cuDie.ranges = .noEntry
  firstChild : ∃ child below siblings, u.children = .node child below siblings ∧
    child.tag = .ok .subprogram ∧ child.Contains pc

/-- A search for a pc of a contiguous unit succeeds exactly when some other unit is
entered through its `DW_AT_ranges` and reveals a function at that pc. -/
theorem searchFunction_finds_contiguous_iff {pc : DwarfAddr} {before after : List CompileUnit}
    {u : CompileUnit} (hunits : ∀ v ∈ before ++ u :: after, v.Sound) (hu : u.ContiguousAt pc) :
    (searchFunction (before ++ u :: after) 0 pc).1.isSome = true ↔
      ∃ v ∈ before ++ after, v.Reveals pc := by
  have hclosed : ¬u.Reveals pc := by
    rintro ⟨henter, _⟩
    simp [DwarfDie.isEntered, hu.noRanges] at henter
  rw [searchFunction_isSome_iff hunits]
  constructor
  · rintro ⟨v, hmem, hreveals⟩
    rcases List.mem_append.mp hmem with hbefore | hrest
    · exact ⟨v, List.mem_append_left _ hbefore, hreveals⟩
    · rcases List.mem_cons.mp hrest with rfl | hafter
      · exact absurd hreveals hclosed
      · exact ⟨v, List.mem_append_right _ hafter, hreveals⟩
  · rintro ⟨v, hmem, hreveals⟩
    refine ⟨v, ?_, hreveals⟩
    rcases List.mem_append.mp hmem with hbefore | hafter
    · exact List.mem_append_left _ hbefore
    · exact List.mem_append_right _ (List.mem_cons_of_mem _ hafter)

/-- A unit over the contiguous range `[0x1000, 0x2000)` with the function
`[0x1000, 0x1010)`. -/
def contiguousUnit : CompileUnit where
  cuDie := plainDie 11 .compileUnit (some (0x1000, 0x1000, .constant))
  children := .node (plainDie 42 .subprogram (some (0x1000, 0x10, .constant))) .absent .absent

/-- The contiguous unit is sound. -/
theorem contiguousUnit_sound : contiguousUnit.Sound where
  orderly := {
    root_tag := ⟨.compileUnit, rfl, rfl⟩
    readable := by decide
    inner := by
      intro die hdie
      obtain rfl : die = plainDie 42 .subprogram (some (0x1000, 0x10, .constant)) := by
        simpa [contiguousUnit] using hdie
      exact ⟨.subprogram, rfl, rfl⟩ }
  errorFree := {
    ranges := by decide
    formref := fun _ h => by cases h
    records := fun _ _ h => by cases h
    base := by decide }

/-- The contiguous unit is one at pc `0x1004`. -/
theorem contiguousUnit_contiguousAt : contiguousUnit.ContiguousAt 0x1004 where
  contains := ⟨(0x1000, 0x2000), rfl, by decide, by decide⟩
  noRanges := rfl
  firstChild := ⟨_, _, _, rfl, rfl, (0x1000, 0x1010), rfl, by decide, by decide⟩

/-- The search does not find the function of a contiguous unit. -/
theorem searchFunction_skips_contiguousUnit :
    contiguousUnit.Sound ∧ contiguousUnit.ContiguousAt 0x1004 ∧
      (searchFunction [contiguousUnit] 0 0x1004).1.isSome = false :=
  ⟨contiguousUnit_sound, contiguousUnit_contiguousAt, by decide⟩

/-- The characterization at the contiguous unit alone. -/
theorem searchFunction_finds_contiguous_iff_contiguousUnit :
    (searchFunction [contiguousUnit] 0 0x1004).1.isSome = true ↔
      ∃ v ∈ ([] : List CompileUnit), v.Reveals 0x1004 :=
  @searchFunction_finds_contiguous_iff 0x1004 [] [] contiguousUnit
    (by simpa using contiguousUnit_sound) contiguousUnit_contiguousAt

end DwarfExpr
