import DwarfExpr.SearcherUnits

/-!
# What the function search returns

The walk examines a DIE before those below it. So the function DIE that a search returns
covers the pc itself, and no function DIE above it does: a concrete function wins over the
inlined calls in it.
-/

namespace DwarfExpr

/-- The pc lies in `low ≤ pc < high`, where a `DW_AT_high_pc` of constant class is an
offset from `low`. -/
def DwarfDie.Covers (die : DwarfDie) (pc : DwarfAddr) : Prop :=
  ∃ low hipc formclass, die.lowpc = .ok low ∧ die.highpc = .ok (hipc, formclass) ∧
    low ≤ pc ∧ pc < if formclass = .constant then low + hipc else hipc

/-- A hit is a function DIE that covers the pc. -/
theorem isHit_iff_covers (pc : DwarfAddr) (die : DwarfDie) :
    die.isHit pc = true ↔ die.isFunction = true ∧ die.Covers pc := by
  unfold DwarfDie.isHit DwarfDie.Covers getLowAndHighPc
  rw [Bool.and_eq_true]
  apply and_congr_right
  intro _
  cases die.lowpc with
  | noEntry | error => simp
  | ok low =>
    cases die.highpc with
    | noEntry | error => simp
    | ok high =>
      obtain ⟨hipc, formclass⟩ := high
      by_cases hclass : formclass = .constant
      · simp [hclass, BitVec.add_comm hipc low, BitVec.not_lt, BitVec.not_le]
      · simp [hclass, BitVec.not_lt, BitVec.not_le]

/-- The function DIE lies below the given DIEs of the unit, the unit DIE first, it covers
the pc, and no function DIE above it does. -/
structure CompileUnit.FunctionAt (u : CompileUnit) (pc : DwarfAddr) (ancestors : List DwarfDie)
    (die : DwarfDie) : Prop where
  isFunction : die.isFunction = true
  covers : die.Covers pc
  contains : die.Contains pc
  place : u.tree.PathTo (u.cuDie :: ancestors) die
  outermost : ∀ a ∈ u.cuDie :: ancestors, a.isFunction = true → ¬a.Covers pc

/-- The loop over the range records reports no function. -/
theorem matchRanges_ne_foundSubprog {pc : DwarfAddr} {base : DwarfOff} {list : List DwarfRanges}
    {res : SearchRes} (hres : res ≠ .foundSubprog) :
    matchRanges pc base list res ≠ .foundSubprog := by
  induction list generalizing res with
  | nil => exact hres
  | cons cur rest ih =>
    unfold matchRanges
    cases cur.dwrType with
    | entry =>
      dsimp only
      split
      · exact ih hres
      · decide
    | addressSelection => exact ih hres
    | endOfList => exact ih hres
    | other => exact ih (by decide)

/-- `matchCUDie` reports no function. -/
theorem matchCUDie_ne_foundSubprog (ctx : DwarfCUContext) (die : DwarfDie) :
    matchCUDie ctx die ≠ .foundSubprog := by
  have hres {α : Type} (answer : Dlv α) : answer.res ≠ .foundSubprog := by
    cases answer <;> simp [Dlv.res]
  have hbase : (getRnglistsBase die).1 ≠ .foundSubprog := by
    rcases getRnglistsBase_res die with h | h | h <;> simp [h]
  rw [matchCUDie_eq_of_ranges]
  split
  · split
    · exact hres _
    · split
      · exact matchRanges_ne_foundSubprog hbase
      · exact hbase
  · exact hres _

/-- A unit in which the walk finds a function has been accepted by `matchCUDie`. -/
theorem CompileUnit.Orderly.accepted_of_found {u : CompileUnit} (hu : u.Orderly)
    {ctx : DwarfCUContext} (hlevel : ctx.inLevel = 0)
    (hfound : (searchInDieTree ctx u.tree).1 = .foundSubprog) :
    matchCUDie ctx u.cuDie = .inThisCu ∨ matchCUDie ctx u.cuDie = .ok := by
  have hnot := matchCUDie_ne_foundSubprog ctx u.cuDie
  simp only [CompileUnit.tree, searchInDieTree, enterDie, hu.searchInDie_root hlevel] at hfound
  cases hres : matchCUDie ctx u.cuDie with
  | inThisCu => exact Or.inl rfl
  | ok => exact Or.inr rfl
  | foundSubprog => exact absurd hres hnot
  | noEntry | error | notThisCu =>
    rw [hres] at hfound
    cases hfound

/-- What the walk of a unit finds is a function there. -/
theorem CompileUnit.Orderly.functionAt_of_found {u : CompileUnit} (hu : u.Orderly)
    {pc : DwarfAddr} (hfound : (searchInDieTree (.init pc) u.tree).1 = .foundSubprog) :
    ∃ die ancestors, (searchInDieTree (.init pc) u.tree).2.funcDie = some die ∧
      u.FunctionAt pc ancestors die := by
  have hfinds := hu.searchInDieTree_finds rfl (hu.accepted_of_found rfl hfound)
  have hpc : (DwarfCUContext.init pc).targetPc = pc := rfl
  rw [hpc] at hfinds
  cases hfirst : (u.children.exposed DwarfDie.isRangeless).find? (DwarfDie.isHit pc) with
  | none =>
    rw [hfirst] at hfinds
    rcases hfinds.1 with hres | hres <;> rw [hres] at hfound <;> cases hfound
  | some die =>
    rw [hfirst] at hfinds
    have hhit := List.find?_some hfirst
    have hkept : u.children.beginsWith DwarfDie.isRangeless = false := by
      by_contra hhidden
      rw [SiblingForest.exposed_of_beginsWith (by simpa using hhidden)] at hfirst
      cases hfirst
    rw [SiblingForest.exposed_of_not_beginsWith hkept] at hfirst
    obtain ⟨ancestors, hpath, hfails⟩ := SiblingForest.exists_path_of_find? hfirst
    obtain ⟨hfunction, hcovers⟩ := (isHit_iff_covers pc die).mp hhit
    refine ⟨die, ancestors, hfinds.2, hfunction, hcovers, ((isHit_iff pc die).mp hhit).2.1,
      .inChildren hpath, ?_⟩
    intro a ha hafunction hacovers
    have hahit := (isHit_iff_covers pc a).mpr ⟨hafunction, hacovers⟩
    rcases List.mem_cons.mp ha with rfl | hinner
    · obtain ⟨tag, htag, hunit⟩ := hu.root_tag
      cases tag <;> simp_all [DwarfDie.isFunction, DwTag.isFunction, DwTag.isUnit]
    · rw [hfails a hinner] at hahit
      cases hahit

/-- Whenever the search returns true, with the unit cursor anywhere, it returns a unit DIE
and a function DIE below it that covers the pc, while no function DIE above that one does.
If no DIE of the unit is repeated, there is only one place where the function DIE stands. -/
theorem searchFunction_sound {units : List CompileUnit} (hunits : ∀ u ∈ units, u.Orderly)
    (cursor : CuCursor) (pc : DwarfAddr) {found : FoundFunction}
    (hfound : (searchFunction units cursor pc).1 = some found) :
    ∃ u ∈ units, ∃ die ancestors, found.cuDie = u.cuDie ∧ found.funcDie = some die ∧
      u.FunctionAt pc ancestors die ∧
      (u.tree.preorder.Nodup → ∀ path, u.tree.PathTo path die → path = u.cuDie :: ancestors) := by
  rw [searchFunction, searchUnits_fst] at hfound
  obtain ⟨u, hfirst, hverdict⟩ := Option.bind_eq_some_iff.mp hfound
  have hmem : u ∈ units := List.mem_of_mem_drop (List.mem_of_find?_eq_some hfirst)
  unfold CompileUnit.verdict at hverdict
  cases hwalk : searchInDieTree (.init pc) u.tree with
  | mk res ctx =>
    rw [hwalk] at hverdict
    cases res with
    | foundSubprog =>
      obtain ⟨die, ancestors, hdie, hat⟩ :=
        (hunits u hmem).functionAt_of_found (by rw [hwalk])
      rw [hwalk] at hdie
      cases hverdict
      exact ⟨u, hmem, die, ancestors, rfl, hdie, hat,
        fun hdistinct path hpath => hpath.unique hdistinct hat.place⟩
    | ok | noEntry | error | notThisCu | inThisCu => cases hverdict

/-- The search finds the function of the example unit. -/
theorem searchFunction_sound_unitWithFunction :
    ∃ u ∈ [unitWithFunction], ∃ die ancestors, unitWithFunction.cuDie = u.cuDie ∧
      some (plainDie 42 .subprogram (some (0x1000, 0x10, .constant))) = some die ∧
      u.FunctionAt 0x1004 ancestors die ∧
      (u.tree.preorder.Nodup → ∀ path, u.tree.PathTo path die → path = u.cuDie :: ancestors) := by
  have horderly : unitWithFunction.Orderly := by
    refine ⟨⟨.compileUnit, rfl, rfl⟩, by decide, fun die hdie => ?_⟩
    obtain rfl : die = plainDie 42 .subprogram (some (0x1000, 0x10, .constant)) := by
      simpa [unitWithFunction] using hdie
    exact ⟨.subprogram, rfl, rfl⟩
  exact @searchFunction_sound [unitWithFunction] (by simpa using horderly) 0 0x1004
    ⟨unitWithFunction.cuDie, some (plainDie 42 .subprogram (some (0x1000, 0x10, .constant)))⟩
    (by decide)

end DwarfExpr
