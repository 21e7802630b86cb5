import Mathlib.Algebra.Group.Nat.Defs
import DwarfExpr.Searcher

/-!
# Which functions the walk of a unit can find

Inside a unit the walk returns the first matching function DIE among those it
can see. It does not see a level whose first DIE is a function DIE without a pc
range: `searchInDie` answers `DW_DLV_NO_ENTRY` there, and `searchInDieTree` takes
that answer on a first child for the end of the whole level, although the loop
over siblings passes over the same answer.
-/

namespace DwarfExpr

/-- The tags for which `searchInDie` asks for a pc range. -/
def DwTag.isFunction : DwTag → Bool
  | .subprogram | .inlinedSubroutine => true
  | _ => false

/-- The tags that only a unit DIE may have. -/
def DwTag.isUnit : DwTag → Bool
  | .compileUnit | .partialUnit | .typeUnit => true
  | _ => false

/-- The DIE is a subprogram or an inlined subroutine. -/
def DwarfDie.isFunction (die : DwarfDie) : Bool :=
  match die.tag with
  | .ok tag => tag.isFunction
  | _ => false

/-- The pc range of a DIE in exact arithmetic: its first address and its end. -/
def DwarfDie.pcRange (die : DwarfDie) : Option (ℕ × ℕ) :=
  match die.lowpc, die.highpc with
  | .ok low, .ok (hipc, formclass) =>
    some (low.toNat, if formclass = .constant then low.toNat + hipc.toNat else hipc.toNat)
  | _, _ => none

/-- The pc lies in the DIE's range `low ≤ pc < high`. -/
def DwarfDie.Contains (die : DwarfDie) (pc : DwarfAddr) : Prop :=
  ∃ range ∈ die.pcRange, range.1 ≤ pc.toNat ∧ pc.toNat < range.2

/-- The end of the DIE's range is a 64-bit address. -/
def DwarfDie.EndFits (die : DwarfDie) : Prop := ∀ range ∈ die.pcRange, range.2 < 2 ^ 64

/-- The DIE is a function DIE without a pc range: a declaration, an abstract
instance, or a function described by `DW_AT_ranges` only. -/
def DwarfDie.isRangeless (die : DwarfDie) : Bool := die.isFunction && die.pcRange.isNone

/-- The test by which the walk recognizes the function it looks for. -/
def DwarfDie.isHit (pc : DwarfAddr) (die : DwarfDie) : Bool :=
  die.isFunction &&
    match getLowAndHighPc die with
    | some (lowpc, highpc) => !(pc < lowpc || highpc ≤ pc)
    | none => false

/-- `getLowAndHighPc` fails exactly on the DIEs without a pc range. -/
theorem getLowAndHighPc_eq_none_iff (die : DwarfDie) :
    getLowAndHighPc die = none ↔ die.pcRange = none := by
  unfold getLowAndHighPc DwarfDie.pcRange
  cases die.lowpc <;> cases die.highpc <;> simp

/-- The 64-bit test of the source accepts a pc exactly when it lies in a range
whose end does not wrap around. -/
theorem isHit_iff (pc : DwarfAddr) (die : DwarfDie) :
    die.isHit pc = true ↔ die.isFunction = true ∧ die.Contains pc ∧ die.EndFits := by
  unfold DwarfDie.isHit DwarfDie.Contains DwarfDie.EndFits getLowAndHighPc DwarfDie.pcRange
  rw [Bool.and_eq_true]
  apply and_congr_right
  intro hexamined
  cases hlow : die.lowpc with
  | noEntry => simp
  | error => simp
  | ok low =>
    cases hhigh : die.highpc with
    | noEntry => simp
    | error => simp
    | ok high =>
      obtain ⟨hipc, formclass⟩ := high
      have hl := low.isLt
      have hh := hipc.isLt
      have hp := pc.isLt
      by_cases hclass : formclass = .constant
      · simp only [hclass, if_true, Bool.not_eq_true', Bool.or_eq_false_iff,
          decide_eq_false_iff_not, Option.mem_some_iff, exists_eq_left', forall_eq',
          BitVec.lt_def, BitVec.le_def, BitVec.toNat_add]
        omega
      · simp only [hclass, if_false, Bool.not_eq_true', Bool.or_eq_false_iff,
          decide_eq_false_iff_not, Option.mem_some_iff, exists_eq_left', forall_eq',
          BitVec.lt_def, BitVec.le_def]
        omega

/-- A DIE below a unit DIE as DWARF promises it: its tag can be read and is not a
unit tag. -/
def DwarfDie.IsInner (die : DwarfDie) : Prop := ∃ tag, die.tag = .ok tag ∧ tag.isUnit = false

/-- On a DIE below the unit DIE the search stops with a hit, gives up on a function
without a range, and otherwise goes on. -/
theorem searchInDie_of_isInner {ctx : DwarfCUContext} {die : DwarfDie} (hinner : die.IsInner) :
    searchInDie ctx die =
      if die.isHit ctx.targetPc then (.foundSubprog, { ctx with funcDie := some die })
      else if die.isRangeless then (.noEntry, ctx)
      else (.ok, ctx) := by
  obtain ⟨tag, htag, hunit⟩ := hinner
  have hrange := getLowAndHighPc_eq_none_iff die
  have hmatch : tag.isFunction = true → searchInDie ctx die = matchFuncDie ctx die := by
    intro hfun
    cases tag <;> simp_all [DwTag.isFunction, searchInDie]
  cases hfun : tag.isFunction with
  | false =>
    cases tag <;>
      simp_all [DwTag.isFunction, DwTag.isUnit, searchInDie, DwarfDie.isHit,
        DwarfDie.isRangeless, DwarfDie.isFunction]
  | true =>
    rw [hmatch hfun]
    unfold matchFuncDie DwarfDie.isHit DwarfDie.isRangeless DwarfDie.isFunction
    simp only [htag, hfun, Bool.true_and]
    cases hget : getLowAndHighPc die with
    | none => simp [hrange.mp hget]
    | some range =>
      have hsome : die.pcRange.isNone = false := by
        cases hp : die.pcRange with
        | none => rw [hrange.mpr hp] at hget; cases hget
        | some _ => rfl
      by_cases hout : (ctx.targetPc < range.1 || range.2 ≤ ctx.targetPc) = true
      · simp [hsome, hout]
      · simp [hout]

/-- A finished walk agrees with the first hit of a listing: it found that DIE, or
it ended without error because there is none. -/
def WalkFinds (pc : DwarfAddr) (walk : SearchRes × DwarfCUContext) (hit : Option DwarfDie) :
    Prop :=
  match hit with
  | some die => walk.1 = .foundSubprog ∧ walk.2.funcDie = some die
  | none => (walk.1 = .ok ∨ walk.1 = .noEntry) ∧ walk.2.targetPc = pc

/-- What the loop over a level can still see when its first DIE has been examined:
the exposed DIEs below it, then its later siblings with theirs. -/
def unexamined (level : DieForest) : List DwarfDie :=
  (level.pruneBelow DwarfDie.isRangeless).preorder.tail

@[simp] theorem unexamined_node (die : DwarfDie) (children siblings : DieForest) :
    unexamined (.node die children siblings) =
      children.exposed DwarfDie.isRangeless ++
        (siblings.pruneBelow DwarfDie.isRangeless).preorder := rfl

/-- The recursive call on a first child finds the first hit that the child's level
exposes, provided the loop over that level does. -/
theorem searchChildren_finds {pc : DwarfAddr} {level : DieForest} (hread : level.Readable)
    (hinner : ∀ die ∈ level.preorder, die.IsInner)
    (hlevel : ∀ ctx : DwarfCUContext, ctx.targetPc = pc →
      WalkFinds pc (searchLevel ctx level) ((unexamined level).find? (DwarfDie.isHit pc)))
    {ctx : DwarfCUContext} (hpc : ctx.targetPc = pc) :
    WalkFinds pc (searchChildren (fun ctx => searchLevel ctx level) ctx level)
      ((level.exposed DwarfDie.isRangeless).find? (DwarfDie.isHit pc)) := by
  cases level with
  | absent => exact ⟨Or.inl rfl, hpc⟩
  | unreadable => exact hread.elim
  | node child below siblings =>
    have hnext := hlevel { ctx with inLevel := ctx.inLevel + 1 } hpc
    subst hpc
    simp only [searchChildren, enterDie, searchInDie_of_isInner (hinner child (by simp))]
    have hbegins : (SiblingForest.node child below siblings).beginsWith
        DwarfDie.isRangeless = child.isRangeless := rfl
    by_cases hhit : child.isHit ctx.targetPc = true
    · -- A hit has a range, so it does not hide its level.
      have hkeep : child.isRangeless = false := by
        obtain ⟨_, ⟨range, hrange, _⟩, _⟩ := (isHit_iff _ _).mp hhit
        simp [DwarfDie.isRangeless, Option.mem_def.mp hrange]
      rw [SiblingForest.exposed_of_not_beginsWith (hbegins.trans hkeep),
        SiblingForest.preorder_pruneBelow_node, List.find?_cons_of_pos hhit]
      simp [hhit, WalkFinds]
    · cases hhide : child.isRangeless with
      | true =>
        rw [SiblingForest.exposed_of_beginsWith (hbegins.trans hhide)]
        simp [hhit, WalkFinds]
      | false =>
        rw [SiblingForest.exposed_of_not_beginsWith (hbegins.trans hhide),
          SiblingForest.preorder_pruneBelow_node, List.find?_cons_of_neg hhit]
        simpa [hhit] using hnext

/-- Going on with the next sibling finds the first hit among the later siblings and
what they expose. A sibling without a range is passed over like any other. -/
theorem searchSibling_finds {pc : DwarfAddr} {level : DieForest} (hread : level.Readable)
    (hinner : ∀ die ∈ level.preorder, die.IsInner)
    (hlevel : ∀ ctx : DwarfCUContext, ctx.targetPc = pc →
      WalkFinds pc (searchLevel ctx level) ((unexamined level).find? (DwarfDie.isHit pc)))
    {ctx : DwarfCUContext} (hpc : ctx.targetPc = pc) :
    WalkFinds pc (searchSibling (fun ctx => searchLevel ctx level) ctx level)
      ((level.pruneBelow DwarfDie.isRangeless).preorder.find? (DwarfDie.isHit pc)) := by
  cases level with
  | absent => exact ⟨Or.inl rfl, hpc⟩
  | unreadable => exact hread.elim
  | node sib below siblings =>
    have hnext := hlevel ctx hpc
    subst hpc
    simp only [searchSibling, searchInDie_of_isInner (hinner sib (by simp)),
      SiblingForest.preorder_pruneBelow_node]
    by_cases hhit : sib.isHit ctx.targetPc = true
    · rw [List.find?_cons_of_pos hhit]
      simp [hhit, WalkFinds]
    · rw [List.find?_cons_of_neg hhit]
      cases hhide : sib.isRangeless <;> simpa [hhit] using hnext

/-- The loop over a level finds the first hit among the DIEs it can still see.
Induction on the forest: one hypothesis serves the recursive call on the first
child, the other the next iteration. -/
theorem searchLevel_finds {pc : DwarfAddr} {level : DieForest} (hread : level.Readable)
    (hinner : ∀ die ∈ level.preorder.tail, die.IsInner) {ctx : DwarfCUContext}
    (hpc : ctx.targetPc = pc) :
    WalkFinds pc (searchLevel ctx level) ((unexamined level).find? (DwarfDie.isHit pc)) := by
  induction level generalizing ctx with
  | absent => exact ⟨Or.inl rfl, hpc⟩
  | unreadable => exact hread.elim
  | node die children siblings ihc ihs =>
    obtain ⟨hreadc, hreads⟩ := hread
    have hinnerc : ∀ d ∈ children.preorder, d.IsInner := fun d hd => hinner d (by simp [hd])
    have hinners : ∀ d ∈ siblings.preorder, d.IsInner := fun d hd => hinner d (by simp [hd])
    have hbelow := searchChildren_finds hreadc hinnerc
      (fun _ hpc => ihc hreadc (fun d hd => hinnerc d (List.mem_of_mem_tail hd)) hpc) hpc
    have hafter (ctx' : DwarfCUContext) (hpc' : ctx'.targetPc = pc) :=
      searchSibling_finds hreads hinners
        (fun _ hpc => ihs hreads (fun d hd => hinners d (List.mem_of_mem_tail hd)) hpc) hpc'
    rw [unexamined_node, List.find?_append]
    unfold searchLevel
    generalize searchChildren (fun ctx => searchLevel ctx children) ctx children = below
      at hbelow ⊢
    obtain ⟨res, ctx'⟩ := below
    cases hfind : (children.exposed DwarfDie.isRangeless).find? (DwarfDie.isHit pc) with
    | some d =>
      rw [hfind] at hbelow
      obtain ⟨rfl, hfunc⟩ := hbelow
      exact ⟨rfl, hfunc⟩
    | none =>
      rw [hfind] at hbelow
      obtain ⟨rfl | rfl, hpc'⟩ := hbelow
      · exact hafter ctx' hpc'
      · exact hafter ctx' hpc'

/-- A unit as DWARF and libdwarf promise it: a unit tag at its root and only there,
and links that can all be followed. -/
structure CompileUnit.Orderly (u : CompileUnit) : Prop where
  /-- The root carries a unit tag. -/
  root_tag : ∃ tag, u.cuDie.tag = .ok tag ∧ tag.isUnit = true
  /-- libdwarf reports no error on the way through the tree. -/
  readable : u.children.Readable
  /-- No unit DIE is nested below the root. -/
  inner : ∀ die ∈ u.children.preorder, die.IsInner

/-- At level 0 the search asks `matchCUDie` about a unit DIE. -/
theorem CompileUnit.Orderly.searchInDie_root {u : CompileUnit} (hu : u.Orderly)
    {ctx : DwarfCUContext} (hlevel : ctx.inLevel = 0) :
    searchInDie ctx u.cuDie = (matchCUDie ctx u.cuDie, ctx) := by
  obtain ⟨tag, htag, hunit⟩ := hu.root_tag
  cases tag <;> simp_all [DwTag.isUnit, searchInDie]

/-- In a unit that `matchCUDie` accepts, the walk finds the first hit that no level
hides. -/
theorem CompileUnit.Orderly.searchInDieTree_finds {u : CompileUnit} (hu : u.Orderly)
    {ctx : DwarfCUContext} (hlevel : ctx.inLevel = 0)
    (haccept : matchCUDie ctx u.cuDie = .inThisCu ∨ matchCUDie ctx u.cuDie = .ok) :
    WalkFinds ctx.targetPc (searchInDieTree ctx u.tree)
      ((u.children.exposed DwarfDie.isRangeless).find? (DwarfDie.isHit ctx.targetPc)) := by
  have hwalk : searchInDieTree ctx u.tree = searchLevel ctx u.tree := by
    simp only [CompileUnit.tree, searchInDieTree, enterDie, hu.searchInDie_root hlevel]
    rcases haccept with h | h <;> simp only [h]
  have hlist : unexamined u.tree = u.children.exposed DwarfDie.isRangeless := by
    simp [CompileUnit.tree, SiblingForest.pruneBelow]
  have hread : u.tree.Readable := ⟨hu.readable, trivial⟩
  rw [hwalk, ← hlist]
  refine searchLevel_finds hread ?_ rfl
  intro die hdie
  exact hu.inner die (by simpa [CompileUnit.tree] using hdie)

/-- The DIE is a function DIE whose own range contains the pc. -/
def DwarfDie.IsFunctionAt (pc : DwarfAddr) (die : DwarfDie) : Prop :=
  die.isFunction = true ∧ die.Contains pc

/-- The walk of an accepted unit meets its purpose, to find a function whenever one
contains the pc, exactly when there is none or when one with a 64-bit end address
lies in no level that begins with a function DIE without a range. -/
theorem searchInDieTree_complete_iff {u : CompileUnit} (hu : u.Orderly)
    {ctx : DwarfCUContext} (hlevel : ctx.inLevel = 0)
    (haccept : matchCUDie ctx u.cuDie = .inThisCu) :
    ((∃ die ∈ u.children.preorder, die.IsFunctionAt ctx.targetPc) →
        (searchInDieTree ctx u.tree).1 = .foundSubprog) ↔
      (∀ die ∈ u.children.preorder, ¬die.IsFunctionAt ctx.targetPc) ∨
        ∃ die ∈ u.children.exposed DwarfDie.isRangeless,
          die.IsFunctionAt ctx.targetPc ∧ die.EndFits := by
  have hfinds := hu.searchInDieTree_finds hlevel (Or.inl haccept)
  have hfound : (searchInDieTree ctx u.tree).1 = .foundSubprog ↔
      ∃ die ∈ u.children.exposed DwarfDie.isRangeless,
        die.IsFunctionAt ctx.targetPc ∧ die.EndFits := by
    cases hfirst : (u.children.exposed DwarfDie.isRangeless).find?
        (DwarfDie.isHit ctx.targetPc) with
    | some die =>
      rw [hfirst] at hfinds
      have hhit := (isHit_iff _ _).mp (List.find?_some hfirst)
      exact ⟨fun _ => ⟨die, List.mem_of_find?_eq_some hfirst, ⟨hhit.1, hhit.2.1⟩, hhit.2.2⟩,
        fun _ => hfinds.1⟩
    | none =>
      rw [hfirst] at hfinds
      constructor
      · intro hres
        rcases hfinds.1 with h | h <;> rw [h] at hres <;> cases hres
      · rintro ⟨die, hmem, ⟨hfun, hcontains⟩, hend⟩
        have hno := List.find?_eq_none.mp hfirst die hmem
        exact absurd ((isHit_iff _ _).mpr ⟨hfun, hcontains, hend⟩) hno
  rw [hfound]
  constructor
  · intro h
    by_cases hany : ∃ die ∈ u.children.preorder, die.IsFunctionAt ctx.targetPc
    · exact Or.inr (h hany)
    · exact Or.inl fun die hmem hat => hany ⟨die, hmem, hat⟩
  · rintro (hnone | hex) ⟨die, hmem, hat⟩
    · exact absurd hat (hnone die hmem)
    · exact hex

/-- A DIE with the given tag and pc range and no other attribute. -/
def plainDie (offset : DwarfOff) (tag : DwTag)
    (range : Option (DwarfAddr × DwarfUnsigned × FormClass)) : DwarfDie where
  offset := offset
  tag := .ok tag
  lowpc := match range with | some (low, _) => .ok low | none => .noEntry
  highpc := match range with | some (_, high) => .ok high | none => .noEntry
  ranges := .noEntry
  rnglistsBase := .noEntry
  gnuRangesBase := .noEntry

/-- A unit over the range list `[0x1000, 0x2000)` whose children are a declared
function and the function `[0x1000, 0x1010)`. -/
def unitWithLeadingDeclaration : CompileUnit where
  cuDie := { plainDie 11 .compileUnit none with
    ranges := .ok ⟨.ok 0, .ok [⟨.entry, 0x1000, 0x2000⟩, ⟨.endOfList, 0, 0⟩]⟩ }
  children := .node (plainDie 42 .subprogram none) .absent
    (.node (plainDie 50 .subprogram (some (0x1000, 0x10, .constant))) .absent .absent)

/-- The example unit is as DWARF promises it. -/
theorem unitWithLeadingDeclaration_orderly : unitWithLeadingDeclaration.Orderly where
  root_tag := ⟨.compileUnit, rfl, rfl⟩
  readable := by decide
  inner := by
    intro die hdie
    have hcases : die = plainDie 42 .subprogram none ∨
        die = plainDie 50 .subprogram (some (0x1000, 0x10, .constant)) := by
      simpa [unitWithLeadingDeclaration] using hdie
    rcases hcases with rfl | rfl <;> exact ⟨.subprogram, rfl, rfl⟩

/-- A declaration in front of a function makes the walk miss the function, although
the unit is accepted and the function's range contains the pc. -/
theorem searchInDieTree_misses_after_declaration :
    unitWithLeadingDeclaration.Orderly ∧
      matchCUDie (.init 0x1004) unitWithLeadingDeclaration.cuDie = .inThisCu ∧
      (∃ die ∈ unitWithLeadingDeclaration.children.preorder, die.IsFunctionAt 0x1004) ∧
      (searchInDieTree (.init 0x1004) unitWithLeadingDeclaration.tree).1 ≠ .foundSubprog := by
  refine ⟨unitWithLeadingDeclaration_orderly, by decide, ?_, by decide⟩
  refine ⟨plainDie 50 .subprogram (some (0x1000, 0x10, .constant)), ?_, rfl, (0x1000, 0x1010),
    rfl, by decide, by decide⟩
  simp [unitWithLeadingDeclaration]

/-- The characterization at the unit with a leading declaration. -/
theorem searchInDieTree_complete_iff_leadingDeclaration :
    ((∃ die ∈ unitWithLeadingDeclaration.children.preorder, die.IsFunctionAt 0x1004) →
        (searchInDieTree (.init 0x1004) unitWithLeadingDeclaration.tree).1 = .foundSubprog) ↔
      (∀ die ∈ unitWithLeadingDeclaration.children.preorder, ¬die.IsFunctionAt 0x1004) ∨
        ∃ die ∈ unitWithLeadingDeclaration.children.exposed DwarfDie.isRangeless,
          die.IsFunctionAt 0x1004 ∧ die.EndFits :=
  @searchInDieTree_complete_iff _ unitWithLeadingDeclaration_orderly (.init 0x1004) rfl (by decide)

end DwarfExpr
