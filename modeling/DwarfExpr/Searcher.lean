import Mathlib.Data.Int.Notation
import DwarfExpr.Libdwarf

/-!
# The function search

`DwarfSearcher` looks for the subprogram that contains a program counter. It
walks the units of a `Dwarf_Debug` in order and, within a unit, the tree of its
DIEs. Result codes of libdwarf and of the search share one `int` in the source;
`SearchRes` lists them. Releasing DIE handles is not modelled.
-/

namespace DwarfExpr

/-- `DW_DLV_OK`, `DW_DLV_NO_ENTRY`, `DW_DLV_ERROR` and the three codes added to them. -/
inductive SearchRes where
  | ok | noEntry | error | notThisCu | inThisCu | foundSubprog
  deriving DecidableEq, Repr

/-- The code of a libdwarf answer whose output is not needed. -/
def Dlv.res {α : Type*} : Dlv α → SearchRes
  | .ok _ => .ok
  | .noEntry => .noEntry
  | .error => .error

/-- The part of `DwarfCUContext` that the search reads and writes. -/
structure DwarfCUContext where
  targetPc : DwarfAddr
  funcDie : Option DwarfDie
  inLevel : ℤ
  deriving DecidableEq, Repr

/-- `getLowAndHighPc`: the outputs when it returns `DW_DLV_OK`. Every failure,
errors included, is reported as `DW_DLV_NO_ENTRY`. -/
def getLowAndHighPc (die : DwarfDie) : Option (DwarfAddr × DwarfAddr) :=
  match die.lowpc with
  | .ok low =>
    match die.highpc with
    | .ok (hipc, formclass) =>
      some (low, if formclass = .constant then hipc + low else hipc)
    | _ => none
  | _ => none

/-- `getRnglistsBase`: the result code and `*base_out`. Without either attribute the source hands
a pointer that nothing has set to `dwarf_dealloc`, which is left out. -/
def getRnglistsBase (die : DwarfDie) : SearchRes × DwarfOff :=
  let attr := match die.rnglistsBase with
    | .ok formref => Dlv.ok formref
    | _ => die.gnuRangesBase
  match attr with
  | .ok (.ok base) => (.ok, base)
  | .ok .noEntry => (.noEntry, 0)
  | .ok .error => (.error, 0)
  | .noEntry => (.noEntry, 0)
  | .error => (.error, 0)

/-- The loop of `matchCUDie` over the range records. `baseaddr` is set anew from
the ranges base in every iteration, so an address selection has no effect. -/
def matchRanges (pc : DwarfAddr) (cuRangesBase : DwarfOff) :
    List DwarfRanges → SearchRes → SearchRes
  | [], res => res
  | cur :: rest, res =>
    match cur.dwrType with
    | .entry =>
      if pc < cur.dwrAddr1 + cuRangesBase || cur.dwrAddr2 + cuRangesBase ≤ pc then
        matchRanges pc cuRangesBase rest res
      else .inThisCu
    | .addressSelection => matchRanges pc cuRangesBase rest res
    | .endOfList => matchRanges pc cuRangesBase rest res
    | .other => matchRanges pc cuRangesBase rest .error

/-- `DwarfSearcher::matchCUDie`. -/
def matchCUDie (ctx : DwarfCUContext) (inDie : DwarfDie) : SearchRes := Id.run do
  let mut res := SearchRes.noEntry
  if let some (lowpc, highpc) := getLowAndHighPc inDie then
    if ctx.targetPc < lowpc || highpc ≤ ctx.targetPc then
      res := .notThisCu
    else
      res := .inThisCu
  -- The next assignment overwrites the verdict on the pc range.
  res := inDie.ranges.res
  if let .ok rangesAttr := inDie.ranges then
    res := rangesAttr.globalFormref.res
    if res ≠ .ok then
      return res
    let (baseRes, cuRangesBase) := getRnglistsBase inDie
    res := baseRes
    match rangesAttr.getRanges with
    | .ok ranges => res := matchRanges ctx.targetPc cuRangesBase ranges res
    | _ => return res
  return res

/-- `DwarfSearcher::matchFuncDie`. -/
def matchFuncDie (ctx : DwarfCUContext) (inDie : DwarfDie) : SearchRes × DwarfCUContext :=
  match getLowAndHighPc inDie with
  | none => (.noEntry, ctx)
  | some (lowpc, highpc) =>
    if ctx.targetPc < lowpc || highpc ≤ ctx.targetPc then (.ok, ctx)
    else (.foundSubprog, { ctx with funcDie := some inDie })

/-- `DwarfSearcher::searchInDie`. -/
def searchInDie (ctx : DwarfCUContext) (inDie : DwarfDie) : SearchRes × DwarfCUContext :=
  match inDie.tag with
  | .noEntry => (.noEntry, ctx)
  | .error => (.error, ctx)
  | .ok .subprogram | .ok .inlinedSubroutine => matchFuncDie ctx inDie
  | .ok .compileUnit | .ok .partialUnit | .ok .typeUnit =>
    if ctx.inLevel ≠ 0 then (.notThisCu, ctx) else (matchCUDie ctx inDie, ctx)
  | .ok _ => (.ok, ctx)

/-- The first half of `searchInDieTree`: examine the incoming DIE and go on to the
loop over its level unless the result stops the search here. -/
def enterDie (level : DwarfCUContext → SearchRes × DwarfCUContext) (ctx : DwarfCUContext)
    (inDie : DwarfDie) : SearchRes × DwarfCUContext :=
  match searchInDie ctx inDie with
  | (.error, ctx) => (.error, ctx)
  | (.noEntry, ctx) => (.noEntry, ctx)
  | (.notThisCu, ctx) => (.notThisCu, ctx)
  | (.foundSubprog, ctx) => (.foundSubprog, ctx)
  | (_, ctx) => level ctx

/-- The first part of the loop body of `searchInDieTree`: the recursive call on the
first child of `cur_die`, which is `enterDie` on that child. -/
def searchChildren (level : DwarfCUContext → SearchRes × DwarfCUContext)
    (ctx : DwarfCUContext) : DieForest → SearchRes × DwarfCUContext
  | .absent => (.ok, ctx)
  | .unreadable => (.error, ctx)
  | .node child _ _ => enterDie level { ctx with inLevel := ctx.inLevel + 1 } child

/-- The second part of the loop body: leave the level at its end, or examine the
next sibling and go on with it as `cur_die`. -/
def searchSibling (level : DwarfCUContext → SearchRes × DwarfCUContext)
    (ctx : DwarfCUContext) : DieForest → SearchRes × DwarfCUContext
  | .absent => (.ok, { ctx with inLevel := ctx.inLevel - 1 })
  | .unreadable => (.error, ctx)
  | .node sib _ _ =>
    match searchInDie ctx sib with
    | (.error, ctx) => (.error, ctx)
    | (.foundSubprog, ctx) => (.foundSubprog, ctx)
    | (_, ctx) => level ctx

/-- The loop of `searchInDieTree` from the iteration whose `cur_die` begins the
given forest. -/
def searchLevel (ctx : DwarfCUContext) : DieForest → SearchRes × DwarfCUContext
  | .absent => (.ok, ctx)
  | .unreadable => (.error, ctx)
  | .node _ children siblings =>
    match searchChildren (fun ctx => searchLevel ctx children) ctx children with
    | (.foundSubprog, ctx) => (.foundSubprog, ctx)
    | (.notThisCu, ctx) => (.notThisCu, ctx)
    | (.error, ctx) => (.error, ctx)
    | (_, ctx) => searchSibling (fun ctx => searchLevel ctx siblings) ctx siblings

/-- `DwarfSearcher::searchInDieTree`, started on the first DIE of the forest. -/
def searchInDieTree (ctx : DwarfCUContext) : DieForest → SearchRes × DwarfCUContext
  | .absent => (.error, ctx)
  | .unreadable => (.error, ctx)
  | .node inDie children siblings =>
    enterDie (fun ctx => searchLevel ctx (.node inDie children siblings)) ctx inDie

/-- The context that `searchFunction` sets up for each unit. -/
def DwarfCUContext.init (pc : DwarfAddr) : DwarfCUContext := ⟨pc, none, 0⟩

/-- The compile-unit cursor kept inside a `Dwarf_Debug`: the number of units that
`dwarf_next_cu_header_d` has returned since it last answered `DW_DLV_NO_ENTRY`. -/
abbrev CuCursor := ℕ

/-- `*out_cu_die` and `*out_func_die` of a successful search. -/
structure FoundFunction where
  cuDie : DwarfDie
  funcDie : Option DwarfDie
  deriving DecidableEq, Repr

/-- The loop of `searchFunction` over the units that `dwarf_next_cu_header_d` still
has to return. After the last of them the cursor goes back to the first unit. -/
def searchUnits (pc : DwarfAddr) : List CompileUnit → CuCursor → Option FoundFunction × CuCursor
  | [], _ => (none, 0)
  | u :: rest, cursor =>
    match searchInDieTree (.init pc) u.tree with
    | (.foundSubprog, ctx) => (some ⟨u.cuDie, ctx.funcDie⟩, cursor + 1)
    | (.inThisCu, _) => (none, cursor + 1)
    | (.error, _) => (none, cursor + 1)
    | (_, _) => searchUnits pc rest (cursor + 1)

/-- `DwarfSearcher::searchFunction` on a `Dwarf_Debug` with these units, whose cursor
stands as given. -/
def searchFunction (units : List CompileUnit) (cursor : CuCursor) (pc : DwarfAddr) :
    Option FoundFunction × CuCursor :=
  searchUnits pc (units.drop cursor) cursor

end DwarfExpr
