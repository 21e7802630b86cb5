import DwarfExpr.Lib.SiblingForest

/-!
# What libdwarf hands over

The sources read debug information only through libdwarf. This file fixes the
view they get: 64-bit addresses, the three answers `DW_DLV_OK`,
`DW_DLV_NO_ENTRY` and `DW_DLV_ERROR`, and the debugging information entries with
the attributes that the search for a function asks for.
-/

namespace DwarfExpr

/-- `Dwarf_Addr`. -/
abbrev DwarfAddr := BitVec 64

/-- `Dwarf_Unsigned`. -/
abbrev DwarfUnsigned := BitVec 64

/-- `Dwarf_Signed`, read in two's complement wherever its sign matters. -/
abbrev DwarfSigned := BitVec 64

/-- `Dwarf_Off`. -/
abbrev DwarfOff := BitVec 64

/-- `MAX_DWARF_ADDR`, the failure value of address-valued functions. -/
def maxDwarfAddr : DwarfAddr := BitVec.allOnes 64

/-- `MAX_DWARF_UNSIGNED`. -/
def maxDwarfUnsigned : DwarfUnsigned := BitVec.allOnes 64

/-- `MAX_DWARF_SIGNED`, the failure value of a memory read. -/
def maxDwarfSigned : DwarfSigned := BitVec.intMax 64

/-- The answer of a libdwarf call, with its output when there is one. -/
inductive Dlv (α : Type*) where
  | ok (value : α)
  | noEntry
  | error
  deriving DecidableEq, Repr

/-- The tags that the sources distinguish; `other` stands for every further tag. -/
inductive DwTag where
  | compileUnit | partialUnit | typeUnit
  | subprogram | inlinedSubroutine
  | variable | constant | formalParameter
  | baseType | enumerationType | constType | typedef | pointerType | structureType | classType
  | other (code : ℕ)
  deriving DecidableEq, Repr

/-- The form class that `dwarf_highpc_b` reports for `DW_AT_high_pc`. -/
inductive FormClass where
  | address | constant | other
  deriving DecidableEq, Repr

/-- `dwr_type` of a `Dwarf_Ranges` record; `other` is a value libdwarf does not document. -/
inductive DwrType where
  | entry | addressSelection | endOfList | other
  deriving DecidableEq, Repr

/-- `Dwarf_Ranges`. -/
structure DwarfRanges where
  dwrType : DwrType
  dwrAddr1 : DwarfAddr
  dwrAddr2 : DwarfAddr
  deriving DecidableEq, Repr

/-- A present `DW_AT_ranges`: its section offset (`dwarf_global_formref`) and the raw
records that `dwarf_get_ranges_b` returns for it. -/
structure RangesAttr where
  globalFormref : Dlv DwarfOff
  getRanges : Dlv (List DwarfRanges)
  deriving DecidableEq, Repr

/-- A debugging information entry: the section offset that identifies it, and the
answers to the questions the searcher asks about it. For the two base attributes
the inner answer is that of `dwarf_global_formref` on the attribute. -/
structure DwarfDie where
  offset : DwarfOff
  tag : Dlv DwTag
  lowpc : Dlv DwarfAddr
  highpc : Dlv (DwarfUnsigned × FormClass)
  ranges : Dlv RangesAttr
  rnglistsBase : Dlv (Dlv DwarfOff)
  gnuRangesBase : Dlv (Dlv DwarfOff)
  deriving DecidableEq, Repr

/-- What the search sees from a DIE on: `dwarf_child` follows the child link and
`dwarf_siblingof_b` the sibling link. -/
abbrev DieForest := SiblingForest DwarfDie

/-- A unit of `.debug_info`: its unit DIE and what lies below it. The unit DIE
has no sibling. -/
structure CompileUnit where
  cuDie : DwarfDie
  children : DieForest
  deriving DecidableEq, Repr

/-- The unit as a forest, from its unit DIE on. -/
def CompileUnit.tree (u : CompileUnit) : DieForest := .node u.cuDie u.children .absent

end DwarfExpr
