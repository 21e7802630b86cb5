import DwarfExpr.EvaluateRuns

/-!
# Call frame information

`DwarfFrames` computes the canonical frame address from the unwind tables that
libdwarf decodes. A table of an FDE is a list of rows; the libdwarf queries are
stated over that list. The loop of `GetCfa` is a step machine, since the rules it
evaluates may be expressions.
-/

namespace DwarfExpr

/-- One answer of `dwarf_get_locdesc_entry_d`, and the answers of
`dwarf_get_location_op_value_c` for its operations. -/
structure LocdescEntry where
  debugAddrUnavailable : Bool
  lopc : DwarfAddr
  hipc : DwarfAddr
  ops : List (Dlv DwarfOp)
  deriving DecidableEq, Repr

/-- `Dwarf_Loc_Head_c`: the answers of `dwarf_get_locdesc_entry_d` by index. -/
abbrev LoclistHead := List (Dlv LocdescEntry)

/-- The operation of an answer of `dwarf_get_location_op_value_c`. -/
def Dlv.toOption {α : Type*} : Dlv α → Option α
  | .ok a => some a
  | _ => none

/-- `static_cast<int>` of a count, as the number of rounds of a loop that starts at zero. -/
def intRounds (count : ℕ) : ℕ := (BitVec.ofNat 32 count).toInt.toNat

/-- The operations of an entry that the loop of `loadExprFromLoclist` adds. Those that
libdwarf cannot deliver are left out. -/
def LocdescEntry.loadedOps (entry : LocdescEntry) : List DwarfOp :=
  (entry.ops.take (intRounds entry.ops.length)).filterMap Dlv.toOption

/-- `DwarfExpression::loadExprFromLoclist` on the location expression `loc`. -/
def loadExprFromLoclist (head : LoclistHead) (idx : ℕ) (loc : LocationExpression) :
    Option LocationExpression :=
  match head[idx]? with
  | some (.ok entry) =>
    let expr : DwarfExpression := ⟨loc.expr.ops ++ entry.loadedOps⟩
    if entry.debugAddrUnavailable then some { loc with expr := expr }
    else some ⟨entry.lopc, entry.hipc, expr⟩
  | _ => none

/-- `value_type` of a rule. -/
inductive ValueType where
  | offset | valOffset | expression | valExpression | other
  deriving DecidableEq, Repr

/-- The register of a rule: one of the marks `DW_FRAME_UNDEFINED_VAL` and
`DW_FRAME_SAME_VAL`, or a number. -/
inductive RuleReg where
  | undefinedVal | sameVal
  | number (n : DwarfUnsigned)
  deriving DecidableEq, Repr

/-- A column of the unwind table: the CFA, or one of the 33 registers that the loop asks
for. -/
inductive FrameColumn where
  | cfa
  | reg (x : Fin 33)
  deriving DecidableEq, Repr

/-- `DwarfFrames::FdeInfo`. The block stands for what `dwarf_loclist_from_expr_c`
makes of it. -/
structure FdeInfo where
  reg : RuleReg
  offsetRelevant : DwarfUnsigned
  valueType : ValueType
  offset : DwarfUnsigned
  block : Dlv LoclistHead
  rowPc : DwarfAddr
  hasMoreRows : Bool
  subsequentPc : DwarfAddr
  cfa : DwarfAddr
  deriving DecidableEq, Repr

/-- The rule for a register in a row, as libdwarf reports it. -/
structure RegRule where
  reg : RuleReg
  offsetRelevant : DwarfUnsigned
  valueType : ValueType
  offset : DwarfUnsigned
  block : Dlv LoclistHead
  deriving DecidableEq, Repr

/-- The rule for the CFA in a row: a register plus an offset, or an expression. -/
inductive CfaRule where
  | registerOffset (reg : RuleReg) (offset : DwarfUnsigned)
  | expression (block : Dlv LoclistHead)
  deriving DecidableEq, Repr

/-- How libdwarf reports a CFA rule. -/
def CfaRule.toRegRule : CfaRule → RegRule
  | registerOffset reg offset => ⟨reg, 1, .offset, offset, .noEntry⟩
  | expression block => ⟨.undefinedVal, 0, .valExpression, 0, block⟩

/-- A row of an unwind table. -/
structure UnwindRow where
  startPc : DwarfAddr
  cfaRule : CfaRule
  regRules : Fin 33 → Dlv RegRule

/-- The row of a list that covers the pc, with the row after it. -/
def rowCovering (pc : DwarfAddr) : List UnwindRow → Option (UnwindRow × Option UnwindRow)
  | [] => none
  | row :: rest =>
    if pc < row.startPc then none
    else (rowCovering pc rest).or (some (row, rest.head?))

/-- `Dwarf_Fde`: the range it covers and its rows, with strictly increasing start
addresses from the low pc on. For the last row libdwarf leaves `subsequent_pc` open. -/
structure Fde where
  lowPc : DwarfAddr
  highPc : DwarfAddr
  rows : List UnwindRow
  lastSubsequentPc : DwarfAddr
  starts : rows.head?.map UnwindRow.startPc = some lowPc
  increasing : rows.Pairwise fun row later => row.startPc < later.startPc
  below : ∀ row ∈ rows, row.startPc < highPc

/-- A rule of a row together with the place of the row in the table. -/
def Fde.info (fde : Fde) (row : UnwindRow) (next : Option UnwindRow) (cfa : DwarfAddr)
    (rule : RegRule) : FdeInfo where
  reg := rule.reg
  offsetRelevant := rule.offsetRelevant
  valueType := rule.valueType
  offset := rule.offset
  block := rule.block
  rowPc := row.startPc
  hasMoreRows := next.isSome
  subsequentPc := (next.map UnwindRow.startPc).getD fde.lastSubsequentPc
  cfa := cfa

/-- The row that answers a query, if the pc lies in the FDE. -/
def Fde.query (fde : Fde) (pc : DwarfAddr) : Option (UnwindRow × Option UnwindRow) :=
  if fde.lowPc ≤ pc ∧ pc < fde.highPc then rowCovering pc fde.rows else none

/-- `dwarf_get_fde_info_for_cfa_reg3_b` on a fresh `FdeInfo`. -/
def Fde.infoForCfa (fde : Fde) (pc : DwarfAddr) : Option FdeInfo :=
  (fde.query pc).map fun (row, next) => fde.info row next 0 row.cfaRule.toRegRule

/-- `dwarf_get_fde_info_for_reg3_b`, which keeps the `cfa` of the given `FdeInfo`. -/
def Fde.infoForReg (fde : Fde) (x : Fin 33) (pc : DwarfAddr) (info : FdeInfo) : Option FdeInfo :=
  (fde.query pc).bind fun (row, next) =>
    (row.regRules x).toOption.map (fde.info row next info.cfa)

/-- The expression of a rule: the first entry of the location list made of its block. -/
def exprOfBlock (block : Dlv LoclistHead) : Option DwarfExpression :=
  block.toOption.bind fun head =>
    (loadExprFromLoclist head 0 ⟨0, 0, ⟨[]⟩⟩).map LocationExpression.expr

/-- `DwarfFrames::EvalExpr`. -/
def evalExpr (fuel : ℕ) (context : Context) (pc : DwarfAddr) (info : FdeInfo) :
    Bounded DwarfAddr :=
  match exprOfBlock info.block with
  | some expr =>
    Fuel.Bounded.andThen (evaluate fuel context pc expr []) fun outcome =>
      some (.ok (outcome.1.validValue.getD maxDwarfAddr))
  | none => some (.ok maxDwarfAddr)

/-- `readMemory` through the memory provider of a context, for an address. -/
def Context.readAddr (context : Context) (addr : DwarfAddr) : Bounded DwarfAddr :=
  match context.memory with
  | some memory => some (.ok (readMemory memory addr maxDwarfAddr))
  | none => some (.error .nullProvider)

/-- A number passed as an `int`. -/
def toCInt (n : DwarfUnsigned) : ℤ := (n.setWidth 32).toInt

/-- A register plus an offset. -/
def Context.registerPlus (context : Context) (reg : RuleReg) (offset : DwarfUnsigned) :
    Bounded DwarfAddr :=
  match context.registers, reg with
  | some registers, .number n =>
    match registers (toCInt n) with
    | some v => some (.ok (v + offset))
    | none => some (.ok maxDwarfAddr)
  | none, .number _ => some (.error .nullProvider)
  | _, _ => some (.ok maxDwarfAddr)

/-- `DwarfFrames::GetReg`. -/
def getReg (fuel : ℕ) (context : Context) (i : FrameColumn) (pc : DwarfAddr) (info : FdeInfo) :
    Bounded DwarfAddr :=
  if (info.valueType = .offset ∨ info.valueType = .valOffset) ∧
      (info.reg = .undefinedVal ∨ info.reg = .sameVal) then
    some (.ok maxDwarfAddr)
  else
    match info.valueType with
    | .offset =>
      if info.offsetRelevant ≠ 0 ∧ i ≠ .cfa then context.readAddr (info.cfa + info.offset)
      else context.registerPlus info.reg info.offset
    | .valOffset => some (.ok (info.cfa + info.offset))
    | .expression => (evalExpr fuel context pc info).andThen context.readAddr
    | .valExpression => evalExpr fuel context pc info
    | .other => some (.ok maxDwarfAddr)

/-- The inner loop of `GetCfa` over the registers. Its values are only printed. -/
def otherRegs (fuel : ℕ) (context : Context) (fde : Fde) (p : DwarfAddr) :
    List (Fin 33) → FdeInfo → Bounded Unit
  | [], _ => some (.ok ())
  | x :: xs, info =>
    match fde.infoForReg x p info with
    | none => otherRegs fuel context fde p xs info
    | some info =>
      if info.rowPc ≠ p then otherRegs fuel context fde p xs info
      else
        (getReg fuel context (.reg x) p info).andThen fun _ =>
          otherRegs fuel context fde p xs info

/-- The variables of the outer loop of `GetCfa`. -/
structure CfaLoop where
  p : DwarfAddr
  cfa : DwarfAddr
  deriving DecidableEq, Repr

/-- The address to which the loop moves after a success at `p`, before `++p`. -/
def FdeInfo.skipAhead (info : FdeInfo) (p : DwarfAddr) : DwarfAddr :=
  if p < info.subsequentPc then info.subsequentPc - 1 else p

/-- One iteration of the outer loop of `GetCfa`, or its end. -/
def cfaRound (context : Context) (fde : Fde) (s : CfaLoop) (fuel : ℕ) :
    Bounded (CfaLoop ⊕ DwarfAddr) :=
  if s.p < fde.highPc then
    match fde.infoForCfa s.p with
    | none => some (.ok (.inl ⟨s.p + 1, s.cfa⟩))
    | some info =>
      (getReg fuel context .cfa s.p info).andThen fun cfa =>
        if cfa = maxDwarfAddr then some (.ok (.inl ⟨s.p + 1, cfa⟩))
        else
          let p := info.skipAhead s.p
          (otherRegs fuel context fde p (List.finRange 33) { info with cfa := cfa }).andThen
            fun _ => some (.ok (if info.hasMoreRows then .inl ⟨p + 1, cfa⟩ else .inr cfa))
  else some (.ok (.inr s.cfa))

/-- The answers of `dwarf_get_fde_list_eh` and `dwarf_get_fde_list`. -/
structure FrameSections where
  ehFrame : Dlv (List Fde)
  debugFrame : Dlv (List Fde)

/-- `DwarfFrames::GetAllFde`: the field `fde_data`, `none` if it stays null. The
function itself always returns `true`. -/
def getAllFde (dbg : FrameSections) : Option (List Fde) :=
  match dbg.ehFrame with
  | .ok fdes => some fdes
  | _ =>
    match dbg.debugFrame with
    | .ok fdes => some fdes
    | _ => none

/-- `dwarf_get_fde_at_pc`: the FDE that contains the pc. -/
def getFdeAtPc (fdeData : Option (List Fde)) (pc : DwarfAddr) : Option Fde :=
  (fdeData.getD []).find? fun fde => fde.lowPc ≤ pc && pc < fde.highPc

/-- `DwarfFrames::GetCfa`. -/
def getCfa (dbg : FrameSections) (context : Context) (pc : DwarfAddr) (fuel : ℕ) :
    Bounded DwarfAddr :=
  match getFdeAtPc (getAllFde dbg) pc with
  | some fde =>
    Fuel.halting (fun fuel s => (cfaRound context fde s fuel).toStep)
      ⟨fde.lowPc, maxDwarfAddr⟩ fuel
  | none => some (.ok maxDwarfAddr)

end DwarfExpr
