import DwarfExpr.CommandLine
import DwarfExpr.DieReferences
import DwarfExpr.DieWalk
import DwarfExpr.LineLookup
import DwarfExpr.SearcherBatch
import DwarfExpr.StackVariables

/-!
# A run of dwarf2line

`main` reads its arguments, opens the executable, loads the context file if there is one and
answers the addresses one after the other. From one address to the next it keeps the context
and the handle of libdwarf; the context does not change, but the handle has a cursor.
-/

namespace DwarfExpr

open Fuel (Settles)

/-- What libdwarf answers about an executable; a DIE is known by its offset. -/
structure DebugFile where
  units : List CompileUnit
  /-- What is asked of a function DIE for its name, and the DIEs of `dwarf_offdie_b`. -/
  functionDie : DwarfOff → FunctionDie
  functions : DwarfOff → Option FunctionDie
  srcLines : DwarfOff → SrcLines
  addressSize : DwarfOff → Dlv ℕ
  version : DwarfOff → Dlv ℕ
  /-- The answers of `dwarf_attr` and `dwarf_formaddr` about the two addresses of a unit. -/
  lowPcAttr : DwarfOff → Dlv (Dlv DwarfAddr)
  highPcAttr : DwarfOff → Dlv (Dlv DwarfAddr)
  frameBase : DwarfOff → Option LocationAttr
  frames : FrameSections
  info : DebugInfo

/-- What a run finds outside of the program: executables, context files as they are opened, the
memory that is not initialized or lies behind a buffer, and `abi::__cxa_demangle`. -/
structure Surroundings where
  executable : List Char → Dlv DebugFile
  contextFile : List Char → InputStream
  memory : ℕ → ℕ → FrameMemory
  behind : DwarfAddr → DwarfOff → List UInt8
  cxaDemangle : String → Option String

/-- The line of a variable. -/
structure PrintedVar where
  typeName : String
  name : String
  size : DwarfUnsigned
  value : String
  deriving DecidableEq, Repr

/-- What is printed behind the line of the source file, or which error ends the output for the
address there. -/
inductive AddressDetails where
  | noAddressSize
  | noVersion
  | details (vars : Option (List PrintedVar × List PrintedVar)) (cfa : Option DwarfAddr)
  deriving DecidableEq, Repr

/-- What is printed for an address that is found. A line number is `none` where a question mark
is printed for it. -/
structure AddressReport where
  functionName : Option String
  fileName : String
  lineNumber : Option DwarfUnsigned
  details : AddressDetails
  deriving DecidableEq, Repr

/-- What is printed for an address. -/
inductive AddressAnswer where
  | notFound
  | found (report : AddressReport)
  deriving DecidableEq, Repr

/-- How a run ends. -/
inductive MainResult where
  | usage
  | missingInput
  | missingAddress
  | uncaughtException
  | noExecutable
  | ran (answers : List AddressAnswer)
  deriving DecidableEq, Repr

/-- A call for each entry of a list, in order; the first one that fails ends the sequence. -/
def forEach {ε α β : Type} (f : α → Fuel.Bounded ε β) : List α → Fuel.Bounded ε (List β)
  | [] => some (.ok [])
  | a :: rest => (f a).andThen fun b => (forEach f rest).andThen fun bs => some (.ok (b :: bs))

/-- `getAttrValueAddr`. -/
def getAttrValueAddr (attr : Dlv (Dlv DwarfAddr)) (defVal : DwarfAddr) : DwarfAddr :=
  match attr with
  | .ok (.ok addr) => addr
  | _ => defVal

/-- What can be seen from a DIE of a forest on. -/
def forestFrom (offset : DwarfOff) : DieForest → DieForest
  | .absent => .absent
  | .unreadable => .unreadable
  | .node die children siblings =>
    if die.offset = offset then .node die children siblings
    else
      match forestFrom offset children with
      | .node die children siblings => .node die children siblings
      | _ => forestFrom offset siblings

/-- What can be seen from a DIE of one of the units on. -/
def DebugFile.forestAt (dbg : DebugFile) (cuDie funcDie : DwarfDie) : DieForest :=
  match dbg.units.find? fun u => u.cuDie = cuDie with
  | some u => forestFrom funcDie.offset u.tree
  | none => .absent

section Main

variable (env : Surroundings) (fuel : ℕ)

/-- `print_var`. -/
def printVar (gDwarfContext : Option DwarfContext) (exprCtx : Context) (pc : DwarfAddr)
    (var : DwarfVar) : Fuel.Bounded MainUndefined PrintedVar :=
  match gDwarfContext with
  | none => some (.ok ⟨var.type.name, var.name, var.type.size, ".."⟩)
  | some _ =>
    match var.evalValue (env.behind pc var.offset) fuel exprCtx pc with
    | none => none
    | some (.error cause) => some (.error (.inVariable cause))
    | some (.ok shown) => some (.ok ⟨var.type.name, var.name, var.type.size, shown.text⟩)

/-- `expr_ctx` of a found function, before its CFA provider is set. -/
def DebugFile.exprContext (dbg : DebugFile) (gDwarfContext : Option DwarfContext)
    (cuDie funcDie : DwarfDie) : Context :=
  DwarfExpr.exprContext gDwarfContext (getAttrValueAddr (dbg.lowPcAttr cuDie.offset) 0)
    (getAttrValueAddr (dbg.highPcAttr cuDie.offset) 0)
    ((dbg.frameBase funcDie.offset).bind DwarfLocation.load)

/-- The parameters and the locals of a function as they are printed. -/
def printVars (dbg : DebugFile) (gDwarfContext : Option DwarfContext) (cuDie funcDie : DwarfDie)
    (pc : DwarfAddr) : Fuel.Bounded MainUndefined (List PrintedVar × List PrintedVar) :=
  let exprCtx := exprCtxAt fuel dbg.frames (dbg.exprContext gDwarfContext cuDie funcDie)
  (loadVars fuel dbg.info cuDie (dbg.forestAt cuDie funcDie)).andThen fun collected =>
    (forEach (printVar env fuel gDwarfContext exprCtx pc) collected.params).andThen fun params =>
      (forEach (printVar env fuel gDwarfContext exprCtx pc) collected.locals).andThen fun locals =>
        some (.ok (params, locals))

/-- The CFA as it is printed. -/
def printCfa (dbg : DebugFile) (exprCtx : Context) (pc : DwarfAddr) :
    Fuel.Bounded MainUndefined DwarfAddr :=
  match getCfa dbg.frames exprCtx pc fuel with
  | none => none
  | some (.error cause) => some (.error (.inCfa cause))
  | some (.ok cfa) => some (.ok cfa)

/-- A part of the output that is asked for or not. -/
def whenAsked {α : Type} (asked : Bool) (output : Fuel.Bounded MainUndefined α) :
    Fuel.Bounded MainUndefined (Option α) :=
  if asked then output.andThen fun a => some (.ok (some a)) else some (.ok none)

/-- The body of the loop of `main` for an address that is found. The CFA is printed with
`expr_ctx`, whose CFA provider is set by then. -/
def reportFound (args : CommandArgs) (dbg : DebugFile) (gDwarfContext : Option DwarfContext)
    (pc : DwarfAddr) (cuDie funcDie : DwarfDie) : Fuel.Bounded MainUndefined AddressReport :=
  let name : Fuel.Bounded MainUndefined String :=
    (getFunctionName env.cxaDemangle args.demangle "?" dbg.functions fuel
      (dbg.functionDie funcDie.offset)).map .ok
  (whenAsked args.printFuncName name).andThen fun functionName =>
    match getFileNameAndLineNumber (dbg.srcLines cuDie.offset) pc ("?", maxDwarfUnsigned) with
    | none => some (.error .nullString)
    | some (fileName, line) =>
      let lineNumber := if line ≠ maxDwarfUnsigned then some line else none
      match dbg.addressSize funcDie.offset with
      | .ok _ =>
        match dbg.version funcDie.offset with
        | .ok _ =>
          (whenAsked (args.showLocals || args.showParams)
            (printVars env fuel dbg gDwarfContext cuDie funcDie pc)).andThen fun vars =>
            (whenAsked args.printCfi
              (printCfa fuel dbg
                (exprCtxAt fuel dbg.frames (dbg.exprContext gDwarfContext cuDie funcDie))
                pc)).andThen fun cfa =>
              some (.ok ⟨functionName, fileName, lineNumber, .details vars cfa⟩)
        | _ => some (.ok ⟨functionName, fileName, lineNumber, .noVersion⟩)
      | _ => some (.ok ⟨functionName, fileName, lineNumber, .noAddressSize⟩)

/-- What is printed for the answer of a search. -/
def answerOf (args : CommandArgs) (dbg : DebugFile) (gDwarfContext : Option DwarfContext)
    (pc : DwarfAddr) : Option FoundFunction → Fuel.Bounded MainUndefined AddressAnswer
  | none => some (.ok .notFound)
  | some ⟨_, none⟩ => some (.error .noFunctionDie)
  | some ⟨cuDie, some funcDie⟩ =>
    (reportFound env fuel args dbg gDwarfContext pc cuDie funcDie).andThen fun report =>
      some (.ok (.found report))

/-- The loop of `main` over the addresses, from a cursor of the handle. -/
def answerAll (args : CommandArgs) (dbg : DebugFile) (gDwarfContext : Option DwarfContext) :
    CuCursor → List DwarfAddr → Fuel.Bounded MainUndefined (List AddressAnswer)
  | _, [] => some (.ok [])
  | cursor, address :: rest =>
    (answerOf env fuel args dbg gDwarfContext address
        (searchFunction dbg.units cursor address).1).andThen fun answer =>
      (answerAll args dbg gDwarfContext (searchFunction dbg.units cursor address).2 rest).andThen
        fun answers => some (.ok (answer :: answers))

/-- `gDwarfContext` after the context file has been loaded, if one is given. -/
def loadContext (args : CommandArgs) : Fuel.Bounded MainUndefined (Option DwarfContext) :=
  if args.evalValue then
    match loadDwarfContextFile env.memory (env.contextFile args.ctxFile) ⟨.zero 12, []⟩ with
    | none => some (.error .inContextFile)
    | some (true, ctx) => some (.ok (some ctx))
    | some (false, _) => some (.ok none)
  else some (.ok none)

/-- `main` behind the loop over its arguments. -/
def runArgs (args : CommandArgs) : Fuel.Bounded MainUndefined MainResult :=
  if args.input = [] then some (.ok .missingInput)
  else if args.addresses = [] then some (.ok .missingAddress)
  else
    match env.executable args.input with
    | .ok dbg =>
      (loadContext env args).andThen fun gDwarfContext =>
        (answerAll env fuel args dbg gDwarfContext 0 args.addresses).andThen fun answers =>
          some (.ok (.ran answers))
    | _ => some (.ok .noExecutable)

/-- `main` of dwarf2line. -/
def dwarf2line (arguments : List (List Char)) : Fuel.Bounded MainUndefined MainResult :=
  match parseArgs .init arguments with
  | .parsed args => runArgs env fuel args
  | .usage => some (.ok .usage)
  | .nullString => some (.error .nullString)
  | .invalidArgument => some (.ok .uncaughtException)
  | .outOfRange => some (.ok .uncaughtException)


end Main

section Contexts

variable (dbg : FrameSections) (context : Context)

/-- An evaluation in `expr_ctx` settles, with one fuel for it and for the CFA provider. -/
theorem evaluate_exprCtxAt_settles (pc : DwarfAddr) (expr : DwarfExpression) (stack : EvalStack) :
    Settles fun fuel => evaluate fuel (exprCtxAt fuel dbg context) pc expr stack := by
  intro m n hmn
  have hcfa := getCfa_settles dbg context.bound pc hmn
  rcases @evaluate_refines_cfa context pc (fun pc => getCfa dbg context.bound pc m)
    (fun pc => getCfa dbg context.bound pc n) hcfa m expr stack with hnone | hsame
  · exact Or.inl hnone
  · rcases evaluate_settles (exprCtxAt n dbg context) pc expr stack hmn with hnone | hmore
    · exact Or.inl (hsame.trans hnone)
    · exact Or.inr (hsame.trans hmore)

/-- The value of a location in `expr_ctx` settles. -/
theorem DwarfLocation.evalValue_exprCtxAt_settles (location : DwarfLocation) (pc : DwarfAddr) :
    Settles fun fuel => location.evalValue fuel (exprCtxAt fuel dbg context) pc := by
  have haccepts (fuel : ℕ) : (exprCtxAt fuel dbg context).accepts pc = context.accepts pc := rfl
  simp only [DwarfLocation.evalValue, DwarfLocation.select_eq_find?, haccepts]
  cases location.exprs.find? (context.accepts pc) with
  | none => exact Fuel.settles_const _
  | some e =>
    intro m n hmn
    rcases evaluate_exprCtxAt_settles dbg context pc e.expr [] hmn with h | h
    · exact Or.inl (by simp only [h, Option.map_none])
    · exact Or.inr (by simp only [h])

/-- `EvalExpr` in `expr_ctx` settles. -/
theorem evalExpr_exprCtxAt_settles (pc : DwarfAddr) (info : FdeInfo) :
    Settles fun fuel => evalExpr fuel (exprCtxAt fuel dbg context) pc info := by
  unfold evalExpr
  cases exprOfBlock info.block with
  | none => exact Fuel.settles_const _
  | some expr =>
    exact (evaluate_exprCtxAt_settles dbg context pc expr []).andThen fun _ => Fuel.settles_const _

/-- `GetReg` in `expr_ctx` settles. -/
theorem getReg_exprCtxAt_settles (i : FrameColumn) (pc : DwarfAddr) (info : FdeInfo) :
    Settles fun fuel => getReg fuel (exprCtxAt fuel dbg context) i pc info := by
  have hexpr := evalExpr_exprCtxAt_settles dbg context pc info
  unfold getReg
  by_cases hmark : (info.valueType = .offset ∨ info.valueType = .valOffset) ∧
      (info.reg = .undefinedVal ∨ info.reg = .sameVal)
  · simp only [if_pos hmark]
    exact Fuel.settles_const _
  · simp only [if_neg hmark]
    cases info.valueType with
    | offset => exact @Fuel.settles_const _ (if info.offsetRelevant ≠ 0 ∧ i ≠ .cfa then
        context.readAddr (info.cfa + info.offset) else context.registerPlus info.reg info.offset)
    | valOffset => exact Fuel.settles_const _
    | expression => exact hexpr.andThen fun a => Fuel.settles_const (context.readAddr a)
    | valExpression => exact hexpr
    | other => exact Fuel.settles_const _

/-- The loop over the registers in `expr_ctx` settles. Induction on the registers. -/
theorem otherRegs_exprCtxAt_settles (fde : Fde) (p : DwarfAddr) (xs : List (Fin 33))
    (info : FdeInfo) :
    Settles fun fuel => otherRegs fuel (exprCtxAt fuel dbg context) fde p xs info := by
  induction xs generalizing info with
  | nil => exact Fuel.settles_const _
  | cons x xs ih =>
    unfold otherRegs
    cases fde.infoForReg x p info with
    | none => exact ih info
    | some info' =>
      by_cases hrow : info'.rowPc ≠ p
      · simpa only [if_pos hrow] using ih info'
      · simp only [if_neg hrow]
        exact (getReg_exprCtxAt_settles dbg context (.reg x) p info').andThen fun _ => ih info'

/-- A round of `GetCfa` in `expr_ctx` settles. -/
theorem cfaRound_exprCtxAt_settles (fde : Fde) (s : CfaLoop) :
    Settles fun fuel => cfaRound (exprCtxAt fuel dbg context) fde s fuel := by
  by_cases hp : s.p < fde.highPc
  · cases hinfo : fde.infoForCfa s.p with
    | none =>
      simp only [cfaRound_of_noInfo hp hinfo]
      exact Fuel.settles_const _
    | some info =>
      simp only [cfaRound_eq hp hinfo]
      apply (getReg_exprCtxAt_settles dbg context .cfa s.p info).andThen
      intro cfa
      unfold roundAfterCfa
      by_cases hmax : cfa = maxDwarfAddr
      · simp only [if_pos hmax]
        exact Fuel.settles_const _
      · simp only [if_neg hmax]
        exact (otherRegs_exprCtxAt_settles dbg context fde _ _ _).andThen
          fun _ => Fuel.settles_const _
  · simp only [cfaRound_of_not_lt hp]
    exact Fuel.settles_const _

/-- `GetCfa` in `expr_ctx` settles. -/
theorem getCfa_exprCtxAt_settles (pc : DwarfAddr) :
    Settles fun fuel => getCfa dbg (exprCtxAt fuel dbg context) pc fuel := by
  unfold getCfa
  cases getFdeAtPc (getAllFde dbg) pc with
  | none => exact Fuel.settles_const _
  | some fde =>
    exact (@Fuel.settlingSteps_of_rounds _ _ _
      (fun s fuel => cfaRound (exprCtxAt fuel dbg context) fde s fuel)
      (cfaRound_exprCtxAt_settles dbg context fde)).settles _

end Contexts

/-- Looking for the name of a function settles. Induction on the fuel. -/
theorem getFunctionName_settles (cxaDemangle : String → Option String) (demangle : Bool)
    (defVal : String) (functions : DwarfOff → Option FunctionDie) (die : FunctionDie) :
    Settles fun fuel => getFunctionName cxaDemangle demangle defVal functions fuel die := by
  intro m n hmn
  induction m generalizing n die with
  | zero => exact Or.inl rfl
  | succ m ih =>
    obtain ⟨k, rfl⟩ : ∃ k, n = k + 1 := ⟨n - 1, by omega⟩
    simp only [getFunctionName]
    cases die.ownName cxaDemangle demangle defVal with
    | some name => exact Or.inr rfl
    | none =>
      cases die.specification with
      | noEntry | error => exact Or.inr rfl
      | ok attr =>
        by_cases href : getAttrGlobalRef attr maxDwarfUnsigned ≠ maxDwarfUnsigned
        · simp only [if_pos href]
          cases functions (getAttrGlobalRef attr maxDwarfUnsigned) with
          | none => exact Or.inr rfl
          | some refDie => exact ih refDie (by omega)
        · simp only [if_neg href, or_true]

section Run

variable (env : Surroundings) (args : CommandArgs) (dbg : DebugFile)
  (gDwarfContext : Option DwarfContext)

/-- Calls that settle, one for each entry of a list. -/
theorem forEach_settles {ε α β : Type} {f : α → ℕ → Fuel.Bounded ε β} (hf : ∀ a, Settles (f a))
    (entries : List α) : Settles fun fuel => forEach (fun a => f a fuel) entries := by
  induction entries with
  | nil => exact Fuel.settles_const _
  | cons a rest ih => exact (hf a).andThen fun b => ih.andThen fun bs => Fuel.settles_const _

/-- A part of the output settles, whether it is asked for or not. -/
theorem whenAsked_settles {α : Type} (asked : Bool) {output : ℕ → Fuel.Bounded MainUndefined α}
    (houtput : Settles output) : Settles fun fuel => whenAsked asked (output fuel) := by
  unfold whenAsked
  cases asked with
  | false => exact Fuel.settles_const _
  | true => exact houtput.andThen fun a => Fuel.settles_const _

/-- Printing a variable settles. -/
theorem printVar_settles (context : Context) (pc : DwarfAddr) (var : DwarfVar) :
    Settles fun fuel =>
      printVar env fuel gDwarfContext (exprCtxAt fuel dbg.frames context) pc var := by
  unfold printVar
  cases gDwarfContext with
  | none => exact Fuel.settles_const _
  | some ctx =>
    unfold DwarfVar.evalValue
    cases var.location with
    | none => exact Fuel.settles_const _
    | some location =>
      intro m n hmn
      rcases location.evalValue_exprCtxAt_settles dbg.frames context pc hmn with h | h
      · exact Or.inl (by simp only [h])
      · exact Or.inr (by simp only [h]; rfl)

/-- Printing the variables of a function settles. -/
theorem printVars_settles (cuDie funcDie : DwarfDie) (pc : DwarfAddr) :
    Settles fun fuel => printVars env fuel dbg gDwarfContext cuDie funcDie pc := by
  have hvar := printVar_settles env dbg gDwarfContext (dbg.exprContext gDwarfContext cuDie funcDie)
    pc
  unfold printVars
  apply (loadAll_settles dbg.info ⟨[], []⟩
    ((walkDIE 1 cuDie (dbg.forestAt cuDie funcDie) 0).map DieVisit.die)).andThen
  intro collected
  exact (forEach_settles hvar collected.params).andThen fun params =>
    (forEach_settles hvar collected.locals).andThen fun locals => Fuel.settles_const _

/-- Printing the CFA settles. -/
theorem printCfa_settles (context : Context) (pc : DwarfAddr) :
    Settles fun fuel => printCfa fuel dbg (exprCtxAt fuel dbg.frames context) pc := by
  intro m n hmn
  unfold printCfa
  rcases getCfa_exprCtxAt_settles dbg.frames context pc hmn with h | h
  · exact Or.inl (by simp only [h])
  · exact Or.inr (by simp only [h])

/-- The output for a found address settles. -/
theorem reportFound_settles (pc : DwarfAddr) (cuDie funcDie : DwarfDie) :
    Settles fun fuel => reportFound env fuel args dbg gDwarfContext pc cuDie funcDie := by
  have hname := getFunctionName_settles env.cxaDemangle args.demangle "?" dbg.functions
    (dbg.functionDie funcDie.offset)
  unfold reportFound
  apply (whenAsked_settles args.printFuncName ?_).andThen
  · intro functionName
    cases getFileNameAndLineNumber (dbg.srcLines cuDie.offset) pc ("?", maxDwarfUnsigned) with
    | none => exact Fuel.settles_const _
    | some fileLine =>
      cases dbg.addressSize funcDie.offset with
      | noEntry | error => exact Fuel.settles_const _
      | ok _ =>
        cases dbg.version funcDie.offset with
        | noEntry | error => exact Fuel.settles_const _
        | ok _ =>
          exact (whenAsked_settles _ (printVars_settles env dbg gDwarfContext cuDie funcDie
              pc)).andThen fun vars =>
            (whenAsked_settles _ (printCfa_settles dbg _ pc)).andThen fun cfa =>
              Fuel.settles_const _
  · intro m n hmn
    rcases hname hmn with h | h
    · exact Or.inl (by simp only [h, Option.map_none])
    · exact Or.inr (by simp only [h])

/-- The output for an address settles. -/
theorem answerOf_settles (pc : DwarfAddr) (found : Option FoundFunction) :
    Settles fun fuel => answerOf env fuel args dbg gDwarfContext pc found := by
  rcases found with _ | ⟨cuDie, _ | funcDie⟩
  · exact Fuel.settles_const _
  · exact Fuel.settles_const _
  · exact (reportFound_settles env args dbg gDwarfContext pc cuDie funcDie).andThen
      fun report => Fuel.settles_const _

/-- The loop over the addresses settles. Induction on the addresses. -/
theorem answerAll_settles (cursor : CuCursor) (addresses : List DwarfAddr) :
    Settles fun fuel => answerAll env fuel args dbg gDwarfContext cursor addresses := by
  induction addresses generalizing cursor with
  | nil => exact Fuel.settles_const _
  | cons address rest ih =>
    exact (answerOf_settles env args dbg gDwarfContext address _).andThen fun answer =>
      (ih _).andThen fun answers => Fuel.settles_const _

end Run

end DwarfExpr
