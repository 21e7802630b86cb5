import DwarfExpr.Dwarf2lineMain
import DwarfExpr.UnloadedVariables
import Mathlib.Data.List.Forall2

/-!
# Runs with many addresses and with one

A command line with many addresses prints for each of them what the command line with that
address alone prints, or that it is not found. All are printed as they are alone exactly if
each address lies in a later unit than the one before it.
-/

namespace DwarfExpr

open Fuel (Returns Settles)
open List (Forall₂)

/-- A run with these arguments comes to its end and prints these answers. -/
def Prints (env : Surroundings) (arguments : List (List Char)) (answers : List AddressAnswer) :
    Prop :=
  Returns (fun fuel => dwarf2line env fuel arguments) (.ok (.ran answers))

section

variable {env : Surroundings} {args : CommandArgs} {dbg : DebugFile}
  {gDwarfContext : Option DwarfContext} {address : DwarfAddr}

/-- What is printed for the answer of a search. -/
def PrintsFor (env : Surroundings) (args : CommandArgs) (dbg : DebugFile)
    (gDwarfContext : Option DwarfContext) (address : DwarfAddr) (found : Option FoundFunction)
    (answer : AddressAnswer) : Prop :=
  Returns (fun fuel => answerOf env fuel args dbg gDwarfContext address found) (.ok answer)

/-- One answer is printed. -/
theorem PrintsFor.unique {found : Option FoundFunction} {a b : AddressAnswer}
    (ha : PrintsFor env args dbg gDwarfContext address found a)
    (hb : PrintsFor env args dbg gDwarfContext address found b) : a = b :=
  Except.ok.inj ((answerOf_settles env args dbg gDwarfContext address found).unique ha hb)

/-- For a search without an answer it is printed that nothing is found. -/
theorem printsFor_none (env : Surroundings) (args : CommandArgs) (dbg : DebugFile)
    (gDwarfContext : Option DwarfContext) (address : DwarfAddr) :
    PrintsFor env args dbg gDwarfContext address none .notFound := ⟨0, rfl⟩

/-- That nothing is found is printed only then. -/
theorem PrintsFor.eq_none {found : Option FoundFunction}
    (h : PrintsFor env args dbg gDwarfContext address found .notFound) : found = none := by
  rcases found with _ | ⟨cuDie, _ | funcDie⟩
  · rfl
  · obtain ⟨fuel, hfuel⟩ := h
    cases hfuel
  · have hreport := (Fuel.returns_andThen_iff
      (reportFound_settles env args dbg gDwarfContext address cuDie funcDie)
      fun report => Fuel.settles_const _).mp h
    obtain ⟨report, -, hanswer⟩ := hreport
    cases Except.ok.inj (Fuel.returns_const_iff.mp hanswer)

/-- The loop over the addresses prints an answer for each, by what the searches answer.
Induction on the addresses. -/
theorem answerAll_returns_iff {addresses : List DwarfAddr} {cursor : CuCursor}
    {answers : List AddressAnswer} :
    Returns (fun fuel => answerAll env fuel args dbg gDwarfContext cursor addresses)
        (.ok answers) ↔
      Forall₂ (fun (asked : DwarfAddr × Option FoundFunction) answer =>
          PrintsFor env args dbg gDwarfContext asked.1 asked.2 answer)
        (addresses.zip (searchFunctions dbg.units cursor addresses)) answers := by
  induction addresses generalizing cursor answers with
  | nil =>
    rw [List.zip_nil_left, List.forall₂_nil_left_iff]
    constructor
    · rintro ⟨fuel, hfuel⟩
      exact (Except.ok.inj (Option.some.inj hfuel)).symm
    · rintro rfl
      exact ⟨0, rfl⟩
  | cons address rest ih =>
    have hrest (answer : AddressAnswer) := (answerAll_settles env args dbg gDwarfContext
      (searchFunction dbg.units cursor address).2 rest).andThen fun answers =>
        Fuel.settles_const (some (Except.ok (answer :: answers) : Except MainUndefined _))
    rw [searchFunctions, List.zip_cons_cons, List.forall₂_cons_left_iff]
    simp only [answerAll]
    rw [Fuel.returns_andThen_iff (answerOf_settles env args dbg gDwarfContext address _) hrest]
    apply exists_congr
    intro answer
    rw [Fuel.returns_andThen_iff (answerAll_settles env args dbg gDwarfContext _ rest)
      fun answers => Fuel.settles_const _]
    constructor
    · rintro ⟨hanswer, answers', hanswers, heq⟩
      refine ⟨answers', hanswer, ih.mp hanswers, ?_⟩
      exact (Except.ok.inj (Fuel.returns_const_iff.mp heq)).symm
    · rintro ⟨answers', hanswer, hanswers, rfl⟩
      exact ⟨hanswer, answers', ih.mpr hanswers, ⟨0, rfl⟩⟩

/-- A run prints the answers of the loop, with the context that has been loaded. -/
theorem prints_iff {arguments : List (List Char)} {answers : List AddressAnswer}
    (hparse : parseArgs .init arguments = .parsed args)
    (hopen : env.executable args.input = .ok dbg) :
    Prints env arguments answers ↔
      args.input ≠ [] ∧ args.addresses ≠ [] ∧
        ∃ gDwarfContext, loadContext env args = some (.ok gDwarfContext) ∧
          Forall₂ (fun (asked : DwarfAddr × Option FoundFunction) answer =>
              PrintsFor env args dbg gDwarfContext asked.1 asked.2 answer)
            (args.addresses.zip (searchFunctions dbg.units 0 args.addresses)) answers := by
  simp only [Prints, dwarf2line, hparse, runArgs]
  by_cases hinput : args.input = []
  · simp only [if_pos hinput]
    refine iff_of_false ?_ fun h => h.1 hinput
    rintro ⟨fuel, hfuel⟩
    cases hfuel
  by_cases hnone : args.addresses = []
  · simp only [if_neg hinput, if_pos hnone]
    refine iff_of_false ?_ fun h => h.2.1 hnone
    rintro ⟨fuel, hfuel⟩
    cases hfuel
  rw [and_iff_right hinput, and_iff_right hnone]
  simp only [if_neg hinput, if_neg hnone, hopen]
  cases hload : loadContext env args with
  | none =>
    refine iff_of_false ?_ ?_
    · rintro ⟨fuel, hfuel⟩
      cases hfuel
    · rintro ⟨gDwarfContext, hsome, -⟩
      cases hsome
  | some loaded =>
    cases loaded with
    | error cause =>
      refine iff_of_false ?_ ?_
      · rintro ⟨fuel, hfuel⟩
        cases Option.some.inj hfuel
      · rintro ⟨gDwarfContext, hsome, -⟩
        cases Option.some.inj hsome
    | ok gDwarfContext =>
      simp only [Fuel.Bounded.andThen_ok]
      rw [Fuel.returns_andThen_iff (answerAll_settles env args dbg gDwarfContext 0 args.addresses)
        fun answers => Fuel.settles_const _]
      constructor
      · rintro ⟨answers', hanswers, heq⟩
        have hsame : answers' = answers := by
          injection Except.ok.inj (Fuel.returns_const_iff.mp heq)
        rw [hsame] at hanswers
        exact ⟨gDwarfContext, rfl, answerAll_returns_iff.mp hanswers⟩
      · rintro ⟨gDwarfContext', hsome, hanswers⟩
        obtain rfl := Except.ok.inj (Option.some.inj hsome)
        exact ⟨answers, answerAll_returns_iff.mpr hanswers, ⟨0, rfl⟩⟩

/-- The command line with one of the addresses alone prints for it what a fresh search finds. -/
theorem prints_alone_iff {arguments : List (List Char)} {answer : AddressAnswer}
    (hparse : parseArgs .init arguments = .parsed { args with addresses := [address] })
    (hopen : env.executable args.input = .ok dbg) :
    Prints env arguments [answer] ↔
      args.input ≠ [] ∧ ∃ gDwarfContext, loadContext env args = some (.ok gDwarfContext) ∧
        PrintsFor env args dbg gDwarfContext address (freshAnswer dbg.units address) answer := by
  rw [prints_iff hparse hopen]
  apply and_congr_right
  intro _
  rw [and_iff_right (by simp)]
  apply exists_congr
  intro gDwarfContext
  apply and_congr_right
  intro _
  rw [searchFunctions, searchFunctions, List.zip_cons_cons, List.zip_nil_left, List.forall₂_cons,
    and_iff_left .nil]
  exact Iff.rfl

/-- Answers of searches that find nothing or what a fresh one finds are printed as nothing or
as they are alone. Induction on the addresses. -/
theorem exists_printed {addresses : List DwarfAddr} {founds : List (Option FoundFunction)}
    {fresh : DwarfAddr → Option FoundFunction} {singles : List AddressAnswer}
    (hfounds : Forall₂ (fun address found => found = none ∨ found = fresh address) addresses
      founds)
    (hsingles : Forall₂ (fun address answer =>
      PrintsFor env args dbg gDwarfContext address (fresh address) answer) addresses singles) :
    ∃ answers, Forall₂ (fun (asked : DwarfAddr × Option FoundFunction) answer =>
        PrintsFor env args dbg gDwarfContext asked.1 asked.2 answer) (addresses.zip founds)
        answers ∧
      Forall₂ (fun answer single => answer = .notFound ∨ answer = single) answers singles ∧
      (answers = singles ↔ founds = addresses.map fresh) := by
  induction hfounds generalizing singles with
  | nil =>
    cases hsingles
    exact ⟨[], .nil, .nil, iff_of_true rfl rfl⟩
  | @cons address found rest founds' hfound hrest ih =>
    cases hsingles with
    | @cons _ single _ singles' hsingle hsingles' =>
      obtain ⟨answers, hprinted, hsame, hiff⟩ := ih hsingles'
      rcases hfound with rfl | rfl
      · refine ⟨.notFound :: answers, .cons (printsFor_none env args dbg gDwarfContext address)
          hprinted, .cons (Or.inl rfl) hsame, ?_⟩
        rw [List.map_cons, List.cons.injEq, List.cons.injEq, hiff]
        apply and_congr_left'
        constructor
        · rintro rfl
          exact hsingle.eq_none.symm
        · intro hnone
          rw [← hnone] at hsingle
          exact (printsFor_none env args dbg gDwarfContext address).unique hsingle
      · refine ⟨single :: answers, .cons hsingle hprinted, .cons (Or.inr rfl) hsame, ?_⟩
        rw [List.map_cons, List.cons.injEq, List.cons.injEq, hiff]
        simp

/-- A run with many addresses comes to its end if the runs with each of them alone do, and
prints for each address what is printed for it alone or that it is not found. All addresses are
printed as they are alone exactly if each lies in a later unit than the one before it. -/
theorem dwarf2line_batch_iff {arguments : List (List Char)} {alone : DwarfAddr → List (List Char)}
    (hparse : parseArgs .init arguments = .parsed args) (hsome : args.addresses ≠ [])
    (halone : ∀ pc ∈ args.addresses,
      parseArgs .init (alone pc) = .parsed { args with addresses := [pc] })
    (hopen : env.executable args.input = .ok dbg) (hunits : ∀ u ∈ dbg.units, u.Sound)
    (hone : ∀ pc ∈ args.addresses, RevealedOnce dbg.units pc) {singles : List AddressAnswer}
    (hsingles : Forall₂ (fun pc single => Prints env (alone pc) [single]) args.addresses
      singles) :
    ∃ answers, Prints env arguments answers ∧
      Forall₂ (fun answer single => answer = .notFound ∨ answer = single) answers singles ∧
      (answers = singles ↔ args.addresses.IsChain (InLaterUnit dbg.units)) := by
  have hruns : Forall₂ (fun pc single => args.input ≠ [] ∧ ∃ gDwarfContext,
      loadContext env args = some (.ok gDwarfContext) ∧
        PrintsFor env args dbg gDwarfContext pc (freshAnswer dbg.units pc) single)
      args.addresses singles := by
    apply (List.forall₂_and_left _ _ |>.mpr ⟨halone, hsingles⟩).imp
    rintro pc single ⟨hparse', hprints⟩
    exact (prints_alone_iff hparse' hopen).mp hprints
  -- The context is the same in all runs.
  obtain ⟨hinput, gDwarfContext, hload⟩ : args.input ≠ [] ∧ ∃ gDwarfContext,
      loadContext env args = some (.ok gDwarfContext) := by
    cases hlist : args.addresses with
    | nil => exact absurd hlist hsome
    | cons pc rest =>
      rw [hlist] at hruns
      obtain ⟨single, -, ⟨hinput, gDwarfContext, hload, -⟩, -⟩ :=
        List.forall₂_cons_left_iff.mp hruns
      exact ⟨hinput, gDwarfContext, hload⟩
  have hprints : Forall₂ (fun pc single =>
      PrintsFor env args dbg gDwarfContext pc (freshAnswer dbg.units pc) single)
      args.addresses singles := by
    apply hruns.imp
    rintro pc single ⟨-, loaded, hloaded, hprints⟩
    obtain rfl := Except.ok.inj (Option.some.inj (hload.symm.trans hloaded))
    exact hprints
  obtain ⟨answers, hprinted, hsame, hiff⟩ :=
    exists_printed (searchFunctions_none_or_fresh hunits hone 0) hprints
  refine ⟨answers, (prints_iff hparse hopen).mpr ⟨hinput, hsome, gDwarfContext, hload, hprinted⟩,
    hsame, ?_⟩
  rw [hiff, searchFunctions_fresh_iff hunits hone]

end

/-- An executable with one function. -/
def oneFunctionFile : DebugFile where
  units := [unitWithFunction]
  functionDie := fun _ => ⟨.noEntry, .noEntry, .noEntry, .ok "f", .noEntry⟩
  functions := fun _ => none
  srcLines := fun _ => ⟨.ok 1, .ok [⟨.ok 7, .ok "f.c", .ok 0x1000⟩]⟩
  addressSize := fun _ => .ok 8
  version := fun _ => .ok 5
  lowPcAttr := fun _ => .noEntry
  highPcAttr := fun _ => .noEntry
  frameBase := fun _ => none
  frames := ⟨.noEntry, .noEntry⟩
  info := fun _ => none

/-- That executable and no context file. -/
def oneFunctionSurroundings : Surroundings where
  executable := fun _ => .ok oneFunctionFile
  contextFile := fun _ => .ofImage []
  memory := fun _ _ => ⟨.zero 4, .zero 4, fun _ => .zero 8, .zero 4, []⟩
  behind := fun _ _ => []
  cxaDemangle := fun _ => none

/-- The command line `dwarf2line -e a -f` with further arguments. -/
def askNames (addresses : List String) : List (List Char) :=
  ["-e".toList, "a".toList, "-f".toList] ++ addresses.map String.toList

/-- Two addresses of one function. -/
theorem dwarf2line_batch_iff_oneFunction :
    ∃ answers, Prints oneFunctionSurroundings (askNames ["1004", "1008"]) answers ∧
      Forall₂ (fun answer single => answer = .notFound ∨ answer = single) answers
        (List.replicate 2 (.found ⟨some "f", "f.c", some 7, .details none none⟩)) ∧
      (answers = List.replicate 2 (.found ⟨some "f", "f.c", some 7, .details none none⟩) ↔
        [(0x1004 : DwarfAddr), 0x1008].IsChain (InLaterUnit [unitWithFunction])) := by
  refine @dwarf2line_batch_iff oneFunctionSurroundings
    { CommandArgs.init with
      input := "a".toList, printFuncName := true, addresses := [0x1004, 0x1008] }
    oneFunctionFile _ (fun pc => if pc = 0x1004 then askNames ["1004"] else askNames ["1008"])
    ?_ ?_ ?_ ?_ ?_ ?_ _ ?_
  · decide
  · exact List.cons_ne_nil _ _
  · intro pc hpc
    rcases List.mem_cons.mp hpc with rfl | hpc
    · decide
    · rw [List.mem_singleton.mp hpc]
      decide
  · rfl
  · simpa [oneFunctionFile] using unitWithFunction_sound
  · exact fun pc _ => revealedOnce_singleton unitWithFunction pc
  · exact .cons ⟨3, by decide⟩ (.cons ⟨3, by decide⟩ .nil)

/-- What is printed for an address with variables has met no unloadable one. -/
theorem PrintsFor.not_meetsUnloadable {env : Surroundings} {args : CommandArgs} {dbg : DebugFile}
    {gDwarfContext : Option DwarfContext} {pc : DwarfAddr} {cuDie funcDie : DwarfDie}
    {answer : AddressAnswer}
    (h : PrintsFor env args dbg gDwarfContext pc (some ⟨cuDie, some funcDie⟩) answer)
    (hshow : (args.showLocals || args.showParams) = true) {size version : ℕ}
    (hsize : dbg.addressSize funcDie.offset = .ok size)
    (hversion : dbg.version funcDie.offset = .ok version) :
    ¬MeetsUnloadable dbg.info (walkedLevel (dbg.forestAt cuDie funcDie)) := by
  obtain ⟨fuel, hfuel⟩ := h
  obtain ⟨report, hreport, -⟩ := Fuel.Bounded.exists_of_andThen hfuel
  obtain ⟨functionName, -, hrest⟩ := Fuel.Bounded.exists_of_andThen hreport
  have hvars : ∃ vars, whenAsked true (printVars env fuel dbg gDwarfContext cuDie funcDie pc) =
      some (.ok vars) := by
    rcases hline : getFileNameAndLineNumber (dbg.srcLines cuDie.offset) pc
      ("?", maxDwarfUnsigned) with _ | fileLine
    · rw [hline] at hrest
      cases Option.some.inj hrest
    · simp only [hline, hsize, hversion, hshow] at hrest
      obtain ⟨vars, hvars, -⟩ := Fuel.Bounded.exists_of_andThen hrest
      exact ⟨vars, hvars⟩
  obtain ⟨vars, hvars⟩ := hvars
  obtain ⟨printed, hprinted, -⟩ := Fuel.Bounded.exists_of_andThen hvars
  obtain ⟨collected, hcollected, -⟩ := Fuel.Bounded.exists_of_andThen hprinted
  intro hmeets
  rw [loadVars, walkDIE_level_zero] at hcollected
  have hfails := (@loadAll_error_iff _ ⟨[], []⟩ _ .uninitializedLocation).mpr ⟨rfl, hmeets⟩
  cases (loadAll_settles dbg.info ⟨[], []⟩ _).unique hfails ⟨fuel, hcollected⟩

/-- A run that is asked for variables and comes to its end has met no unloadable variable at any
address that is found. -/
theorem Prints.not_meetsUnloadable {env : Surroundings} {args : CommandArgs} {dbg : DebugFile}
    {arguments : List (List Char)} {answers : List AddressAnswer}
    (hprints : Prints env arguments answers) (hparse : parseArgs .init arguments = .parsed args)
    (hopen : env.executable args.input = .ok dbg)
    (hshow : (args.showLocals || args.showParams) = true) {k : ℕ} {pc : DwarfAddr}
    {cuDie funcDie : DwarfDie} (hpc : args.addresses[k]? = some pc)
    (hfound : (searchFunctions dbg.units 0 args.addresses)[k]? = some (some ⟨cuDie, some funcDie⟩))
    {size version : ℕ} (hsize : dbg.addressSize funcDie.offset = .ok size)
    (hversion : dbg.version funcDie.offset = .ok version) :
    ¬MeetsUnloadable dbg.info (walkedLevel (dbg.forestAt cuDie funcDie)) := by
  obtain ⟨-, -, gDwarfContext, -, hanswers⟩ := (prints_iff hparse hopen).mp hprints
  obtain ⟨hlength, hall⟩ := List.forall₂_iff_zip.mp hanswers
  have hasked : (args.addresses.zip (searchFunctions dbg.units 0 args.addresses))[k]? =
      some (pc, some ⟨cuDie, some funcDie⟩) :=
    List.getElem?_zip_eq_some.mpr ⟨hpc, hfound⟩
  have hk : k < answers.length := by
    rw [← hlength]
    exact (List.getElem?_eq_some_iff.mp hasked).1
  have hpair : ((args.addresses.zip (searchFunctions dbg.units 0 args.addresses)).zip
      answers)[k]? = some ((pc, some ⟨cuDie, some funcDie⟩), answers[k]) :=
    List.getElem?_zip_eq_some.mpr ⟨hasked, List.getElem?_eq_getElem hk⟩
  exact (hall (List.mem_of_getElem? hpair)).not_meetsUnloadable hshow hsize hversion

end DwarfExpr
