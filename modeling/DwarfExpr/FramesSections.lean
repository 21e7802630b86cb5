import DwarfExpr.FramesCfa

/-!
# Which unwind section `GetCfa` looks in

`GetAllFde` tries `.eh_frame` and then `.debug_frame`, and `GetCfa` looks the pc up in the
first table that there is and in no other. If there is none it looks the pc up all the same:
`GetAllFde` returns the pointer to its result, which is never null, as a `bool`.
-/

namespace DwarfExpr

open Fuel (Returns)

/-- What `GetAllFde` returns. -/
def getAllFdeReturned (dbg : FrameSections) : Bool :=
  match dbg.ehFrame with
  | .ok _ => true
  | _ =>
    match dbg.debugFrame with
    | .ok _ => true
    | _ => true

/-- The tables in which `GetCfa` looks a pc up; `none` is a null table. -/
def getCfaLookups (dbg : FrameSections) : List (Option (List Fde)) :=
  if getAllFdeReturned dbg then [getAllFde dbg] else []

/-- The FDEs of both sections. -/
def FrameSections.fdes (dbg : FrameSections) : List Fde :=
  dbg.ehFrame.toOption.getD [] ++ dbg.debugFrame.toOption.getD []

/-- An FDE of one of the sections covers the pc, and its rule for the pc can be
evaluated. -/
def FrameSections.Unwinds (dbg : FrameSections) (context : Context) (pc : DwarfAddr) : Prop :=
  ∃ fde ∈ dbg.fdes, (fde.lowPc ≤ pc ∧ pc < fde.highPc) ∧
    ∃ cfa, fde.RuleValue context pc (some cfa)

/-- `GetCfa` returns an address for a pc that one of the sections unwinds, and without
sections it returns `MAX_DWARF_ADDR` and looks in no table. -/
structure GetCfaUsesSections (dbg : FrameSections) (context : Context) (pc : DwarfAddr) :
    Prop where
  unwound : dbg.Unwinds context pc →
    ∃ c, Returns (getCfa dbg context pc) (.ok c) ∧ c ≠ maxDwarfAddr
  absent : dbg.ehFrame.toOption = none → dbg.debugFrame.toOption = none →
    Returns (getCfa dbg context pc) (.ok maxDwarfAddr) ∧ none ∉ getCfaLookups dbg

/-- `GetAllFde` claims success whatever it has found. -/
theorem getAllFdeReturned_eq_true (dbg : FrameSections) : getAllFdeReturned dbg = true := by
  unfold getAllFdeReturned
  cases dbg.ehFrame <;> cases dbg.debugFrame <;> rfl

/-- The table is that of `.eh_frame` if there is one, and otherwise that of
`.debug_frame`. -/
theorem getAllFde_eq (dbg : FrameSections) :
    getAllFde dbg = dbg.ehFrame.toOption.or dbg.debugFrame.toOption := by
  unfold getAllFde
  cases dbg.ehFrame <;> cases dbg.debugFrame <;> rfl

/-- There is a table exactly if there is a section. -/
theorem getAllFde_eq_none_iff (dbg : FrameSections) :
    getAllFde dbg = none ↔ dbg.ehFrame.toOption = none ∧ dbg.debugFrame.toOption = none := by
  rw [getAllFde_eq, Option.or_eq_none_iff]

/-- A pc without FDE has no CFA. -/
theorem getCfa_of_notFound {dbg : FrameSections} {pc : DwarfAddr}
    (hfde : getFdeAtPc (getAllFde dbg) pc = none) (context : Context) :
    Returns (getCfa dbg context pc) (.ok maxDwarfAddr) := by
  unfold getCfa
  rw [hfde]
  exact ⟨0, rfl⟩

/-- `GetCfa` returns an address exactly if the table that it looks in has an FDE for the pc
whose rows yield one. -/
theorem getCfa_found_iff {dbg : FrameSections} {context : Context} {pc : DwarfAddr} :
    (∃ c, Returns (getCfa dbg context pc) (.ok c) ∧ c ≠ maxDwarfAddr) ↔
      ∃ fde c, getFdeAtPc (getAllFde dbg) pc = some fde ∧ RowsYield context fde fde.rows c ∧
        c ≠ maxDwarfAddr := by
  constructor
  · rintro ⟨c, hreturns, hne⟩
    cases hfde : getFdeAtPc (getAllFde dbg) pc with
    | none =>
      have hmax := getCfa_of_notFound hfde context
      have hc := (getCfa_settles dbg context pc).unique hreturns hmax
      exact absurd (Except.ok.inj hc) hne
    | some fde => exact ⟨fde, c, rfl, (getCfa_returns_iff hfde c).mp hreturns, hne⟩
  · rintro ⟨fde, c, hfde, hyields, hne⟩
    exact ⟨c, (getCfa_returns_iff hfde c).mpr hyields, hne⟩

/-- Both sections can be used exactly if there is one, and the table looked in, that of
`.eh_frame` if there is one, has an FDE for a pc that one of them unwinds, and the rows of
that FDE yield an address. -/
theorem getCfa_usesSections_iff (dbg : FrameSections) (context : Context) (pc : DwarfAddr) :
    GetCfaUsesSections dbg context pc ↔
      (dbg.ehFrame.toOption ≠ none ∨ dbg.debugFrame.toOption ≠ none) ∧
        (dbg.Unwinds context pc → ∃ fde c,
          getFdeAtPc (dbg.ehFrame.toOption.or dbg.debugFrame.toOption) pc = some fde ∧
            RowsYield context fde fde.rows c ∧ c ≠ maxDwarfAddr) := by
  rw [← getAllFde_eq, ← getCfa_found_iff]
  constructor
  · rintro ⟨hunwound, habsent⟩
    refine ⟨?_, hunwound⟩
    by_contra hnone
    obtain ⟨heh, hdebug⟩ := not_or.mp hnone
    obtain ⟨-, hlookups⟩ := habsent (not_not.mp heh) (not_not.mp hdebug)
    have hnull := (getAllFde_eq_none_iff dbg).mpr ⟨not_not.mp heh, not_not.mp hdebug⟩
    rw [getCfaLookups, if_pos (getAllFdeReturned_eq_true dbg), hnull] at hlookups
    exact hlookups (List.mem_singleton.mpr rfl)
  · rintro ⟨hsome, hunwound⟩
    refine ⟨hunwound, fun heh hdebug => ?_⟩
    rcases hsome with hsome | hsome
    · exact absurd heh hsome
    · exact absurd hdebug hsome

/-- An FDE for start-up code before the addresses of the prologue. -/
def startupFde : Fde where
  lowPc := 0x400
  highPc := 0x500
  rows := [sp7Row 0x400 8]
  lastSubsequentPc := 0
  starts := rfl
  increasing := by decide
  below := by decide

/-- Start-up code in `.eh_frame` and application code in `.debug_frame`. -/
def mixedFrames : FrameSections := ⟨.ok [startupFde], .ok [prologueFde]⟩

/-- A binary without sections. -/
def noFrames : FrameSections := ⟨.noEntry, .noEntry⟩

/-- The FDE of `.debug_frame` covers the pc and its rule has a value, but `GetCfa` returns
`MAX_DWARF_ADDR`. And it looks in a null table if there is no section. -/
theorem mixedFrames_not_usesSections :
    ¬GetCfaUsesSections mixedFrames flatContext 0x1000 ∧
      ¬GetCfaUsesSections noFrames flatContext 0x1000 := by
  constructor
  · rintro ⟨hunwound, -⟩
    obtain ⟨c, hreturns, hne⟩ := hunwound
      ⟨prologueFde, List.mem_append_right _ (List.mem_singleton.mpr rfl), by decide, 0x7008,
        prologueFde_ruleValue⟩
    have hmax : Returns (getCfa mixedFrames flatContext 0x1000) (.ok maxDwarfAddr) := ⟨0, rfl⟩
    have hc := (getCfa_settles mixedFrames flatContext 0x1000).unique hreturns hmax
    exact hne (Except.ok.inj hc)
  · rintro ⟨-, habsent⟩
    exact (habsent rfl rfl).2 (List.mem_singleton.mpr rfl)

end DwarfExpr
