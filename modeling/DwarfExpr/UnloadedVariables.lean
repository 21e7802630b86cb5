import DwarfExpr.DieWalk
import DwarfExpr.TypeChains

/-!
# Variables that cannot be loaded

`DwarfVar` leaves `location_` uninitialized until everything else has been loaded, and its
destructor deletes it. `main` deletes a variable as soon as loading it fails, which is so for
every variable whose type leads to an array, a union or `void`.
-/

namespace DwarfExpr

open Fuel (Returns Settles)

/-- No type can be loaded at the offset: there is no DIE, or it is of another kind, or it refers
to nothing or to such a type. -/
inductive UnloadableType (info : DebugInfo) : DwarfOff → Prop
  | missing {offset : DwarfOff} (hdie : info offset = none) : UnloadableType info offset
  | untagged {offset : DwarfOff} {die : VarDie} (hdie : info offset = some die)
      (htag : ∀ tag, die.tag ≠ .ok tag) : UnloadableType info offset
  | otherKind {offset : DwarfOff} {die : VarDie} {tag : DwTag} (hdie : info offset = some die)
      (htag : die.tag = .ok tag) (hnamed : tag.isNamedType = false)
      (hderived : tag.isDerivedType = false) : UnloadableType info offset
  | toNothing {offset : DwarfOff} {die : VarDie} {tag : DwTag} (hdie : info offset = some die)
      (htag : die.tag = .ok tag) (hderived : tag.isDerivedType = true)
      (href : die.type.getD maxDwarfUnsigned = maxDwarfUnsigned) : UnloadableType info offset
  | toUnloadable {offset ref : DwarfOff} {die : VarDie} {tag : DwTag}
      (hdie : info offset = some die) (htag : die.tag = .ok tag)
      (hderived : tag.isDerivedType = true) (href : die.type = some ref)
      (hne : ref ≠ maxDwarfUnsigned) (hbase : UnloadableType info ref) : UnloadableType info offset

section Types

variable {info : DebugInfo} {offset : DwarfOff}

/-- A DIE of another kind is not loaded as a type. -/
theorem DwarfType.load_otherKind {die : VarDie} {tag : DwTag} (hdie : info offset = some die)
    (htag : die.tag = .ok tag) (hnamed : tag.isNamedType = false)
    (hderived : tag.isDerivedType = false) (fuel : ℕ) :
    DwarfType.load (fuel + 1) info offset = some none := by
  cases tag <;> simp [DwTag.isNamedType, DwTag.isDerivedType] at hnamed hderived <;>
    simp only [load, hdie, htag]

/-- A type that fails to load is unloadable. Induction on the fuel. -/
theorem unloadableType_of_load {fuel : ℕ} (hload : DwarfType.load fuel info offset = some none) :
    UnloadableType info offset := by
  induction fuel generalizing offset with
  | zero => cases hload
  | succ fuel ih =>
    cases hdie : info offset with
    | none => exact .missing hdie
    | some die =>
      cases htag : die.tag with
      | noEntry | error => exact .untagged hdie (by simp [htag])
      | ok tag =>
        cases hderived : tag.isDerivedType with
        | true =>
          by_cases href : die.type.getD maxDwarfUnsigned = maxDwarfUnsigned
          · exact .toNothing hdie htag hderived href
          · obtain ⟨ref, hsome⟩ : ∃ ref, die.type = some ref := by
              cases htype : die.type with
              | none =>
                rw [htype] at href
                exact absurd rfl href
              | some ref => exact ⟨ref, rfl⟩
            rw [hsome, Option.getD_some] at href
            rw [DwarfType.load_derived hdie htag hderived hsome href] at hload
            have hbase : DwarfType.load fuel info ref = some none := by
              simpa using hload
            exact .toUnloadable hdie htag hderived hsome href (ih hbase)
        | false =>
          cases hnamed : tag.isNamedType with
          | false => exact .otherKind hdie htag hnamed hderived
          | true =>
            obtain ⟨n, hn⟩ := DwarfType.loads_named hdie htag hnamed
            have hsame := (DwarfType.load_settles info offset).unique ⟨fuel + 1, hload⟩ ⟨n, hn⟩
            cases hsame

/-- Loading a type returns false exactly if the type is unloadable. -/
theorem DwarfType.load_fails_iff :
    Returns (fun fuel => DwarfType.load fuel info offset) none ↔ UnloadableType info offset := by
  constructor
  · rintro ⟨fuel, hload⟩
    exact unloadableType_of_load hload
  · intro h
    induction h with
    | missing hdie => exact ⟨1, by simp only [load, hdie]⟩
    | @untagged _ die hdie htag =>
      refine ⟨1, ?_⟩
      cases hdietag : die.tag with
      | ok tag => exact absurd hdietag (htag tag)
      | noEntry | error => simp only [load, hdie, hdietag]
    | otherKind hdie htag hnamed hderived => exact ⟨1, load_otherKind hdie htag hnamed hderived 0⟩
    | toNothing hdie htag hderived href => exact ⟨1, load_void hdie htag hderived href 0⟩
    | toUnloadable hdie htag hderived href hne _ ih =>
      exact fails_derived hdie htag hderived href hne ih

/-- No variable can be loaded at the offset: there is no DIE with a tag, a name and a type, or
the type is unloadable. -/
def UnloadableVar (info : DebugInfo) (offset : DwarfOff) : Prop :=
  ∀ die tag name, info offset = some die → die.tag = .ok tag → die.diename = .ok name →
    die.type.getD maxDwarfUnsigned ≠ maxDwarfUnsigned →
      UnloadableType info (die.type.getD maxDwarfUnsigned)

/-- Loading a variable returns false exactly if the variable is unloadable. -/
theorem DwarfVar.load_fails_iff :
    Returns (fun fuel => DwarfVar.load fuel info offset) none ↔ UnloadableVar info offset := by
  unfold UnloadableVar
  cases hdie : info offset with
  | none => exact iff_of_true ⟨0, by simp only [load, hdie]⟩ (by simp)
  | some die =>
    cases htag : die.tag with
    | noEntry | error =>
      refine iff_of_true ⟨0, by simp only [load, hdie, htag]⟩ ?_
      rintro die' tag name ⟨⟩ htag'
      rw [htag] at htag'
      cases htag'
    | ok tag =>
      cases hname : die.diename with
      | noEntry | error =>
        refine iff_of_true ⟨0, by simp only [load, hdie, htag, hname]⟩ ?_
        rintro die' tag' name ⟨⟩ - hname'
        rw [hname] at hname'
        cases hname'
      | ok name =>
        by_cases href : die.type.getD maxDwarfUnsigned = maxDwarfUnsigned
        · refine iff_of_true ⟨0, by simp [load, hdie, htag, hname, href]⟩ ?_
          rintro die' tag' name' ⟨⟩ - - hne
          exact absurd href hne
        · have hsame : Returns (fun fuel => DwarfVar.load fuel info offset) none ↔
              Returns (fun fuel =>
                DwarfType.load fuel info (die.type.getD maxDwarfUnsigned)) none := by
            apply exists_congr
            intro fuel
            rcases htype : DwarfType.load fuel info (die.type.getD maxDwarfUnsigned) with
              _ | _ | type <;> simp [load, hdie, htag, hname, href, htype]
          rw [hsame, DwarfType.load_fails_iff]
          constructor
          · rintro h die' tag' name' ⟨⟩ - - -
            exact h
          · intro h
            exact h die tag name rfl htag hname href

end Types

section Walk

variable {info : DebugInfo} {collected : CollectedVars} {die : DwarfDie}

/-- The callback fails exactly at a variable that is unloadable. -/
theorem loadOrDelete_error_iff {cause : MainUndefined} :
    Returns (fun fuel => loadOrDelete fuel info collected die) (.error cause) ↔
      cause = .uninitializedLocation ∧ die.isVar = true ∧ UnloadableVar info die.offset := by
  cases hvar : die.isVar with
  | false =>
    refine iff_of_false ?_ (by simp)
    rintro ⟨fuel, hfuel⟩
    cases (loadOrDelete_of_not_isVar hvar fuel).symm.trans hfuel
  | true =>
    obtain ⟨add, hadd, -⟩ := exists_loadOrDelete_eq info collected hvar
    rw [← DwarfVar.load_fails_iff, and_iff_right rfl]
    simp only [hadd]
    constructor
    · rintro ⟨fuel, hfuel⟩
      obtain ⟨answer, hload, hanswer⟩ := Option.map_eq_some_iff.mp hfuel
      cases answer with
      | none => exact ⟨(Except.error.inj hanswer).symm, fuel, hload⟩
      | some var => cases hanswer
    · rintro ⟨rfl, fuel, hload⟩
      exact ⟨fuel, Option.map_eq_some_iff.mpr ⟨none, hload, rfl⟩⟩

/-- A variable among the DIEs that is unloadable, while all in front of it can be loaded. -/
def MeetsUnloadable (info : DebugInfo) (dies : List DwarfDie) : Prop :=
  ∃ before die after, dies = before ++ die :: after ∧
    (∀ d ∈ before, d.isVar = true → ∃ var : DwarfVar, var.Loads info d.offset) ∧
    die.isVar = true ∧ UnloadableVar info die.offset

/-- An unloadable variable is met at the first DIE or behind it. -/
theorem meetsUnloadable_cons_iff {dies : List DwarfDie} :
    MeetsUnloadable info (die :: dies) ↔
      (die.isVar = true ∧ UnloadableVar info die.offset) ∨
        (die.isVar = true → ∃ var : DwarfVar, var.Loads info die.offset) ∧
          MeetsUnloadable info dies := by
  constructor
  · rintro ⟨before, met, after, heq, hbefore, hvar, hunloadable⟩
    cases before with
    | nil =>
      obtain ⟨rfl, -⟩ := List.cons.inj heq
      exact Or.inl ⟨hvar, hunloadable⟩
    | cons d before =>
      obtain ⟨rfl, rfl⟩ := List.cons.inj heq
      obtain ⟨hfirst, hrest⟩ := List.forall_mem_cons.mp hbefore
      exact Or.inr ⟨hfirst, before, met, after, rfl, hrest, hvar, hunloadable⟩
  · rintro (⟨hvar, hunloadable⟩ | ⟨hfirst, before, met, after, rfl, hrest, hvar, hunloadable⟩)
    · exact ⟨[], die, dies, rfl, by simp, hvar, hunloadable⟩
    · exact ⟨die :: before, met, after, rfl, List.forall_mem_cons.mpr ⟨hfirst, hrest⟩, hvar,
        hunloadable⟩

/-- Collecting fails exactly if an unloadable variable is met. Induction on the DIEs. -/
theorem loadAll_error_iff {dies : List DwarfDie} {cause : MainUndefined} :
    Returns (fun fuel => loadAll fuel info collected dies) (.error cause) ↔
      cause = .uninitializedLocation ∧ MeetsUnloadable info dies := by
  induction dies generalizing collected with
  | nil =>
    refine iff_of_false ?_ ?_
    · rintro ⟨fuel, hfuel⟩
      cases Option.some.inj hfuel
    · rintro ⟨-, before, met, after, heq, -⟩
      simp at heq
  | cons die dies ih =>
    simp only [loadAll]
    rw [Fuel.returns_andThen_error_iff (loadOrDelete_settles info collected die)
      fun next => loadAll_settles info next dies]
    rw [loadOrDelete_error_iff, meetsUnloadable_cons_iff, ← @loadOrDelete_ok_iff info collected die]
    constructor
    · rintro (⟨hcause, hmet⟩ | ⟨next, hnext, hrest⟩)
      · exact ⟨hcause, Or.inl hmet⟩
      · obtain ⟨hcause, hmet⟩ := ih.mp hrest
        exact ⟨hcause, Or.inr ⟨⟨next, hnext⟩, hmet⟩⟩
    · rintro ⟨hcause, hmet | ⟨⟨next, hnext⟩, hmet⟩⟩
      · exact Or.inl ⟨hcause, hmet⟩
      · exact Or.inr ⟨next, hnext, ih.mpr ⟨hcause, hmet⟩⟩

/-- Collecting the variables of a function deletes an uninitialized pointer exactly if `walkDIE`
meets a variable that is unloadable, and fails in no other way. -/
theorem loadVars_error_iff (info : DebugInfo) (cuDie : DwarfDie) (funcDie : DieForest)
    (cause : MainUndefined) :
    Returns (fun fuel => loadVars fuel info cuDie funcDie) (.error cause) ↔
      cause = .uninitializedLocation ∧ MeetsUnloadable info (walkedLevel funcDie) := by
  unfold loadVars
  rw [walkDIE_level_zero, loadAll_error_iff]

end Walk

/-- A variable with the type `char[10]`. -/
def arrayVariable : DebugInfo := fun offset =>
  if offset = 1 then some ⟨.ok .variable, .ok "buf", none, none, some 2, none⟩
  else if offset = 2 then some ⟨.ok (.other 1), .noEntry, none, none, some 3, none⟩
  else none

/-- Looking at a function with a local array deletes an uninitialized pointer. -/
example : loadVars 1 arrayVariable (plainDie 11 .compileUnit none)
    (.node (plainDie 1 .variable none) .absent .absent) =
      some (.error .uninitializedLocation) := rfl

end DwarfExpr
