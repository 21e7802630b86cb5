import DwarfExpr.SearcherTree
import DwarfExpr.Variables

/-!
# The walk over the DIEs of a function

`dwarf2line` collects parameters and local variables with `walkDIE` from the DIE of the function
on. The walk goes on with the siblings of the DIE it starts from, so it also visits the functions
and global variables that follow, and below the first of them that has children if the function
has none.
-/

namespace DwarfExpr

open Fuel (Returns Settles)

/-- One call of the walker of `walkDIE`. -/
structure DieVisit where
  parentDie : DwarfDie
  die : DwarfDie
  curLv : ℤ
  deriving DecidableEq, Repr

/-- `walkDIE`: the calls of the walker. The level is raised in the loop over the siblings,
each time it goes down, and passed on as it is then. -/
def walkDIE (maxLv : ℤ) (parentDie : DwarfDie) : DieForest → ℤ → List DieVisit
  | .absent, _ => []
  | .unreadable, _ => []
  | .node die children siblings, curLv =>
    ⟨parentDie, die, curLv⟩ ::
      match children with
      | .unreadable => []
      | .absent => walkDIE maxLv parentDie siblings curLv
      | .node _ _ _ =>
        if maxLv = -1 ∨ curLv < maxLv then
          walkDIE maxLv die children (curLv + 1) ++ walkDIE maxLv parentDie siblings (curLv + 1)
        else walkDIE maxLv parentDie siblings curLv

/-- What leaves a run of `main` undefined. -/
inductive MainUndefined where
  /-- A `std::string` is assigned from a null pointer. -/
  | nullString
  /-- The name of a function in the context file runs over its buffer. -/
  | inContextFile
  /-- No function DIE has been stored. -/
  | noFunctionDie
  /-- `~DwarfVar` deletes a `location_` that nothing has initialized. -/
  | uninitializedLocation
  | inVariable (cause : VarUndefined)
  | inCfa (cause : Undefined)
  deriving DecidableEq, Repr

/-- `params` and `locals`. -/
structure CollectedVars where
  params : List DwarfVar
  locals : List DwarfVar

/-- The tags that the callback loads variables of. -/
def DwTag.isVar : DwTag → Bool
  | .variable | .constant | .formalParameter => true
  | _ => false

/-- The callback of `walkDIE` in `main`. A variable that cannot be loaded is deleted at once, and
`location_` is only initialized by loading. -/
def loadOrDelete (fuel : ℕ) (info : DebugInfo) (collected : CollectedVars) (die : DwarfDie) :
    Fuel.Bounded MainUndefined CollectedVars :=
  match die.tag with
  | .ok tag =>
    if tag.isVar then
      match DwarfVar.load fuel info die.offset with
      | none => none
      | some none => some (.error .uninitializedLocation)
      | some (some var) =>
        if tag = .formalParameter then
          some (.ok { collected with params := collected.params ++ [var] })
        else some (.ok { collected with locals := collected.locals ++ [var] })
    else some (.ok collected)
  | _ => some (.ok collected)

/-- The callback on the DIEs that are visited, one after the other. -/
def loadAll (fuel : ℕ) (info : DebugInfo) : CollectedVars → List DwarfDie →
    Fuel.Bounded MainUndefined CollectedVars
  | collected, [] => some (.ok collected)
  | collected, die :: dies =>
    (loadOrDelete fuel info collected die).andThen fun collected => loadAll fuel info collected dies

/-- The parameters and the locals that `main` collects for a function, from level 0 to level 1. -/
def loadVars (fuel : ℕ) (info : DebugInfo) (cuDie : DwarfDie) (funcDie : DieForest) :
    Fuel.Bounded MainUndefined CollectedVars :=
  loadAll fuel info ⟨[], []⟩ ((walkDIE 1 cuDie funcDie 0).map DieVisit.die)

/-- The walk along a level that it does not leave. -/
theorem walkDIE_level_one (parentDie : DwarfDie) (f : DieForest) :
    (walkDIE 1 parentDie f 1).map DieVisit.die = f.sweep := by
  induction f with
  | absent | unreadable => rfl
  | node die children siblings _ ih =>
    cases children <;> simp [walkDIE, SiblingForest.sweep, ih]

/-- The DIEs visited from the first of a level on while no DIE with children has been met:
the level, and below the first DIE with children. -/
def walkedLevel : DieForest → List DwarfDie
  | .absent => []
  | .unreadable => []
  | .node die children siblings =>
    die ::
      match children with
      | .unreadable => []
      | .absent => walkedLevel siblings
      | .node _ _ _ => children.sweep ++ siblings.sweep

/-- The DIEs visited that do not belong to the function: those that follow it. -/
def walkedBeyond (children siblings : DieForest) : List DwarfDie :=
  match children with
  | .unreadable => []
  | .absent => walkedLevel siblings
  | .node _ _ _ => siblings.sweep

/-- The walk from level 0 to level 1. -/
theorem walkDIE_level_zero (parentDie : DwarfDie) (f : DieForest) :
    (walkDIE 1 parentDie f 0).map DieVisit.die = walkedLevel f := by
  induction f with
  | absent | unreadable => rfl
  | node die children siblings _ ih =>
    cases children with
    | absent | unreadable => simp [walkDIE, walkedLevel, ih]
    | node first below rest =>
      have hdown : (1 : ℤ) = -1 ∨ (0 : ℤ) < 1 := Or.inr (by decide)
      rw [walkDIE, List.map_cons, if_pos hdown, List.map_append, zero_add, walkDIE_level_one,
        walkDIE_level_one]
      rfl

/-- The walk visits the DIE of the function, its children, and DIEs beyond. -/
theorem walkedLevel_node (die : DwarfDie) (children siblings : DieForest) :
    walkedLevel (.node die children siblings) =
      die :: (children.sweep ++ walkedBeyond children siblings) := by
  cases children <;> rfl

/-- What is visited of a level lies in it. -/
theorem mem_preorder_of_mem_walkedLevel {f : DieForest} {x : DwarfDie} (h : x ∈ walkedLevel f) :
    x ∈ f.preorder := by
  induction f with
  | absent | unreadable => cases h
  | node die children siblings _ ih =>
    rw [walkedLevel_node, List.mem_cons, List.mem_append] at h
    rw [SiblingForest.preorder_node, List.mem_cons, List.mem_append]
    rcases h with rfl | hbelow | hbeyond
    · exact Or.inl rfl
    · exact Or.inr (Or.inl (SiblingForest.mem_preorder_of_mem_sweep hbelow))
    · cases children with
      | absent => exact Or.inr (Or.inr (ih hbeyond))
      | unreadable => cases hbeyond
      | node _ _ _ => exact Or.inr (Or.inr (SiblingForest.mem_preorder_of_mem_sweep hbeyond))

/-- What is visited beyond a function follows it. -/
theorem mem_preorder_of_mem_walkedBeyond {children siblings : DieForest} {x : DwarfDie}
    (h : x ∈ walkedBeyond children siblings) : x ∈ siblings.preorder := by
  cases children with
  | absent => exact mem_preorder_of_mem_walkedLevel h
  | unreadable => cases h
  | node _ _ _ => exact SiblingForest.mem_preorder_of_mem_sweep h

/-- The callback loads a variable of the DIE. -/
def DwarfDie.isVar (die : DwarfDie) : Bool :=
  match die.tag with
  | .ok tag => tag.isVar
  | _ => false

/-- The DIE of a function is none of a variable. -/
theorem isVar_of_isFunction {die : DwarfDie} (hfunc : die.isFunction = true) :
    die.isVar = false := by
  unfold DwarfDie.isFunction at hfunc
  unfold DwarfDie.isVar
  cases htag : die.tag with
  | noEntry | error => rfl
  | ok tag =>
    rw [htag] at hfunc
    cases tag <;> first | rfl | cases hfunc

/-- The variables of both lists. -/
def CollectedVars.all (collected : CollectedVars) : List DwarfVar :=
  collected.params ++ collected.locals

section Callback

variable {info : DebugInfo} {collected : CollectedVars} {die : DwarfDie}

/-- The callback passes what is no variable. -/
theorem loadOrDelete_of_not_isVar (hvar : die.isVar = false) (fuel : ℕ) :
    loadOrDelete fuel info collected die = some (.ok collected) := by
  unfold DwarfDie.isVar at hvar
  unfold loadOrDelete
  cases htag : die.tag with
  | noEntry | error => rfl
  | ok tag =>
    rw [htag] at hvar
    simp only [hvar, Bool.false_eq_true, if_false]

/-- The callback deletes a variable that is not loaded and adds one that is. -/
theorem exists_loadOrDelete_eq (info : DebugInfo) (collected : CollectedVars)
    (hvar : die.isVar = true) :
    ∃ add : DwarfVar → CollectedVars,
      (∀ fuel, loadOrDelete fuel info collected die =
        (DwarfVar.load fuel info die.offset).map fun answer =>
          answer.elim (.error .uninitializedLocation) fun var => .ok (add var)) ∧
      ∀ var v, v ∈ (add var).all ↔ v ∈ collected.all ∨ var = v := by
  unfold DwarfDie.isVar at hvar
  unfold loadOrDelete
  cases htag : die.tag with
  | noEntry | error =>
    rw [htag] at hvar
    cases hvar
  | ok tag =>
    rw [htag] at hvar
    simp only at hvar
    refine ⟨fun var => if tag = .formalParameter then
      { collected with params := collected.params ++ [var] }
      else { collected with locals := collected.locals ++ [var] }, fun fuel => ?_, fun var v => ?_⟩
    · simp only [if_pos hvar]
      rcases DwarfVar.load fuel info die.offset with _ | _ | var
      · rfl
      · rfl
      · by_cases hparam : tag = .formalParameter <;> simp [hparam]
    · by_cases hparam : tag = .formalParameter <;>
        simp only [hparam, if_true, if_false, CollectedVars.all, List.mem_append,
          List.mem_singleton, eq_comm] <;> tauto

/-- The callback goes on exactly if what it meets is no variable or can be loaded. -/
theorem loadOrDelete_ok_iff :
    (∃ next, Returns (fun fuel => loadOrDelete fuel info collected die) (.ok next)) ↔
      (die.isVar = true → ∃ var : DwarfVar, var.Loads info die.offset) := by
  cases hvar : die.isVar with
  | false =>
    exact iff_of_true ⟨collected, 0, loadOrDelete_of_not_isVar hvar 0⟩ fun h => by cases h
  | true =>
    obtain ⟨add, hadd, -⟩ := exists_loadOrDelete_eq info collected hvar
    simp only [hadd]
    constructor
    · rintro ⟨next, fuel, hfuel⟩ -
      obtain ⟨answer, hload, hanswer⟩ := Option.map_eq_some_iff.mp hfuel
      cases answer with
      | none => cases hanswer
      | some var => exact ⟨var, fuel, hload⟩
    · intro hload
      obtain ⟨var, fuel, hfuel⟩ := hload trivial
      exact ⟨add var, fuel, Option.map_eq_some_iff.mpr ⟨some var, hfuel, rfl⟩⟩

/-- The callback adds the variable that it loads. -/
theorem mem_of_loadOrDelete {next : CollectedVars}
    (hnext : Returns (fun fuel => loadOrDelete fuel info collected die) (.ok next))
    (v : DwarfVar) :
    v ∈ next.all ↔ v ∈ collected.all ∨ die.isVar = true ∧ v.Loads info die.offset := by
  obtain ⟨fuel, hfuel⟩ := hnext
  cases hvar : die.isVar with
  | false =>
    cases (loadOrDelete_of_not_isVar hvar fuel).symm.trans hfuel
    simp
  | true =>
    obtain ⟨add, hadd, hmem⟩ := exists_loadOrDelete_eq info collected hvar
    obtain ⟨answer, hload, hanswer⟩ := Option.map_eq_some_iff.mp ((hadd fuel).symm.trans hfuel)
    cases answer with
    | none => cases hanswer
    | some var =>
      cases hanswer
      have hloads : v.Loads info die.offset ↔ var = v := by
        constructor
        · intro h
          exact Option.some.inj ((DwarfVar.load_settles info die.offset).unique ⟨fuel, hload⟩ h)
        · rintro rfl
          exact ⟨fuel, hload⟩
      rw [hmem, hloads, and_iff_right rfl]

/-- The callback settles. -/
theorem loadOrDelete_settles (info : DebugInfo) (collected : CollectedVars) (die : DwarfDie) :
    Settles fun fuel => loadOrDelete fuel info collected die := by
  unfold loadOrDelete
  cases die.tag with
  | noEntry | error => exact Fuel.settles_const _
  | ok tag =>
    by_cases hvar : tag.isVar = true
    · simp only [if_pos hvar]
      intro m n hmn
      rcases DwarfVar.load_settles info die.offset hmn with h | h
      · exact Or.inl (by simp only [h])
      · exact Or.inr (by simp only [h])
    · simp only [if_neg hvar]
      exact Fuel.settles_const _

/-- Collecting variables settles. Induction on the DIEs that are visited. -/
theorem loadAll_settles (info : DebugInfo) (collected : CollectedVars) (dies : List DwarfDie) :
    Settles fun fuel => loadAll fuel info collected dies := by
  induction dies generalizing collected with
  | nil => exact Fuel.settles_const _
  | cons die dies ih =>
    exact (loadOrDelete_settles info collected die).andThen fun next => ih next

/-- The callback comes to the end of the DIEs exactly if every variable among them can be loaded.
Induction on the DIEs. -/
theorem loadAll_ok_iff {dies : List DwarfDie} :
    (∃ collected', Returns (fun fuel => loadAll fuel info collected dies) (.ok collected')) ↔
      ∀ die ∈ dies, die.isVar = true → ∃ var : DwarfVar, var.Loads info die.offset := by
  induction dies generalizing collected with
  | nil => exact iff_of_true ⟨collected, 0, rfl⟩ (by simp)
  | cons die dies ih =>
    simp only [loadAll]
    simp only [Fuel.returns_andThen_iff (loadOrDelete_settles info collected die)
      fun next => loadAll_settles info next dies]
    rw [List.forall_mem_cons, ← @loadOrDelete_ok_iff info collected die]
    constructor
    · rintro ⟨last, next, hnext, hlast⟩
      exact ⟨⟨next, hnext⟩, ih.mp ⟨last, hlast⟩⟩
    · rintro ⟨⟨next, hnext⟩, hall⟩
      obtain ⟨last, hlast⟩ := ih.mpr hall
      exact ⟨last, next, hnext, hlast⟩

/-- What has been collected at the end of the DIEs has been loaded from one of them. Induction on
the DIEs. -/
theorem mem_of_loadAll {dies : List DwarfDie} {collected' : CollectedVars}
    (hlast : Returns (fun fuel => loadAll fuel info collected dies) (.ok collected'))
    (v : DwarfVar) :
    v ∈ collected'.all ↔ v ∈ collected.all ∨
      ∃ die ∈ dies, die.isVar = true ∧ v.Loads info die.offset := by
  induction dies generalizing collected with
  | nil =>
    obtain ⟨fuel, hfuel⟩ := hlast
    cases hfuel
    simp
  | cons die dies ih =>
    simp only [loadAll] at hlast
    obtain ⟨next, hnext, hlast⟩ := (Fuel.returns_andThen_iff
      (loadOrDelete_settles info collected die) fun next => loadAll_settles info next dies).mp hlast
    rw [ih hlast, mem_of_loadOrDelete hnext]
    simp only [List.mem_cons, exists_eq_or_imp, or_assoc]

end Callback

end DwarfExpr
