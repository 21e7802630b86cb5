import DwarfExpr.UnloadedVariables

/-!
# The parameters and local variables of a function

What `main` collects while it walks over the DIEs of a function is printed as its own. A variable
that follows the function in its unit is among it as soon as the walk gets there and loads it.
-/

namespace DwarfExpr

open Fuel (Returns)

section Collecting

variable {info : DebugInfo} {dies : List DwarfDie} {var : DwarfVar}

/-- At some time of the walk over the DIEs the variable has been collected. -/
def Collects (info : DebugInfo) (dies : List DwarfDie) (var : DwarfVar) : Prop :=
  ∃ visited collected, visited <+: dies ∧
    Returns (fun fuel => loadAll fuel info ⟨[], []⟩ visited) (.ok collected) ∧
    var ∈ collected.all

/-- The variable gets loaded from the DIE: each variable in front of it can be loaded, and so can
this one. -/
def GetsLoaded (info : DebugInfo) (dies : List DwarfDie) (die : DwarfDie) (var : DwarfVar) : Prop :=
  ∃ before after, dies = before ++ die :: after ∧
    (∀ d ∈ before, d.isVar = true → ∃ var : DwarfVar, var.Loads info d.offset) ∧
    die.isVar = true ∧ var.Loads info die.offset

/-- A variable is collected exactly if it gets loaded from one of the DIEs. -/
theorem collects_iff : Collects info dies var ↔ ∃ die, GetsLoaded info dies die var := by
  constructor
  · rintro ⟨visited, collected, ⟨rest, rfl⟩, hreturns, hmem⟩
    rcases (mem_of_loadAll hreturns var).mp hmem with hnone | ⟨die, hdie, hvar, hload⟩
    · cases hnone
    · have hall := loadAll_ok_iff.mp ⟨collected, hreturns⟩
      obtain ⟨before, after, rfl⟩ := List.append_of_mem hdie
      refine ⟨die, before, after ++ rest, by simp, fun d hd => hall d ?_, hvar, hload⟩
      exact List.mem_append_left _ hd
  · rintro ⟨die, before, after, rfl, hbefore, hvar, hload⟩
    have hall : ∀ d ∈ before ++ [die], d.isVar = true →
        ∃ var : DwarfVar, var.Loads info d.offset := by
      intro d hd hdvar
      rcases List.mem_append.mp hd with hd | hd
      · exact hbefore d hd hdvar
      · obtain rfl := List.mem_singleton.mp hd
        exact ⟨var, hload⟩
    obtain ⟨collected, hreturns⟩ := (@loadAll_ok_iff info ⟨[], []⟩ _).mpr hall
    refine ⟨before ++ [die], collected, ⟨after, by simp⟩, hreturns, ?_⟩
    exact (mem_of_loadAll hreturns var).mpr
      (Or.inr ⟨die, List.mem_append_right _ (List.mem_singleton_self die), hvar, hload⟩)

end Collecting

/-- A unit whose DIEs are told apart by their offsets. -/
structure NumberedUnit extends CompileUnit where
  distinct : (toCompileUnit.tree.preorder.map DwarfDie.offset).Nodup

/-- A function DIE of a unit, with its children and what follows it. -/
structure NumberedUnit.FunctionDie (u : NumberedUnit) where
  die : DwarfDie
  children : DieForest
  siblings : DieForest
  sees : u.tree.Sees (.node die children siblings)
  isFunction : die.isFunction = true

/-- What is seen from the function DIE on. -/
def NumberedUnit.FunctionDie.forest {u : NumberedUnit} (func : u.FunctionDie) : DieForest :=
  .node func.die func.children func.siblings

/-- No DIE that follows the function has the offset of a DIE below it. -/
theorem NumberedUnit.FunctionDie.offset_ne {u : NumberedUnit} (func : u.FunctionDie)
    {a b : DwarfDie} (ha : a ∈ func.children.preorder) (hb : b ∈ func.siblings.preorder) :
    a.offset ≠ b.offset := by
  have hdistinct := u.distinct.sublist (func.sees.sublist.map DwarfDie.offset)
  rw [SiblingForest.preorder_node, List.map_cons, List.nodup_cons, List.map_append,
    List.nodup_append] at hdistinct
  exact hdistinct.2.2.2 _ (List.mem_map_of_mem ha) _ (List.mem_map_of_mem hb)

/-- A variable that has been collected for the function at some time of its walk. -/
def NumberedUnit.FunctionDie.Collects {u : NumberedUnit} (func : u.FunctionDie) (info : DebugInfo)
    (var : DwarfVar) : Prop :=
  DwarfExpr.Collects info ((walkDIE 1 u.cuDie func.forest 0).map DieVisit.die) var

/-- Collecting the variables of the function is defined, and each that has been collected at some
time has the offset of a DIE below it. -/
structure NumberedUnit.FunctionDie.CollectsOwn {u : NumberedUnit} (func : u.FunctionDie)
    (info : DebugInfo) : Prop where
  defined : ∀ cause,
    ¬Returns (fun fuel => loadVars fuel info u.cuDie func.forest) (.error cause)
  own : ∀ var, func.Collects info var → ∃ die ∈ func.children.preorder, die.offset = var.offset

/-- The walk comes to a variable beyond the function and loads it. -/
def NumberedUnit.FunctionDie.LoadsBeyond {u : NumberedUnit} (func : u.FunctionDie)
    (info : DebugInfo) : Prop :=
  ∃ die ∈ walkedBeyond func.children func.siblings, ∃ var,
    GetsLoaded info (walkedLevel func.forest) die var

/-- What is collected for the function is its own exactly if the walk loads nothing beyond it. -/
theorem NumberedUnit.FunctionDie.own_iff {u : NumberedUnit} (func : u.FunctionDie)
    (info : DebugInfo) :
    (∀ var, func.Collects info var → ∃ die ∈ func.children.preorder, die.offset = var.offset) ↔
      ¬func.LoadsBeyond info := by
  unfold Collects LoadsBeyond
  rw [walkDIE_level_zero]
  constructor
  · rintro hown ⟨die, hdie, var, hloaded⟩
    obtain ⟨own, hbelow, hoffset⟩ := hown var (collects_iff.mpr ⟨die, hloaded⟩)
    obtain ⟨-, -, -, -, -, fuel, hload⟩ := hloaded
    rw [(DwarfVar.type_of_load hload).1] at hoffset
    exact func.offset_ne hbelow (mem_preorder_of_mem_walkedBeyond hdie) hoffset
  · intro hnone var hcollects
    obtain ⟨die, hloaded⟩ := collects_iff.mp hcollects
    obtain ⟨before, after, heq, -, hvar, fuel, hload⟩ := id hloaded
    have hdie : die ∈ walkedLevel func.forest := by
      rw [heq]
      exact List.mem_append_right _ (List.mem_cons_self ..)
    rw [forest, walkedLevel_node, List.mem_cons, List.mem_append] at hdie
    rcases hdie with rfl | hbelow | hbeyond
    · rw [isVar_of_isFunction func.isFunction] at hvar
      cases hvar
    · exact ⟨die, SiblingForest.mem_preorder_of_mem_sweep hbelow,
        (DwarfVar.type_of_load hload).1.symm⟩
    · exact absurd ⟨die, hbeyond, var, hloaded⟩ hnone

/-- Only variables below the function are collected exactly if the walk meets no variable that is
unloadable, whose pointer would be deleted uninitialized, and loads none beyond the function. -/
theorem NumberedUnit.FunctionDie.collectsOwn_iff {u : NumberedUnit} (func : u.FunctionDie)
    (info : DebugInfo) :
    func.CollectsOwn info ↔
      ¬MeetsUnloadable info (walkedLevel func.forest) ∧ ¬func.LoadsBeyond info := by
  have hfails (cause : MainUndefined) :
      Returns (fun fuel => loadVars fuel info u.cuDie func.forest) (.error cause) ↔
        cause = .uninitializedLocation ∧ MeetsUnloadable info (walkedLevel func.forest) := by
    simp only [loadVars, walkDIE_level_zero]
    exact loadAll_error_iff
  rw [← func.own_iff]
  constructor
  · intro hown
    refine ⟨fun hmeets => ?_, hown.own⟩
    exact hown.defined .uninitializedLocation ((hfails _).mpr ⟨rfl, hmeets⟩)
  · rintro ⟨hloadable, hown⟩
    refine ⟨fun cause hcause => ?_, hown⟩
    exact hloadable ((hfails cause).mp hcause).2

/-- A unit with a function without children and a global variable after it. -/
def unitWithGlobal : NumberedUnit where
  cuDie := plainDie 11 .compileUnit none
  children := .node (plainDie 42 .subprogram (some (0x1000, 0x10, .constant))) .absent
    (.node (plainDie 60 .variable none) .absent .absent)
  distinct := by decide

/-- The function of the unit. -/
def functionBeforeGlobal : unitWithGlobal.FunctionDie where
  die := plainDie 42 .subprogram (some (0x1000, 0x10, .constant))
  children := .absent
  siblings := .node (plainDie 60 .variable none) .absent .absent
  sees := .inChildren .here
  isFunction := rfl

/-- The variable and its type. -/
def globalInfo : DebugInfo := fun offset =>
  if offset = 60 then some ⟨.ok .variable, .ok "g", none, none, some 70, none⟩
  else if offset = 70 then some ⟨.ok .baseType, .ok "int", none, some 4, none, none⟩
  else none

/-- The global variable is collected as a local variable of the function. -/
theorem functionBeforeGlobal_not_collectsOwn : ¬functionBeforeGlobal.CollectsOwn globalInfo := by
  intro hown
  have hcollects : functionBeforeGlobal.Collects globalInfo
      ⟨60, .variable, "g", .plain .baseType 4 "int", none⟩ :=
    ⟨_, ⟨[], [⟨60, .variable, "g", .plain .baseType 4 "int", none⟩]⟩, List.prefix_refl _,
      ⟨2, rfl⟩, List.mem_cons_self ..⟩
  obtain ⟨die, hdie, -⟩ := hown.own _ hcollects
  cases hdie

end DwarfExpr
