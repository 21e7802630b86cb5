import DwarfExpr.Lib.ReferenceChain
import DwarfExpr.TypeChains

/-!
# References between DIEs

`getFunctionName` takes the name of a function without one from the DIE that its
`DW_AT_specification` refers to, and `DwarfType::load` loads the type that a pointer, const or
typedef refers to. Both call themselves on an offset from the file and note nowhere which DIEs
they have passed.
-/

namespace DwarfExpr

open Fuel (Returns Ends)
open ReferenceChain (after ComesBack follow)

/-- There are finitely many offsets. -/
instance finiteOffsets : Finite DwarfOff :=
  Finite.of_injective BitVec.toFin fun _ _ h => BitVec.toFin_inj.mp h

/-- What is asked of the DIE of a function for its name: the answers of `dwarf_attr`, each with
that of `dwarf_formstring` or `dwarf_global_formref` for the attribute, and of
`dwarf_diename`. -/
structure FunctionDie where
  linkageName : Dlv (Dlv String)
  mipsLinkageName : Dlv (Dlv String)
  hpLinkageName : Dlv (Dlv String)
  diename : Dlv String
  specification : Dlv (Dlv DwarfOff)

/-- `getAttrStr`. -/
def getAttrStr (attr : Dlv String) (defVal : String) : String :=
  match attr with
  | .ok name => name
  | _ => defVal

/-- `getAttrGlobalRef`. -/
def getAttrGlobalRef (attr : Dlv DwarfOff) (defVal : DwarfOff) : DwarfOff :=
  match attr with
  | .ok ref => ref
  | _ => defVal

/-- `demangleName`, where `abi::__cxa_demangle` is given and answers `none` on failure. -/
def demangleName (cxaDemangle : String → Option String) (mangled : String) : String :=
  match cxaDemangle mangled with
  | some result => result
  | none => mangled

/-- How a linkage name is returned. -/
def linkageText (cxaDemangle : String → Option String) (demangle : Bool) (defVal : String)
    (attr : Dlv String) : String :=
  if demangle then demangleName cxaDemangle (getAttrStr attr defVal) else getAttrStr attr defVal

/-- The name that `getFunctionName` takes from a DIE itself. -/
def FunctionDie.ownName (cxaDemangle : String → Option String) (demangle : Bool)
    (defVal : String) (die : FunctionDie) : Option String :=
  match die.linkageName with
  | .ok attr => some (linkageText cxaDemangle demangle defVal attr)
  | _ =>
    match die.mipsLinkageName with
    | .ok attr => some (linkageText cxaDemangle demangle defVal attr)
    | _ =>
      match die.hpLinkageName with
      | .ok attr => some (linkageText cxaDemangle demangle defVal attr)
      | _ =>
        match die.diename with
        | .ok name => some name
        | _ => none

/-- `getFunctionName` of a DIE. -/
def getFunctionName (cxaDemangle : String → Option String) (demangle : Bool) (defVal : String)
    (functions : DwarfOff → Option FunctionDie) : ℕ → FunctionDie → Option String
  | 0, _ => none
  | fuel + 1, die =>
    match die.ownName cxaDemangle demangle defVal with
    | some name => some name
    | none =>
      match die.specification with
      | .ok attr =>
        let refDieRef := getAttrGlobalRef attr maxDwarfUnsigned
        if refDieRef ≠ maxDwarfUnsigned then
          match functions refDieRef with
          | some refDie => getFunctionName cxaDemangle demangle defVal functions fuel refDie
          | none => some defVal
        else some defVal
      | _ => some defVal

section

variable (cxaDemangle : String → Option String) (demangle : Bool) (defVal : String)
  (functions : DwarfOff → Option FunctionDie)

/-- The offset at which `getFunctionName` goes on from the DIE at an offset. -/
def nextFunction (offset : DwarfOff) : Option DwarfOff :=
  (functions offset).bind fun die =>
    match die.ownName cxaDemangle demangle defVal, die.specification with
    | none, .ok (.ok ref) =>
      if ref ≠ maxDwarfUnsigned ∧ (functions ref).isSome then some ref else none
    | _, _ => none

/-- The name of the DIE at an offset, or the default. -/
def nameAt (offset : DwarfOff) : String :=
  ((functions offset).bind (FunctionDie.ownName cxaDemangle demangle defVal)).getD defVal

variable {cxaDemangle demangle defVal functions} {offset : DwarfOff} {die : FunctionDie}

/-- A DIE with a name leads nowhere. -/
theorem nextFunction_of_named {name : String} (hdie : functions offset = some die)
    (hname : die.ownName cxaDemangle demangle defVal = some name) :
    nextFunction cxaDemangle demangle defVal functions offset = none := by
  simp [nextFunction, hdie, hname]

/-- `getFunctionName` follows the specifications. Induction on the fuel. -/
theorem getFunctionName_eq_follow (hdie : functions offset = some die) (fuel : ℕ) :
    getFunctionName cxaDemangle demangle defVal functions fuel die =
      follow (nextFunction cxaDemangle demangle defVal functions)
        (nameAt cxaDemangle demangle defVal functions) (fun _ name => name) fuel offset := by
  induction fuel generalizing offset die with
  | zero => rfl
  | succ fuel ih =>
    rw [getFunctionName, follow]
    cases hname : die.ownName cxaDemangle demangle defVal with
    | some name => simp [nextFunction_of_named hdie hname, nameAt, hdie, hname]
    | none =>
      have hanswer : nameAt cxaDemangle demangle defVal functions offset = defVal := by
        simp [nameAt, hdie, hname]
      rcases hspec : die.specification with (ref | _ | _) | _ | _
      case ok.ok =>
        by_cases hne : ref = maxDwarfUnsigned
        · simp [nextFunction, hdie, hname, hspec, getAttrGlobalRef, hne, hanswer]
        · cases href : functions ref with
          | none => simp [nextFunction, hdie, hname, hspec, getAttrGlobalRef, hne, hanswer, href]
          | some refDie =>
            simp [nextFunction, hdie, hname, hspec, getAttrGlobalRef, hne, href, ih href]
      all_goals simp [nextFunction, hdie, hname, hspec, getAttrGlobalRef, hanswer]

/-- Looking for the name of a function ends exactly if the specifications do not come back to
a DIE that they have led to. -/
theorem getFunctionName_ends_iff (hdie : functions offset = some die) :
    Ends (fun fuel => getFunctionName cxaDemangle demangle defVal functions fuel die) ↔
      ¬ComesBack (nextFunction cxaDemangle demangle defVal functions) offset := by
  simp only [getFunctionName_eq_follow hdie]
  exact ReferenceChain.ends_follow_iff offset

/-- A function whose specifications end without a name gets the default. -/
theorem getFunctionName_of_nameless (hdie : functions offset = some die)
    (hends : ¬ComesBack (nextFunction cxaDemangle demangle defVal functions) offset)
    (hnone : ∀ n o refDie, after (nextFunction cxaDemangle demangle defVal functions) n offset =
      some o → functions o = some refDie → refDie.ownName cxaDemangle demangle defVal = none) :
    Returns (fun fuel => getFunctionName cxaDemangle demangle defVal functions fuel die)
      defVal := by
  obtain ⟨name, fuel, hname⟩ := (getFunctionName_ends_iff hdie).mpr hends
  dsimp only at hname
  rw [getFunctionName_eq_follow hdie] at hname
  obtain rfl : name = defVal := ReferenceChain.follow_induction (Q := (· = defVal)) hname
    (fun n o hreach => by
      rcases hrefDie : functions o with _ | refDie
      · simp [nameAt, hrefDie]
      · simp [nameAt, hrefDie, hnone n o refDie hreach hrefDie])
    fun _ _ h => h
  exact ⟨fuel, (getFunctionName_eq_follow hdie fuel).trans hname⟩

end

/-- The offset at which `load` goes on from a DIE. -/
def VarDie.nextType (die : VarDie) : Option DwarfOff :=
  match die.tag with
  | .ok tag =>
    if tag.isDerivedType then
      die.type.bind fun ref => if ref = maxDwarfUnsigned then none else some ref
    else none
  | _ => none

/-- The DIE is that of a type that refers to no other. -/
def VarDie.isTerminal (die : VarDie) : Bool :=
  match die.tag with
  | .ok tag => tag.isNamedType
  | _ => false

section

variable (info : DebugInfo)

/-- The offset at which `load` goes on from the DIE at an offset. -/
def nextType (offset : DwarfOff) : Option DwarfOff := (info offset).bind VarDie.nextType

/-- What `load` answers where it does not go on. -/
def typeAt (offset : DwarfOff) : Option DwarfType :=
  (info offset).bind fun die =>
    match die.tag with
    | .ok tag => if tag.isNamedType then some (.plain tag die.size die.typeName) else none
    | _ => none

/-- What `load` makes of the type that it has gone on to. -/
def typeAround (offset : DwarfOff) (type : Option DwarfType) : Option DwarfType :=
  (info offset).bind fun die =>
    match die.tag with
    | .ok tag => type.map (.derived tag 8 · die.typeName)
    | _ => none

variable {info} {offset : DwarfOff} {die : VarDie} {tag : DwTag}

/-- What loading answers for a type that does not refer to another. -/
theorem DwarfType.load_plain (hdie : info offset = some die) (htag : die.tag = .ok tag)
    (hplain : tag.isDerivedType = false) (fuel : ℕ) :
    DwarfType.load (fuel + 1) info offset = some (typeAt info offset) := by
  cases tag <;> simp [DwTag.isDerivedType] at hplain <;>
    simp only [load, typeAt, hdie, htag, Option.bind_some] <;> rfl

/-- `load` follows the references to types. Induction on the fuel. -/
theorem DwarfType.load_eq_follow (fuel : ℕ) (offset : DwarfOff) :
    DwarfType.load fuel info offset =
      follow (nextType info) (typeAt info) (typeAround info) fuel offset := by
  induction fuel generalizing offset with
  | zero => rfl
  | succ fuel ih =>
    rw [follow]
    cases hdie : info offset with
    | none => simp [load, nextType, typeAt, hdie]
    | some die =>
      cases htag : die.tag with
      | noEntry | error => simp [load, nextType, typeAt, VarDie.nextType, hdie, htag]
      | ok tag =>
        cases hderived : tag.isDerivedType with
        | false =>
          rw [load_plain hdie htag hderived]
          simp [nextType, VarDie.nextType, hdie, htag, hderived]
        | true =>
          have hunnamed : tag.isNamedType = false := by
            cases tag <;> first | rfl | cases hderived
          by_cases hvoid : die.type.getD maxDwarfUnsigned = maxDwarfUnsigned
          · rw [load_void hdie htag hderived hvoid]
            rcases htype : die.type with _ | ref
            · simp [nextType, VarDie.nextType, typeAt, hdie, htag, htype, hunnamed]
            · rw [htype, Option.getD_some] at hvoid
              simp [nextType, VarDie.nextType, typeAt, hdie, htag, htype, hunnamed, hvoid]
          · rcases htype : die.type with _ | ref
            · rw [htype] at hvoid
              exact absurd rfl hvoid
            · rw [htype, Option.getD_some] at hvoid
              have haround : typeAround info offset = (·.map (.derived tag 8 · die.typeName)) := by
                funext type
                simp [typeAround, hdie, htag]
              rw [load_derived hdie htag hderived htype hvoid, ih ref, ← haround]
              simp [nextType, VarDie.nextType, hdie, htag, htype, hderived, hvoid]

/-- Where the DIE is none of a type that refers to no other, `load` fails if it does not go
on. -/
theorem typeAt_eq_none (hdies : ∀ die, info offset = some die → die.isTerminal = false) :
    typeAt info offset = none := by
  cases hdie : info offset with
  | none => simp [typeAt, hdie]
  | some die =>
    have hother := hdies die hdie
    cases htag : die.tag with
    | noEntry | error => simp [typeAt, hdie, htag]
    | ok tag =>
      rw [VarDie.isTerminal, htag] at hother
      simp [typeAt, hdie, htag, hother]

/-- Loading a type ends exactly if the references do not come back to a DIE that they have
led to. -/
theorem DwarfType.load_ends_iff (info : DebugInfo) (offset : DwarfOff) :
    Ends (fun fuel => DwarfType.load fuel info offset) ↔ ¬ComesBack (nextType info) offset := by
  simp only [load_eq_follow]
  exact ReferenceChain.ends_follow_iff offset

/-- A type whose references end elsewhere than at a type that refers to no other does not
load. -/
theorem DwarfType.fails_of_no_terminal
    (hends : ¬ComesBack (nextType info) offset)
    (hnone : ∀ n o die, after (nextType info) n offset = some o → info o = some die →
      die.isTerminal = false) :
    Returns (fun fuel => DwarfType.load fuel info offset) none := by
  obtain ⟨type, fuel, hload⟩ := (DwarfType.load_ends_iff info offset).mpr hends
  dsimp only at hload
  rw [load_eq_follow] at hload
  obtain rfl : type = none := ReferenceChain.follow_induction (Q := (· = none)) hload
    (fun n o hreach => typeAt_eq_none fun die hdie => hnone n o die hreach hdie)
    fun o type htype => by
      subst htype
      unfold typeAround
      rcases info o with _ | die
      · rfl
      · simp only [Option.bind_some]
        split <;> rfl
  exact ⟨fuel, (load_eq_follow fuel offset).trans hload⟩

end

/-- Both functions follow the references as long as there are any: they return exactly if the
references do not come back to a DIE that they have led to, and then with `false` or the
default name if they lead to no type that refers to no other, or to no name. -/
theorem references_followed (info : DebugInfo) (offset : DwarfOff)
    (cxaDemangle : String → Option String) (demangle : Bool) (defVal : String)
    {functions : DwarfOff → Option FunctionDie} {func : DwarfOff} {funcDie : FunctionDie}
    (hdie : functions func = some funcDie) :
    ((Ends (fun fuel => DwarfType.load fuel info offset) ↔ ¬ComesBack (nextType info) offset) ∧
      (¬ComesBack (nextType info) offset →
        (∀ n o die, after (nextType info) n offset = some o → info o = some die →
          die.isTerminal = false) →
        Returns (fun fuel => DwarfType.load fuel info offset) none)) ∧
    ((Ends (fun fuel => getFunctionName cxaDemangle demangle defVal functions fuel funcDie) ↔
        ¬ComesBack (nextFunction cxaDemangle demangle defVal functions) func) ∧
      (¬ComesBack (nextFunction cxaDemangle demangle defVal functions) func →
        (∀ n o die, after (nextFunction cxaDemangle demangle defVal functions) n func = some o →
          functions o = some die → die.ownName cxaDemangle demangle defVal = none) →
        Returns (fun fuel => getFunctionName cxaDemangle demangle defVal functions fuel funcDie)
          defVal)) :=
  ⟨⟨DwarfType.load_ends_iff info offset, DwarfType.fails_of_no_terminal⟩,
    getFunctionName_ends_iff hdie, getFunctionName_of_nameless hdie⟩

/-- A function DIE without a name that refers to a specification. -/
def unnamedFunction (specification : DwarfOff) : FunctionDie :=
  ⟨.noEntry, .noEntry, .noEntry, .noEntry, .ok (.ok specification)⟩

/-- Two functions that are the specifications of each other. -/
def mutualFunctions : DwarfOff → Option FunctionDie := fun offset =>
  if offset = 1 then some (unnamedFunction 2)
  else if offset = 2 then some (unnamedFunction 1)
  else none

/-- A type that is a pointer to itself. -/
def pointerToItself : DebugInfo := fun offset =>
  if offset = 1 then some ⟨.ok .pointerType, .noEntry, none, none, some 1, none⟩ else none

/-- The references of the pointer to `void` do not come back, and those of the two functions
do. -/
theorem references_followed_mutual :
    (Ends (fun fuel => DwarfType.load fuel pointerToVoid 1) ↔
        ¬ComesBack (nextType pointerToVoid) 1) ∧
      (Ends (fun fuel => getFunctionName some true "" mutualFunctions fuel (unnamedFunction 2)) ↔
        ¬ComesBack (nextFunction some true "" mutualFunctions) 1) :=
  have hfollowed := references_followed pointerToVoid 1 some true ""
    (show mutualFunctions 1 = some (unnamedFunction 2) from rfl)
  ⟨hfollowed.1.1, hfollowed.2.1⟩

/-- Neither the type nor the name is ever returned. -/
theorem cycles_never_return :
    ¬Ends (fun fuel => DwarfType.load fuel pointerToItself 1) ∧
      ¬Ends (fun fuel => getFunctionName some true "" mutualFunctions fuel
        (unnamedFunction 2)) := by
  refine ⟨fun h => (DwarfType.load_ends_iff _ _).mp h ⟨0, 1, 1, by decide, rfl, rfl⟩, fun h => ?_⟩
  have hdie : mutualFunctions 1 = some (unnamedFunction 2) := rfl
  exact (getFunctionName_ends_iff hdie).mp h ⟨0, 2, 1, by decide, rfl, rfl⟩

end DwarfExpr
