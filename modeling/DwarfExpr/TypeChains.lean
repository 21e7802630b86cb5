import DwarfExpr.Variables

/-!
# Chains of types

Pointer, const and typedef DIEs refer to other types. `DwarfType::load` gives all three a
size of eight bytes, and `size` looks through typedefs only, so a `const` has the size of
a pointer. A type without `DW_AT_type` stands for `void`, which `name` expects under a
pointer; `load` fails for it and for every type that leads to it.
-/

namespace DwarfExpr

open Fuel (Returns)

/-- The types that refer to no other type. -/
def DwTag.isNamedType : DwTag → Bool
  | .baseType | .enumerationType | .structureType | .classType => true
  | _ => false

/-- The types that refer to another type. -/
def DwTag.isDerivedType : DwTag → Bool
  | .constType | .typedef | .pointerType => true
  | _ => false

section

variable {info : DebugInfo} {offset : DwarfOff} {die : VarDie} {tag : DwTag}

/-- A type that refers to no other loads. -/
theorem DwarfType.loads_named (hdie : info offset = some die) (htag : die.tag = .ok tag)
    (hnamed : tag.isNamedType = true) :
    DwarfType.Loads info offset (.plain tag die.size die.typeName) := by
  refine ⟨1, ?_⟩
  cases tag <;> simp [DwTag.isNamedType] at hnamed <;> simp only [load, hdie, htag]

/-- A type that refers to another loads once that one has, with eight bytes. -/
theorem DwarfType.load_derived {ref : DwarfOff} (hdie : info offset = some die)
    (htag : die.tag = .ok tag) (hderived : tag.isDerivedType = true) (href : die.type = some ref)
    (hne : ref ≠ maxDwarfUnsigned) (fuel : ℕ) :
    DwarfType.load (fuel + 1) info offset =
      (DwarfType.load fuel info ref).map (·.map (.derived tag 8 · die.typeName)) := by
  rcases hbase : DwarfType.load fuel info ref with _ | _ | baseType <;>
    cases tag <;> simp [DwTag.isDerivedType] at hderived <;>
      simp only [load, hdie, htag, href, Option.getD_some, ne_eq, hne, not_false_eq_true, if_true,
        hbase, Option.map_none, Option.map_some]

/-- A type that refers to a type that loads. -/
theorem DwarfType.loads_derived {ref : DwarfOff} {baseType : DwarfType}
    (hdie : info offset = some die) (htag : die.tag = .ok tag)
    (hderived : tag.isDerivedType = true) (href : die.type = some ref)
    (hne : ref ≠ maxDwarfUnsigned) (hbase : DwarfType.Loads info ref baseType) :
    DwarfType.Loads info offset (.derived tag 8 baseType die.typeName) := by
  obtain ⟨fuel, hfuel⟩ := hbase
  refine ⟨fuel + 1, ?_⟩
  simp only [load_derived hdie htag hderived href hne, hfuel, Option.map_some]

/-- A type that refers to a type that does not load does not load either. -/
theorem DwarfType.fails_derived {ref : DwarfOff} (hdie : info offset = some die)
    (htag : die.tag = .ok tag) (hderived : tag.isDerivedType = true) (href : die.type = some ref)
    (hne : ref ≠ maxDwarfUnsigned)
    (hbase : Returns (fun fuel => DwarfType.load fuel info ref) none) :
    Returns (fun fuel => DwarfType.load fuel info offset) none := by
  obtain ⟨fuel, hfuel⟩ := hbase
  refine ⟨fuel + 1, ?_⟩
  simp only [load_derived hdie htag hderived href hne, hfuel, Option.map_some, Option.map_none]

/-- A type that refers to nothing does not load. -/
theorem DwarfType.load_void (hdie : info offset = some die) (htag : die.tag = .ok tag)
    (hderived : tag.isDerivedType = true)
    (href : die.type.getD maxDwarfUnsigned = maxDwarfUnsigned) (fuel : ℕ) :
    DwarfType.load (fuel + 1) info offset = some none := by
  cases tag <;> simp [DwTag.isDerivedType] at hderived <;>
    simp only [load, hdie, htag, href, ne_eq, not_true_eq_false, if_false]

end

/-- Typedef and const DIEs that lead from an offset to the type at `target`, with their tags. -/
inductive QualifierChain (info : DebugInfo) (target : DwarfOff) : DwarfOff → List DwTag → Prop
  | target : QualifierChain info target target []
  | qualifier {offset ref : DwarfOff} {die : VarDie} {tag : DwTag} {tags : List DwTag}
      (hdie : info offset = some die) (htag : die.tag = .ok tag)
      (hkind : tag = .typedef ∨ tag = .constType) (href : die.type = some ref)
      (hne : ref ≠ maxDwarfUnsigned) (hrest : QualifierChain info target ref tags) :
      QualifierChain info target offset (tag :: tags)

/-- The first size along the base types of a type that has a size is its own. -/
theorem DwarfType.sizes_snd {type : DwarfType} (hsize : type.size ≠ maxSize) :
    type.sizes.2 = type.size := by
  cases type with
  | plain tag size name => rfl
  | derived tag size baseType name => exact if_pos hsize

/-- A typedef has the size of its base type. -/
theorem DwarfType.size_typedef {size : DwarfUnsigned} {baseType : DwarfType} {name : String}
    (hsize : baseType.size ≠ maxSize) :
    (DwarfType.derived .typedef size baseType name).size = baseType.size :=
  sizes_snd hsize

/-- Another type has the size stored in it. -/
theorem DwarfType.size_derived {tag : DwTag} {size : DwarfUnsigned} {baseType : DwarfType}
    {name : String} (htag : tag ≠ .typedef) :
    (DwarfType.derived tag size baseType name).size = size :=
  if_neg htag

/-- Along a chain everything loads, and behind its first const all sizes are eight. Induction on
the chain. -/
theorem QualifierChain.loads {info : DebugInfo} {target offset : DwarfOff} {tags : List DwTag}
    (hchain : QualifierChain info target offset tags) {base : DwarfType}
    (hload : base.Loads info target) (hsize : base.size ≠ maxSize) :
    ∃ type : DwarfType, type.Loads info offset ∧
      type.size = if DwTag.constType ∈ tags then 8 else base.size := by
  induction hchain with
  | target => exact ⟨base, hload, rfl⟩
  | @qualifier offset ref die tag tags hdie htag hkind href hne _ ih =>
    obtain ⟨type, htype, hrest⟩ := ih
    have hderived : tag.isDerivedType = true := by
      rcases hkind with rfl | rfl <;> rfl
    refine ⟨_, DwarfType.loads_derived hdie htag hderived href hne htype, ?_⟩
    rcases hkind with rfl | rfl
    · have hknown : type.size ≠ maxSize := by
        rw [hrest]
        split
        · decide
        · exact hsize
      rw [DwarfType.size_typedef hknown, hrest]
      simp
    · rw [DwarfType.size_derived (by decide)]
      simp

/-- A chain of typedef and const DIEs has the size of the type at its end exactly if there is no
const among them or that size is eight. -/
theorem QualifierChain.size_iff {info : DebugInfo} {target offset : DwarfOff} {tags : List DwTag}
    (hchain : QualifierChain info target offset tags) {base : DwarfType}
    (hload : base.Loads info target) (hsize : base.size ≠ maxSize) :
    (∃ type : DwarfType, type.Loads info offset ∧ type.size = base.size) ↔
      (DwTag.constType ∈ tags → base.size = 8) := by
  obtain ⟨type, htype, hvalue⟩ := hchain.loads hload hsize
  constructor
  · rintro ⟨type', htype', hsame⟩ hconst
    obtain rfl : type = type' :=
      Option.some.inj ((DwarfType.load_settles info offset).unique htype htype')
    rw [← hsame, hvalue, if_pos hconst]
  · intro hcondition
    refine ⟨type, htype, ?_⟩
    rw [hvalue]
    split
    · rename_i hconst
      exact (hcondition hconst).symm
    · rfl

/-- A typedef of a const of a number of four bytes. -/
def typedefOfConst : DebugInfo := fun offset =>
  if offset = 1 then some ⟨.ok .typedef, .ok "id", none, none, some 2, none⟩
  else if offset = 2 then some ⟨.ok .constType, .noEntry, none, none, some 3, none⟩
  else if offset = 3 then some ⟨.ok .baseType, .ok "int", none, some 4, none, none⟩
  else none

/-- The chain of the example. -/
theorem typedefOfConst_chain : QualifierChain typedefOfConst 3 1 [.typedef, .constType] :=
  .qualifier rfl rfl (Or.inl rfl) rfl (by decide)
    (.qualifier rfl rfl (Or.inr rfl) rfl (by decide) .target)

/-- The characterization at the example. -/
theorem QualifierChain.size_iff_typedefOfConst :
    (∃ type : DwarfType, type.Loads typedefOfConst 1 ∧
        type.size = (DwarfType.plain .baseType 4 "int").size) ↔
      (DwTag.constType ∈ [DwTag.typedef, .constType] →
        (DwarfType.plain .baseType 4 "int").size = 8) :=
  typedefOfConst_chain.size_iff ⟨1, rfl⟩ (by decide)

/-- The typedef has eight bytes instead of four. -/
theorem typedefOfConst_size :
    QualifierChain typedefOfConst 3 1 [.typedef, .constType] ∧
      (DwarfType.plain .baseType 4 "int").Loads typedefOfConst 3 ∧
      ∃ type : DwarfType, type.Loads typedefOfConst 1 ∧ type.size = 8 ∧
        (DwarfType.plain .baseType 4 "int").size = 4 :=
  ⟨typedefOfConst_chain, ⟨1, rfl⟩, _, ⟨3, rfl⟩, rfl, rfl⟩

/-- Pointer, const and typedef DIEs that lead from a reference to a type with a name or to
`void`, and the name that the whole chain should have. -/
inductive NamedChain (info : DebugInfo) : Option DwarfOff → (endsInVoid : Bool) → String → Prop
  | void : NamedChain info none true "void"
  | named {offset : DwarfOff} {die : VarDie} {tag : DwTag} {name : String}
      (hdie : info offset = some die) (htag : die.tag = .ok tag)
      (hnamed : tag.isNamedType = true) (hname : die.diename = .ok name) :
      NamedChain info (some offset) false name
  | pointer {offset : DwarfOff} {die : VarDie} {endsInVoid : Bool} {name : String}
      (hdie : info offset = some die) (htag : die.tag = .ok .pointerType)
      (href : die.type ≠ some maxDwarfUnsigned)
      (hbase : NamedChain info die.type endsInVoid name) :
      NamedChain info (some offset) endsInVoid (name ++ "*")
  | const {offset : DwarfOff} {die : VarDie} {endsInVoid : Bool} {name : String}
      (hdie : info offset = some die) (htag : die.tag = .ok .constType)
      (href : die.type ≠ some maxDwarfUnsigned)
      (hbase : NamedChain info die.type endsInVoid name) :
      NamedChain info (some offset) endsInVoid ("const " ++ name)
  | typedef {offset : DwarfOff} {die : VarDie} {endsInVoid : Bool} {name baseName : String}
      (hdie : info offset = some die) (htag : die.tag = .ok .typedef)
      (hname : die.diename = .ok name) (href : die.type ≠ some maxDwarfUnsigned)
      (hbase : NamedChain info die.type endsInVoid baseName) :
      NamedChain info (some offset) endsInVoid name

/-- What loading gives for a reference along a chain: the type with the name of the chain if it
ends in a named type, and failure if it ends in `void`. -/
def LoadsNamed (info : DebugInfo) : Option DwarfOff → Bool → String → Prop
  | none, endsInVoid, _ => endsInVoid = true
  | some offset, true, _ => Returns (fun fuel => DwarfType.load fuel info offset) none
  | some offset, false, name => ∃ type : DwarfType, type.Loads info offset ∧ type.name = name

/-- A type that refers to another loads as that one does. -/
theorem LoadsNamed.derived {info : DebugInfo} {offset : DwarfOff} {die : VarDie} {tag : DwTag}
    {endsInVoid : Bool} {baseName name : String} (hdie : info offset = some die)
    (htag : die.tag = .ok tag) (hderived : tag.isDerivedType = true)
    (href : die.type ≠ some maxDwarfUnsigned)
    (hname : ∀ baseType : DwarfType, baseType.name = baseName →
      (DwarfType.derived tag 8 baseType die.typeName).name = name)
    (hbase : LoadsNamed info die.type endsInVoid baseName) :
    LoadsNamed info (some offset) endsInVoid name := by
  cases htype : die.type with
  | none =>
    rw [htype] at hbase
    obtain rfl : endsInVoid = true := hbase
    exact ⟨1, DwarfType.load_void hdie htag hderived (by rw [htype, Option.getD_none]) 0⟩
  | some ref =>
    have hne : ref ≠ maxDwarfUnsigned := by
      rintro rfl
      exact href htype
    rw [htype] at hbase
    cases endsInVoid with
    | true => exact DwarfType.fails_derived hdie htag hderived htype hne hbase
    | false =>
      obtain ⟨baseType, hloads, hbaseName⟩ := hbase
      exact ⟨_, DwarfType.loads_derived hdie htag hderived htype hne hloads,
        hname baseType hbaseName⟩

/-- Loading follows the chain. Induction on the chain. -/
theorem NamedChain.loadsNamed {info : DebugInfo} {ref : Option DwarfOff} {endsInVoid : Bool}
    {name : String} (hchain : NamedChain info ref endsInVoid name) :
    LoadsNamed info ref endsInVoid name := by
  induction hchain with
  | void => rfl
  | @named offset die tag name hdie htag hnamed hname =>
    refine ⟨_, DwarfType.loads_named hdie htag hnamed, ?_⟩
    have hpointer : tag ≠ .pointerType := by
      rintro rfl
      cases hnamed
    rw [DwarfType.name, if_neg hpointer, VarDie.typeName, hname]
  | pointer hdie htag href _ ih =>
    refine ih.derived hdie htag rfl href fun baseType hbase => ?_
    rw [DwarfType.name, if_pos rfl, hbase]
  | const hdie htag href _ ih =>
    refine ih.derived hdie htag rfl href fun baseType hbase => ?_
    rw [DwarfType.name, if_neg (by decide), if_pos rfl, hbase]
  | typedef hdie htag hname href _ ih =>
    refine ih.derived hdie htag rfl href fun baseType hbase => ?_
    rw [DwarfType.name, if_neg (by decide), if_neg (by decide), VarDie.typeName, hname]

/-- The type at the offset loads and has the name, and so have the variables of that type. -/
structure ChainLoads (info : DebugInfo) (offset : DwarfOff) (name : String) : Prop where
  loadedType : ∃ type : DwarfType, type.Loads info offset ∧ type.name = name
  loadedVars : ∀ varOffset die tag varName, info varOffset = some die → die.tag = .ok tag →
    die.diename = .ok varName → die.type = some offset → offset ≠ maxDwarfUnsigned →
      ∃ var : DwarfVar, var.Loads info varOffset ∧ var.type.name = name

/-- A variable loads with the type that it refers to. -/
theorem DwarfVar.loads_of_type {info : DebugInfo} {offset varOffset : DwarfOff} {die : VarDie}
    {tag : DwTag} {varName : String} {type : DwarfType} (hdie : info varOffset = some die)
    (htag : die.tag = .ok tag) (hname : die.diename = .ok varName)
    (href : die.type = some offset) (hne : offset ≠ maxDwarfUnsigned)
    (htype : type.Loads info offset) :
    ∃ var : DwarfVar, var.Loads info varOffset ∧ var.type = type := by
  obtain ⟨fuel, hfuel⟩ := htype
  refine ⟨⟨varOffset, tag, varName, type, die.location.bind DwarfLocation.load⟩, ⟨fuel, ?_⟩, rfl⟩
  simp only [load, hdie, htag, hname, href, Option.getD_some, ne_eq, hne, not_false_eq_true,
    if_true, hfuel]

/-- The type at the start of a chain loads with the name of the chain, and so do its variables,
exactly if the chain does not end in `void`. -/
theorem NamedChain.loads_iff {info : DebugInfo} {offset : DwarfOff} {endsInVoid : Bool}
    {name : String} (hchain : NamedChain info (some offset) endsInVoid name) :
    ChainLoads info offset name ↔ endsInVoid = false := by
  have hloads := hchain.loadsNamed
  cases endsInVoid with
  | true =>
    refine iff_of_false ?_ (by decide)
    rintro ⟨⟨type, htype, -⟩, -⟩
    cases (DwarfType.load_settles info offset).unique hloads htype
  | false =>
    obtain ⟨type, htype, hname⟩ := hloads
    refine iff_of_true ⟨⟨type, htype, hname⟩, ?_⟩ rfl
    intro varOffset die tag varName hdie htag hvarName href hne
    obtain ⟨var, hvar, hvarType⟩ := DwarfVar.loads_of_type hdie htag hvarName href hne htype
    exact ⟨var, hvar, by rw [hvarType, hname]⟩

/-- A pointer to a const number. -/
def pointerToConst : DebugInfo := fun offset =>
  if offset = 1 then some ⟨.ok .pointerType, .noEntry, none, none, some 2, none⟩
  else if offset = 2 then some ⟨.ok .constType, .noEntry, none, none, some 3, none⟩
  else if offset = 3 then some ⟨.ok .baseType, .ok "int", none, some 4, none, none⟩
  else none

/-- The pointer loads with its name. -/
theorem NamedChain.loads_iff_pointerToConst :
    ChainLoads pointerToConst 1 ("const " ++ "int" ++ "*") :=
  (NamedChain.loads_iff (.pointer rfl rfl (by decide)
    (.const rfl rfl (by decide) (.named rfl rfl rfl rfl)))).mpr rfl

/-- A pointer to `void`. -/
def pointerToVoid : DebugInfo := fun offset =>
  if offset = 1 then some ⟨.ok .pointerType, .noEntry, none, none, none, none⟩ else none

/-- The pointer to `void` does not load. -/
theorem pointerToVoid_fails :
    NamedChain pointerToVoid (some 1) true ("void" ++ "*") ∧
      DwarfType.load 1 pointerToVoid 1 = some none :=
  ⟨.pointer rfl rfl (by decide) .void, rfl⟩

end DwarfExpr
