import DwarfExpr.LocationLoad
import DwarfExpr.EvaluateRuns

/-!
# Variables and their types

`DwarfVar` and `DwarfType`, loaded from their DIEs by section offset, and how the value of
a variable is evaluated and printed. Types may refer to types, so loading one is bounded by
fuel.
-/

namespace DwarfExpr

/-- What is asked of the DIE of a variable or a type. Its `DW_AT_name` is read by
`dwarf_diename` for a variable and by `getAttrValue` for a type. A size or a reference is
`none` where `getAttrValue` answers with its default. For the location this is the attribute
of a DIE whose address size and version are known. -/
structure VarDie where
  tag : Dlv DwTag
  diename : Dlv String
  bitSize : Option DwarfUnsigned
  byteSize : Option DwarfUnsigned
  type : Option DwarfOff
  location : Option LocationAttr

/-- `getDieFromOffset`: the DIEs by their offsets. -/
abbrev DebugInfo := DwarfOff → Option VarDie

/-- `DwarfType`, without or with a `base_type_`. -/
inductive DwarfType where
  | plain (tag : DwTag) (size : DwarfUnsigned) (name : String)
  | derived (tag : DwTag) (size : DwarfUnsigned) (baseType : DwarfType) (name : String)
  deriving DecidableEq, Repr

/-- `DwarfTag::tag`. -/
def DwarfType.tag : DwarfType → DwTag
  | plain tag _ _ => tag
  | derived tag _ _ _ => tag

/-- `DwarfType::name`. -/
def DwarfType.name : DwarfType → String
  | plain tag _ name => if tag = .pointerType then "void*" else name
  | derived tag _ baseType name =>
    if tag = .pointerType then baseType.name ++ "*"
    else if tag = .constType then "const " ++ baseType.name
    else name

/-- `MAX_SIZE`. -/
def maxSize : DwarfUnsigned := maxDwarfUnsigned

/-- `DwarfType::size` of a type, and of the first type from it on along the base types that
has a size. -/
def DwarfType.sizes : DwarfType → DwarfUnsigned × DwarfUnsigned
  | plain tag size _ =>
    let own := if tag = .typedef then maxSize else size
    (own, own)
  | derived tag size baseType _ =>
    let own := if tag = .typedef then baseType.sizes.2 else size
    (own, if own ≠ maxSize then own else baseType.sizes.2)

/-- `DwarfType::size`. -/
def DwarfType.size (type : DwarfType) : DwarfUnsigned := type.sizes.1

/-- `size_` from `DW_AT_bit_size` or `DW_AT_byte_size`. -/
def VarDie.size (die : VarDie) : DwarfUnsigned :=
  let bitSz := die.bitSize.getD maxDwarfUnsigned
  if bitSz ≠ maxDwarfUnsigned then bitSz / 8 else die.byteSize.getD maxDwarfUnsigned

/-- `name_` from `DW_AT_name`. -/
def VarDie.typeName (die : VarDie) : String :=
  match die.diename with
  | .ok name => name
  | _ => "unknown"

/-- `DwarfType::load`; the inner `none` is the answer `false`. -/
def DwarfType.load : ℕ → DebugInfo → DwarfOff → Option (Option DwarfType)
  | 0, _, _ => none
  | fuel + 1, info, offset =>
    match info offset with
    | none => some none
    | some die =>
      match die.tag with
      | .ok tag =>
        match tag with
        | .baseType | .enumerationType | .structureType | .classType =>
          some (some (.plain tag die.size die.typeName))
        | .constType | .typedef | .pointerType =>
          let typeRef := die.type.getD maxDwarfUnsigned
          if typeRef ≠ maxDwarfUnsigned then
            match DwarfType.load fuel info typeRef with
            | none => none
            | some none => some none
            | some (some baseType) => some (some (.derived tag 8 baseType die.typeName))
          else some none
        | _ => some none
      | _ => some none

/-- `DwarfVar`. -/
structure DwarfVar where
  offset : DwarfOff
  tag : DwTag
  name : String
  type : DwarfType
  location : Option DwarfLocation

/-- `DwarfVar::load`; the inner `none` is the answer `false`. -/
def DwarfVar.load (fuel : ℕ) (info : DebugInfo) (offset : DwarfOff) : Option (Option DwarfVar) :=
  match info offset with
  | none => some none
  | some die =>
    match die.tag with
    | .ok tag =>
      match die.diename with
      | .ok name =>
        let typeRef := die.type.getD maxDwarfUnsigned
        if typeRef ≠ maxDwarfUnsigned then
          match DwarfType.load fuel info typeRef with
          | none => none
          | some none => some none
          | some (some type) =>
            some (some ⟨offset, tag, name, type, die.location.bind DwarfLocation.load⟩)
        else some none
      | _ => some none
    | _ => some none

/-- The type at the offset is loaded. -/
def DwarfType.Loads (info : DebugInfo) (offset : DwarfOff) (type : DwarfType) : Prop :=
  Fuel.Returns (fun fuel => DwarfType.load fuel info offset) (some type)

/-- The variable at the offset is loaded. -/
def DwarfVar.Loads (info : DebugInfo) (offset : DwarfOff) (var : DwarfVar) : Prop :=
  Fuel.Returns (fun fuel => DwarfVar.load fuel info offset) (some var)

/-- Loading a type settles. Induction on the fuel. -/
theorem DwarfType.load_settles (info : DebugInfo) (offset : DwarfOff) :
    Fuel.Settles fun fuel => DwarfType.load fuel info offset := by
  intro m n hmn
  induction m generalizing n offset with
  | zero => exact Or.inl rfl
  | succ m ih =>
    obtain ⟨k, rfl⟩ : ∃ k, n = k + 1 := ⟨n - 1, by omega⟩
    cases hdie : info offset with
    | none => exact Or.inr (by simp only [load, hdie])
    | some die =>
      have hbase := ih (die.type.getD maxDwarfUnsigned) (show m ≤ k by omega)
      cases htag : die.tag with
      | noEntry | error => exact Or.inr (by simp only [load, hdie, htag])
      | ok tag =>
        by_cases hderived : tag = .constType ∨ tag = .typedef ∨ tag = .pointerType
        · by_cases href : die.type.getD maxDwarfUnsigned = maxDwarfUnsigned
          · right
            rcases hderived with rfl | rfl | rfl <;> simp [load, hdie, htag, href]
          · rcases hbase with h | h
            · left
              rcases hderived with rfl | rfl | rfl <;> simp [load, hdie, htag, href, h]
            · right
              rcases hderived with rfl | rfl | rfl <;> simp [load, hdie, htag, h]
        · right
          cases tag <;> simp [load, hdie, htag] at hderived ⊢

/-- Loading a variable settles. -/
theorem DwarfVar.load_settles (info : DebugInfo) (offset : DwarfOff) :
    Fuel.Settles fun fuel => DwarfVar.load fuel info offset := by
  intro m n hmn
  cases hdie : info offset with
  | none => exact Or.inr (by simp only [load, hdie])
  | some die =>
    cases htag : die.tag with
    | noEntry | error => exact Or.inr (by simp only [load, hdie, htag])
    | ok tag =>
      cases hname : die.diename with
      | noEntry | error => exact Or.inr (by simp only [load, hdie, htag, hname])
      | ok name =>
        by_cases href : die.type.getD maxDwarfUnsigned = maxDwarfUnsigned
        · exact Or.inr (by simp [load, hdie, htag, hname, href])
        · rcases DwarfType.load_settles info (die.type.getD maxDwarfUnsigned) hmn with h | h
          · exact Or.inl (by simp [load, hdie, htag, hname, href, h])
          · exact Or.inr (by simp only [load, hdie, htag, hname, h])

/-- A loaded variable comes from a DIE with its offset, and its type is loaded. -/
theorem DwarfVar.type_of_load {fuel : ℕ} {info : DebugInfo} {offset : DwarfOff} {var : DwarfVar}
    (hload : DwarfVar.load fuel info offset = some (some var)) :
    var.offset = offset ∧
      ∃ typeRef, DwarfType.load fuel info typeRef = some (some var.type) := by
  cases hdie : info offset with
  | none => simp [load, hdie] at hload
  | some die =>
    cases htag : die.tag with
    | noEntry | error => simp [load, hdie, htag] at hload
    | ok tag =>
      cases hname : die.diename with
      | noEntry | error => simp [load, hdie, htag, hname] at hload
      | ok name =>
        by_cases href : die.type.getD maxDwarfUnsigned = maxDwarfUnsigned
        · simp [load, hdie, htag, hname, href] at hload
        · rcases htype : DwarfType.load fuel info (die.type.getD maxDwarfUnsigned) with
            _ | _ | type
          · simp [load, hdie, htag, hname, href, htype] at hload
          · simp [load, hdie, htag, hname, href, htype] at hload
          · simp only [load, hdie, htag, hname, ne_eq, href, not_false_eq_true, if_true, htype,
              Option.some.injEq] at hload
            subst hload
            exact ⟨rfl, _, htype⟩

/-- What leaves the value of a variable undefined: its location, a call through a null
provider, and memory behind the buffer that cannot be read. -/
inductive VarUndefined where
  | inLocation (cause : Undefined)
  | nullProvider
  | beyondBuffer
  deriving DecidableEq, Repr

/-- A number as `std::hex` prints it. -/
def hexNumber (n : ℕ) : String := .ofList (Nat.toDigits 16 n)

/-- `hexstring`: two digits and a blank for each byte. -/
def hexstring (bytes : List UInt8) : String :=
  .ofList (bytes.flatMap fun b =>
    [Nat.digitChar (b.toNat / 16), Nat.digitChar (b.toNat % 16), ' '])

/-- `DwarfVar::formatValue`; `none` is a null buffer. A pointer is read from eight bytes,
whatever the size of the buffer; the bytes behind it are given. -/
def DwarfVar.formatValue (behind : List UInt8) (type : DwarfType) :
    Option (List UInt8) → Except VarUndefined String
  | none => .ok (if type.tag = .pointerType then "nullptr" else "0")
  | some buf =>
    if type.tag = .pointerType then
      let bytes := (buf ++ behind).take 8
      if bytes.length < 8 then .error .beyondBuffer
      else
        let ptrVal := LittleEndian.decode bytes
        .ok (if ptrVal = 0 then "nullptr" else "0x" ++ hexNumber ptrVal)
    else if type.size = maxSize then .ok "unknown type"
    else .ok (hexstring (buf.take (min buf.length type.size.toNat)))

/-- The text for a value, and the bytes that the memory provider has delivered for it. -/
structure ShownValue where
  text : String
  delivered : Option (List UInt8)
  deriving DecidableEq, Repr

/-- `DwarfVar::evalValueAtLoc`. -/
def DwarfVar.evalValueAtLoc (behind : List UInt8) (type : DwarfType) (addr : DwarfAddr)
    (memory : Option MemoryProvider) : Except VarUndefined ShownValue :=
  if addr ≠ 0 then
    if type.size ≠ maxSize then
      match memory with
      | none => .error .nullProvider
      | some memory =>
        match memory addr type.size.toNat with
        | none => .ok ⟨"unknown(addr=" ++ hexNumber addr.toNat ++ ")", none⟩
        | some buf => (formatValue behind type (some buf)).map (⟨·, some buf⟩)
    else (formatValue behind type none).map (⟨·, none⟩)
  else (formatValue behind type none).map (⟨·, none⟩)

/-- `DwarfVar::evalValue`. -/
def DwarfVar.evalValue (behind : List UInt8) (fuel : ℕ) (var : DwarfVar) (context : Context)
    (pc : DwarfAddr) : Option (Except VarUndefined ShownValue) :=
  match var.location with
  | none => some (.ok ⟨"unknown", none⟩)
  | some location =>
    match location.evalValue fuel context pc with
    | none => none
    | some (.error cause) => some (.error (.inLocation cause))
    | some (.ok (.value value)) =>
      some ((formatValue behind var.type (some (LittleEndian.encode 8 value.toNat))).map
        (⟨·, none⟩))
    | some (.ok (.address addr)) => some (evalValueAtLoc behind var.type addr context.memory)
    | some (.ok (.error _ _)) => some (.ok ⟨"unknown", none⟩)

end DwarfExpr
