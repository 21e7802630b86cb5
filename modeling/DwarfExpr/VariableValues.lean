import DwarfExpr.Variables

/-!
# Printed values and what was read

For a pointer `nullptr` should stand for eight zero bytes, in a value or in memory that
was read, and for other variables `0` should never stand for nothing. Both words are what
`formatValue` prints for a null buffer, and `evalValueAtLoc` passes a null buffer when
the address is zero and when the size of the type is unknown.

A value that is held in a register is passed with all of its eight bytes and one in memory
with as many as its type has. They print alike.
-/

namespace DwarfExpr

open Fuel (Returns)

/-- The location of the variable evaluates to a result. -/
def DwarfVar.Locates (var : DwarfVar) (context : Context) (pc : DwarfAddr)
    (result : EvalResult) : Prop :=
  ∃ location, var.location = some location ∧
    Returns (fun fuel => location.evalValue fuel context pc) (.ok result)

/-- The memory provider answers the read of that many bytes at an address. -/
def Context.Delivers (context : Context) (addr : DwarfAddr) (size : ℕ) (buf : List UInt8) : Prop :=
  ∃ memory, context.memory = some memory ∧ memory addr size = some buf

/-- What `load` makes of a type: without a base type it is of another kind than a
pointer, and with one its size is eight. -/
theorem DwarfType.load_cases {fuel : ℕ} {info : DebugInfo} {offset : DwarfOff} {type : DwarfType}
    (hload : DwarfType.load fuel info offset = some (some type)) :
    (∃ tag size name, type = .plain tag size name ∧ tag ≠ .pointerType) ∨
      ∃ tag baseType name, type = .derived tag 8 baseType name := by
  cases fuel with
  | zero => cases hload
  | succ fuel =>
    unfold load at hload
    cases hdie : info offset with
    | none => simp [hdie] at hload
    | some die =>
      cases htag : die.tag with
      | noEntry => simp [hdie, htag] at hload
      | error => simp [hdie, htag] at hload
      | ok tag =>
        simp only [hdie, htag] at hload
        split at hload
        iterate 4
          left
          cases hload
          exact ⟨_, _, _, rfl, by decide⟩
        iterate 3
          right
          split at hload
          · split at hload
            · cases hload
            · cases hload
            · cases hload
              exact ⟨_, _, _, rfl⟩
          · cases hload
        cases hload

/-- A loaded pointer has eight bytes. -/
theorem DwarfType.size_of_load {fuel : ℕ} {info : DebugInfo} {offset : DwarfOff}
    {type : DwarfType} (hload : DwarfType.load fuel info offset = some (some type))
    (htag : type.tag = .pointerType) : type.size = 8 := by
  rcases load_cases hload with ⟨tag, size, name, rfl, hother⟩ | ⟨tag, baseType, name, rfl⟩
  · exact absurd htag hother
  · obtain rfl : tag = .pointerType := htag
    rfl

/-- What is shown of a variable whose location has evaluated to a result. -/
def DwarfVar.shownAt (behind : List UInt8) (var : DwarfVar) (context : Context) :
    EvalResult → Except VarUndefined ShownValue
  | .value value =>
    (formatValue behind var.type (some (LittleEndian.encode 8 value.toNat))).map (⟨·, none⟩)
  | .address addr => evalValueAtLoc behind var.type addr context.memory
  | .error _ _ => .ok ⟨"unknown", none⟩

/-- A value is shown for a variable without location, or for what its location evaluates
to. -/
theorem DwarfVar.returns_evalValue_iff {behind : List UInt8} {var : DwarfVar} {context : Context}
    {pc : DwarfAddr} {shown : ShownValue} :
    Returns (fun fuel => evalValue behind fuel var context pc) (.ok shown) ↔
      (var.location = none ∧ shown = ⟨"unknown", none⟩) ∨
        ∃ result, var.Locates context pc result ∧
          var.shownAt behind context result = .ok shown := by
  unfold Locates evalValue
  cases hlocation : var.location with
  | none =>
    rw [Fuel.returns_const_iff]
    simp [eq_comm]
  | some location =>
    simp only [reduceCtorEq, false_and, false_or, Option.some.injEq, exists_eq_left']
    constructor
    · rintro ⟨fuel, htext⟩
      rcases hvalue : location.evalValue fuel context pc with _ | cause | result
      · simp [hvalue] at htext
      · simp [hvalue] at htext
      · refine ⟨result, ⟨fuel, hvalue⟩, ?_⟩
        cases result <;> simpa [hvalue, shownAt] using htext
    · rintro ⟨result, ⟨fuel, hvalue⟩, htext⟩
      refine ⟨fuel, ?_⟩
      cases result <;> simpa [hvalue, shownAt] using htext

/-- A printed pointer starts with `0x`, so it is not `nullptr`. -/
theorem pointer_ne_nullptr (n : ℕ) : "0x" ++ hexNumber n ≠ "nullptr" := by
  intro h
  have hlist := congrArg String.toList h
  rw [String.toList_append] at hlist
  exact absurd (List.cons.inj hlist).1 (by decide)

/-- The text of a failed read is none of the two. -/
theorem failedRead_ne (n : ℕ) :
    "unknown(addr=" ++ hexNumber n ++ ")" ≠ "nullptr" ∧
      "unknown(addr=" ++ hexNumber n ++ ")" ≠ "0" := by
  constructor <;> intro h <;>
    · have hlist := congrArg String.toList h
      rw [String.toList_append, String.toList_append] at hlist
      exact absurd (List.cons.inj hlist).1 (by decide)

/-- Printed bytes are nothing or at least three characters. -/
theorem hexstring_ne_zero (bytes : List UInt8) : hexstring bytes ≠ "0" := by
  intro h
  have hlist := congrArg String.toList h
  rw [hexstring, String.toList_ofList] at hlist
  cases bytes with
  | nil => exact absurd hlist (by decide)
  | cons b bytes =>
    rw [List.flatMap_cons] at hlist
    exact absurd (congrArg List.length hlist) (by simp)

/-- A buffer for a pointer prints as `nullptr` exactly when the eight bytes from its start
are zero. -/
theorem formatValue_pointer_iff {behind buf : List UInt8} {type : DwarfType}
    (htag : type.tag = .pointerType) :
    DwarfVar.formatValue behind type (some buf) = .ok "nullptr" ↔
      (buf ++ behind).take 8 = List.replicate 8 0 := by
  simp only [DwarfVar.formatValue, htag, if_true]
  by_cases hshort : ((buf ++ behind).take 8).length < 8
  · rw [if_pos hshort]
    simp only [reduceCtorEq, false_iff]
    intro hzero
    rw [hzero, List.length_replicate] at hshort
    omega
  · rw [if_neg hshort]
    have hlength : ((buf ++ behind).take 8).length = 8 := by
      rw [List.length_take] at hshort ⊢
      omega
    have hzero := @LittleEndian.decode_eq_zero_iff ((buf ++ behind).take 8)
    rw [hlength] at hzero
    rw [← hzero]
    by_cases hnull : LittleEndian.decode ((buf ++ behind).take 8) = 0
    · simp [hnull]
    · simp [hnull, pointer_ne_nullptr]

/-- No buffer for another variable prints as `0`. -/
theorem formatValue_ne_zero {behind buf : List UInt8} {type : DwarfType}
    (htag : type.tag ≠ .pointerType) :
    DwarfVar.formatValue behind type (some buf) ≠ .ok "0" := by
  simp only [DwarfVar.formatValue, if_neg htag]
  split
  · decide
  · intro h
    exact hexstring_ne_zero _ (Except.ok.inj h)

/-- A text with the bytes delivered for it is the shown value that has both. -/
theorem map_shown_eq_iff {text : Except VarUndefined String} {delivered : Option (List UInt8)}
    {shown : ShownValue} :
    text.map (ShownValue.mk · delivered) = .ok shown ↔
      text = .ok shown.text ∧ delivered = shown.delivered := by
  obtain ⟨t, d⟩ := shown
  cases text <;> simp [Except.map]

/-- When a located pointer is shown as `nullptr`. -/
theorem DwarfVar.shownAt_nullptr_iff {behind : List UInt8} {var : DwarfVar} {context : Context}
    {result : EvalResult} {delivered : Option (List UInt8)} (htag : var.type.tag = .pointerType)
    (hsize : var.type.size = 8) :
    var.shownAt behind context result = .ok ⟨"nullptr", delivered⟩ ↔
      (result = .value 0 ∨ result = .address 0) ∧ none = delivered ∨
        ∃ addr buf, result = .address addr ∧ addr ≠ 0 ∧ context.Delivers addr 8 buf ∧
          (buf ++ behind).take 8 = List.replicate 8 0 ∧ some buf = delivered := by
  cases result with
  | value value =>
    have hbytes : (LittleEndian.encode 8 value.toNat ++ behind).take 8 =
        LittleEndian.encode 8 value.toNat := List.take_left' (by simp)
    have hzero := @LittleEndian.decode_eq_zero_iff (LittleEndian.encode 8 value.toNat)
    rw [LittleEndian.decode_encode value.isLt, LittleEndian.length_encode] at hzero
    have hvalue : value.toNat = 0 ↔ value = 0 := BitVec.toNat_inj (y := 0)
    simp only [shownAt, map_shown_eq_iff, formatValue_pointer_iff htag, hbytes, ← hzero, hvalue]
    simp
  | address addr =>
    have hknown : ¬(8 : DwarfUnsigned) = maxSize := by decide
    simp only [shownAt, evalValueAtLoc, hsize, Context.Delivers]
    by_cases haddr : addr = 0
    · simp [haddr, formatValue, htag, map_shown_eq_iff]
    · have hnonzero : ¬addr = 0#64 := haddr
      rw [if_pos haddr, if_pos hknown]
      cases context.memory with
      | none => simp [hnonzero]
      | some memory =>
        cases hread : memory addr 8 with
        | none => simp [hnonzero, hread, failedRead_ne]
        | some buf =>
          simp [hnonzero, hread, map_shown_eq_iff, formatValue_pointer_iff htag]
  | error code addr => simp [shownAt]

/-- When another located variable is shown as `0`. -/
theorem DwarfVar.shownAt_zero_iff {behind : List UInt8} {var : DwarfVar} {context : Context}
    {result : EvalResult} {delivered : Option (List UInt8)} (htag : var.type.tag ≠ .pointerType) :
    var.shownAt behind context result = .ok ⟨"0", delivered⟩ ↔
      ∃ addr, result = .address addr ∧ (addr = 0 ∨ var.type.size = maxSize) ∧
        none = delivered := by
  cases result with
  | value value => simp [shownAt, map_shown_eq_iff, formatValue_ne_zero htag]
  | address addr =>
    simp only [shownAt, evalValueAtLoc]
    by_cases haddr : addr = 0
    · simp [haddr, formatValue, htag, map_shown_eq_iff]
    · have hnonzero : ¬addr = 0#64 := haddr
      rw [if_pos haddr]
      by_cases hsize : var.type.size = maxSize
      · simp [hsize, formatValue, htag, map_shown_eq_iff]
      · rw [if_pos hsize]
        cases context.memory with
        | none => simp [hnonzero, hsize]
        | some memory =>
          cases hread : memory addr var.type.size.toNat with
          | none => simp [hnonzero, hsize, hread, failedRead_ne]
          | some buf =>
            simp [hnonzero, hsize, hread, map_shown_eq_iff, formatValue_ne_zero htag]
  | error code addr => simp [shownAt]

/-- A pointer is shown as `nullptr` only if its location is the value zero or an address
from which eight zero bytes were delivered, and another variable as `0` only if its
location is a value or bytes were delivered. -/
structure DwarfVar.ShowsObserved (behind : List UInt8) (var : DwarfVar) (context : Context)
    (pc : DwarfAddr) : Prop where
  nullptr : var.type.tag = .pointerType → ∀ delivered,
    Returns (fun fuel => evalValue behind fuel var context pc) (.ok ⟨"nullptr", delivered⟩) →
      var.Locates context pc (.value 0) ∨
        ∃ addr buf, var.Locates context pc (.address addr) ∧ context.Delivers addr 8 buf ∧
          delivered = some buf ∧ 8 ≤ buf.length ∧ buf.take 8 = List.replicate 8 0
  zero : var.type.tag ≠ .pointerType → ∀ delivered,
    Returns (fun fuel => evalValue behind fuel var context pc) (.ok ⟨"0", delivered⟩) →
      (∃ value, var.Locates context pc (.value value)) ∨ delivered ≠ none

/-- A location evaluates to one result at most. -/
theorem DwarfVar.Locates.unique {var : DwarfVar} {context : Context} {pc : DwarfAddr}
    {r s : EvalResult} (hr : var.Locates context pc r) (hs : var.Locates context pc s) : r = s := by
  obtain ⟨location, hlocation, hr⟩ := hr
  obtain ⟨location', hlocation', hs⟩ := hs
  rw [hlocation] at hlocation'
  cases hlocation'
  exact Except.ok.inj ((location.evalValue_settles context pc).unique hr hs)

/-- What a pointer must not be to be shown as observed: its location is not the address
zero, and no short answer to its read has zero bytes together with those behind it. -/
theorem DwarfVar.nullptr_observed_iff {behind : List UInt8} {var : DwarfVar} {context : Context}
    {pc : DwarfAddr} (htag : var.type.tag = .pointerType) (hsize : var.type.size = 8) :
    var.ShowsObserved behind context pc ↔
      ¬var.Locates context pc (.address 0) ∧
        ∀ addr buf, var.Locates context pc (.address addr) → context.Delivers addr 8 buf →
          (buf ++ behind).take 8 = List.replicate 8 0 → 8 ≤ buf.length := by
  constructor
  · intro h
    have hshown (result : EvalResult) (delivered : Option (List UInt8))
        (hlocates : var.Locates context pc result)
        (hnull : var.shownAt behind context result = .ok ⟨"nullptr", delivered⟩) :=
      h.nullptr htag delivered (returns_evalValue_iff.mpr (Or.inr ⟨result, hlocates, hnull⟩))
    have hzero : ¬var.Locates context pc (.address 0) := by
      intro hlocates
      have hnull : var.shownAt behind context (.address 0) = .ok ⟨"nullptr", none⟩ :=
        (shownAt_nullptr_iff htag hsize).mpr (Or.inl ⟨Or.inr rfl, rfl⟩)
      rcases hshown _ none hlocates hnull with hvalue | ⟨addr, buf, -, -, hnone, -⟩
      · cases hlocates.unique hvalue
      · cases hnone
    refine ⟨hzero, fun addr buf hlocates hdelivers hbytes => ?_⟩
    have haddr : addr ≠ 0 := by
      rintro rfl
      exact hzero hlocates
    have hnull : var.shownAt behind context (.address addr) = .ok ⟨"nullptr", some buf⟩ :=
      (shownAt_nullptr_iff htag hsize).mpr
        (Or.inr ⟨addr, buf, rfl, haddr, hdelivers, hbytes, rfl⟩)
    rcases hshown _ _ hlocates hnull with hvalue | ⟨_, buf', -, -, hsome, hlong, -⟩
    · cases hlocates.unique hvalue
    · cases hsome
      exact hlong
  · rintro ⟨hzero, hshort⟩
    refine ⟨fun _ delivered hreturns => ?_, fun hother => absurd htag hother⟩
    rcases returns_evalValue_iff.mp hreturns with ⟨-, hunknown⟩ | ⟨result, hlocates, hnull⟩
    · exact absurd hunknown (by simp)
    · rcases (shownAt_nullptr_iff htag hsize).mp hnull with
        ⟨rfl | rfl, -⟩ | ⟨addr, buf, rfl, haddr, hdelivers, hbytes, rfl⟩
      · exact Or.inl hlocates
      · exact absurd hlocates hzero
      · have hlong := hshort addr buf hlocates hdelivers hbytes
        rw [List.take_append_of_le_length hlong] at hbytes
        exact Or.inr ⟨addr, buf, hlocates, hdelivers, rfl, hlong, hbytes⟩

/-- Another variable is shown as observed exactly when its location is not the address
zero, and no address at all if its size is unknown. -/
theorem DwarfVar.zero_observed_iff {behind : List UInt8} {var : DwarfVar} {context : Context}
    {pc : DwarfAddr} (htag : var.type.tag ≠ .pointerType) :
    var.ShowsObserved behind context pc ↔
      ¬var.Locates context pc (.address 0) ∧
        (var.type.size = maxSize → ∀ addr, ¬var.Locates context pc (.address addr)) := by
  constructor
  · intro h
    have hnot (addr : DwarfAddr) (hcause : addr = 0 ∨ var.type.size = maxSize) :
        ¬var.Locates context pc (.address addr) := by
      intro hlocates
      have hshown : var.shownAt behind context (.address addr) = .ok ⟨"0", none⟩ :=
        (shownAt_zero_iff htag).mpr ⟨addr, rfl, hcause, rfl⟩
      have hreturns := returns_evalValue_iff.mpr (Or.inr ⟨_, hlocates, hshown⟩)
      rcases h.zero htag none hreturns with ⟨value, hvalue⟩ | hsome
      · cases hlocates.unique hvalue
      · exact hsome rfl
    exact ⟨hnot 0 (Or.inl rfl), fun hsize addr => hnot addr (Or.inr hsize)⟩
  · rintro ⟨hzero, hunknown⟩
    refine ⟨fun hpointer => absurd hpointer htag, fun _ delivered hreturns => ?_⟩
    rcases returns_evalValue_iff.mp hreturns with ⟨-, hunknown⟩ | ⟨result, hlocates, hshown⟩
    · exact absurd hunknown (by simp)
    · obtain ⟨addr, rfl, rfl | hsize, -⟩ := (shownAt_zero_iff htag).mp hshown
      · exact absurd hlocates hzero
      · exact absurd hlocates (hunknown hsize addr)

/-- A loaded variable shows `nullptr` and `0` only for what was observed exactly when its
location is not the address zero, a variable of unknown size is not located at an
address, and no short answer to the read of a pointer has zero bytes with those behind it. -/
theorem DwarfVar.showsObserved_iff {info : DebugInfo} {offset : DwarfOff} {var : DwarfVar}
    (hload : var.Loads info offset) (behind : List UInt8) (context : Context) (pc : DwarfAddr) :
    var.ShowsObserved behind context pc ↔
      ¬var.Locates context pc (.address 0) ∧
        (var.type.tag ≠ .pointerType → var.type.size = maxSize →
          ∀ addr, ¬var.Locates context pc (.address addr)) ∧
        (var.type.tag = .pointerType → ∀ addr buf, var.Locates context pc (.address addr) →
          context.Delivers addr 8 buf → (buf ++ behind).take 8 = List.replicate 8 0 →
            8 ≤ buf.length) := by
  obtain ⟨fuel, hload⟩ := hload
  obtain ⟨-, typeRef, htype⟩ := type_of_load hload
  by_cases htag : var.type.tag = .pointerType
  · rw [nullptr_observed_iff htag (DwarfType.size_of_load htype htag)]
    simp only [htag, ne_eq, not_true_eq_false, false_implies, true_and, true_implies]
  · rw [zero_observed_iff htag]
    simp only [ne_eq, htag, not_false_eq_true, true_implies, false_implies, and_true]

/-- The location attribute of a variable at a fixed address. -/
def fixedAddress (addr : DwarfAddr) : LocationAttr :=
  ⟨.ok .exprloc,
    .ok [.ok ⟨⟨false, 0, maxDwarfAddr, [.ok { opcode := .const .addr, op1 := addr, off := 0 }]⟩,
      .startEnd⟩], .noEntry⟩

/-- A pointer to a number at a fixed address: a variable at offset 1 with its types. -/
def pointerAt (addr : DwarfAddr) : DebugInfo := fun offset =>
  if offset = 1 then some ⟨.ok .variable, .ok "p", none, none, some 2, some (fixedAddress addr)⟩
  else if offset = 2 then some ⟨.ok .pointerType, .noEntry, none, none, some 3, none⟩
  else if offset = 3 then some ⟨.ok .baseType, .ok "int", none, some 4, none, none⟩
  else none

/-- The loaded pointer. -/
def pointerVar (addr : DwarfAddr) : DwarfVar :=
  ⟨1, .variable, "p", .derived .pointerType 8 (.plain .baseType 4 "int") "unknown",
    DwarfLocation.load (fixedAddress addr)⟩

/-- A context in which reads deliver the byte one. -/
def onesContext : Context :=
  { emptyContext with memory := some fun _ size => some (.replicate size 1) }

/-- The pointer at the address `0x1000` is not shown as `nullptr`. -/
theorem DwarfVar.showsObserved_iff_pointerAt :
    (pointerVar 0x1000).ShowsObserved [] onesContext 0 := by
  have hlocates : (pointerVar 0x1000).Locates onesContext 0 (.address 0x1000) := ⟨_, rfl, 5, rfl⟩
  have hload : (pointerVar 0x1000).Loads (pointerAt 0x1000) 1 := ⟨5, rfl⟩
  refine (showsObserved_iff hload [] onesContext 0).mpr
    ⟨fun hzero => ?_, fun hother => absurd rfl hother, fun _ addr buf _ hdelivers hbytes => ?_⟩
  · cases hlocates.unique hzero
  · obtain ⟨memory, hmemory, hread⟩ := hdelivers
    cases hmemory
    cases hread
    exact absurd hbytes (by decide)

/-- The pointer whose location evaluates to the address zero is shown as `nullptr`. -/
theorem DwarfVar.not_showsObserved_addressZero :
    (pointerVar 0).Loads (pointerAt 0) 1 ∧ ¬(pointerVar 0).ShowsObserved [] onesContext 0 := by
  refine ⟨⟨5, rfl⟩, fun h => ?_⟩
  have hlocates : (pointerVar 0).Locates onesContext 0 (.address 0) := ⟨_, rfl, 5, rfl⟩
  rcases h.nullptr rfl none ⟨5, rfl⟩ with hvalue | ⟨_, _, -, -, hnone, -⟩
  · cases hlocates.unique hvalue
  · cases hnone

/-- A size of at most eight bytes is not the one that stands for none. -/
theorem ne_maxSize_of_le {size : DwarfUnsigned} (hsize : size.toNat ≤ 8) : size ≠ maxSize := by
  rintro rfl
  exact absurd hsize (by decide)

/-- A buffer for a value and its lowest bytes, as many as the type has, print the same.
Pointers have eight bytes, and of other buffers only those of the type are printed. -/
theorem DwarfVar.formatValue_low_bytes {type : DwarfType} {n : ℕ} (hn : n ≤ 8)
    (hsize : type.size.toNat = n) (hpointer : type.tag = .pointerType → type.size = 8)
    (behind behind' : List UInt8) (value : ℕ) :
    ∃ text, formatValue behind type (some (LittleEndian.encode 8 value)) = .ok text ∧
      formatValue behind' type (some (LittleEndian.encode n value)) = .ok text := by
  by_cases htag : type.tag = .pointerType
  · obtain rfl : n = 8 := by
      rw [← hsize, hpointer htag]
      rfl
    have htext (rest : List UInt8) : formatValue rest type (some (LittleEndian.encode 8 value)) =
        .ok (if LittleEndian.decode (LittleEndian.encode 8 value) = 0 then "nullptr"
          else "0x" ++ hexNumber (LittleEndian.decode (LittleEndian.encode 8 value))) := by
      have hbytes : (LittleEndian.encode 8 value ++ rest).take 8 = LittleEndian.encode 8 value :=
        List.take_left' (LittleEndian.length_encode 8 value)
      simp only [formatValue, if_pos htag, hbytes, LittleEndian.length_encode]
      rw [if_neg (by decide)]
    exact ⟨_, htext behind, htext behind'⟩
  · have hknown := ne_maxSize_of_le (hsize.trans_le hn)
    refine ⟨hexstring (LittleEndian.encode n value), ?_, ?_⟩
    · simp only [formatValue, if_neg htag, if_neg hknown, LittleEndian.length_encode, hsize,
        Nat.min_eq_right hn, LittleEndian.take_encode hn]
    · simp only [formatValue, if_neg htag, if_neg hknown, LittleEndian.length_encode, hsize,
        Nat.min_self, LittleEndian.take_encode le_rfl]

/-- A variable of a loaded type with at most eight bytes whose location is a value is shown
with the same text as one whose location is the address of the lowest bytes of the value. -/
theorem DwarfVar.value_shown_as_memory {info : DebugInfo} {offset : DwarfOff} {type : DwarfType}
    (hload : type.Loads info offset) {n : ℕ} (hn : n ≤ 8) (hsize : type.size.toNat = n)
    {var var' : DwarfVar} (htype : var.type = type) (htype' : var'.type = type)
    {context context' : Context} {pc pc' : DwarfAddr} {value addr : BitVec 64}
    (hvalue : var.Locates context pc (.value value))
    (haddr : var'.Locates context' pc' (.address addr)) (hnonzero : addr ≠ 0)
    (hdelivers : context'.Delivers addr n (LittleEndian.encode n value.toNat))
    (behind behind' : List UInt8) :
    ∃ text, Returns (fun fuel => evalValue behind fuel var context pc) (.ok ⟨text, none⟩) ∧
      Returns (fun fuel => evalValue behind' fuel var' context' pc')
        (.ok ⟨text, some (LittleEndian.encode n value.toNat)⟩) := by
  obtain ⟨fuel, hload⟩ := hload
  obtain ⟨memory, hmemory, hread⟩ := hdelivers
  obtain ⟨text, hregister, hstored⟩ := formatValue_low_bytes hn hsize
    (DwarfType.size_of_load hload) behind behind' value.toNat
  have hknown := ne_maxSize_of_le (hsize.trans_le hn)
  refine ⟨text, returns_evalValue_iff.mpr (Or.inr ⟨_, hvalue, ?_⟩),
    returns_evalValue_iff.mpr (Or.inr ⟨_, haddr, ?_⟩)⟩
  · rw [shownAt, htype, hregister]
    rfl
  · simp only [shownAt, htype', evalValueAtLoc, if_pos hnonzero, if_pos hknown, hmemory, hsize,
      hread, hstored]
    rfl

/-- The location attribute of a variable that has a computed value. -/
def fixedValue (value : DwarfAddr) : LocationAttr :=
  ⟨.ok .exprloc,
    .ok [.ok ⟨⟨false, 0, maxDwarfAddr, [.ok { opcode := .const .addr, op1 := value, off := 0 },
      .ok { opcode := .stackValue, off := 9 }]⟩, .startEnd⟩], .noEntry⟩

/-- The pointer with the value whose bytes are ones, and the one that reads them. -/
theorem DwarfVar.ones_shown_alike :
    ∃ text, Returns (fun fuel => evalValue [] fuel
        { pointerVar 0 with location := DwarfLocation.load (fixedValue 0x0101010101010101) }
        emptyContext 0) (.ok ⟨text, none⟩) ∧
      Returns (fun fuel => evalValue [] fuel (pointerVar 0x1000) onesContext 0)
        (.ok ⟨text, some (LittleEndian.encode 8 0x0101010101010101)⟩) :=
  @value_shown_as_memory (pointerAt 0x1000) 2 _ ⟨4, rfl⟩ 8 le_rfl rfl
    { pointerVar 0 with location := DwarfLocation.load (fixedValue 0x0101010101010101) }
    (pointerVar 0x1000) rfl rfl emptyContext onesContext 0 0 0x0101010101010101#64 0x1000#64
    ⟨_, rfl, 5, rfl⟩ ⟨_, rfl, 5, rfl⟩ (by decide) ⟨_, rfl, rfl⟩ [] []

end DwarfExpr
