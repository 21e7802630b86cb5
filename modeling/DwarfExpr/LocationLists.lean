import DwarfExpr.ExpressionEffects
import DwarfExpr.Frames
import DwarfExpr.Lib.FirstMatch

/-!
# Location lists

`DwarfLocation` holds the entries of a location list, and `evalValue` evaluates the
first one that is unlimited or covers the pc. Its upper bounds are relative to the high
pc of the unit and not, as the comment in the source says, to its low pc. The loader
leaves the bounds zero that it does not know, which `evalValue` takes for unlimited.
-/

namespace DwarfExpr

open Fuel (Returns)

/-- The range of the entry is unlimited. -/
def LocationExpression.unlimited (e : LocationExpression) : Bool :=
  e.lowAddr = 0 && (e.highAddr = 0 || e.highAddr = maxDwarfUnsigned)

/-- The pc lies between the bounds of the entry, counted from the given addresses. -/
def LocationExpression.covers (lowBase highBase pc : DwarfAddr) (e : LocationExpression) : Bool :=
  e.lowAddr + lowBase ≤ pc && pc < e.highAddr + highBase

/-- The test that `evalValue` makes of an entry. -/
def Context.accepts (context : Context) (pc : DwarfAddr) (e : LocationExpression) : Bool :=
  e.unlimited || e.covers context.cuLowAddr context.cuHighAddr pc

/-- The index of the entry that `evalValue` evaluates. -/
def DwarfLocation.chosen (context : Context) (pc : DwarfAddr) (location : DwarfLocation) :
    Option ℕ :=
  location.exprs.findIdx? (context.accepts pc)

/-- The search of `evalValue` finds the first entry that passes its test. -/
theorem DwarfLocation.select_eq_find? (context : Context) (pc : DwarfAddr)
    (eval : DwarfExpression → Bounded EvalResult) (exprs : List LocationExpression) :
    select context pc eval exprs =
      match exprs.find? (context.accepts pc) with
      | some e => eval e.expr
      | none => some (.ok (.error .addressInvalid 0)) := by
  induction exprs with
  | nil => rfl
  | cons e rest ih =>
    unfold select
    rw [List.find?_cons]
    by_cases hall : e.unlimited = true
    · have haccepts : context.accepts pc e = true := by simp [Context.accepts, hall]
      rw [haccepts]
      exact if_pos hall
    · have hall' : ¬(e.lowAddr = 0 && (e.highAddr = 0 || e.highAddr = maxDwarfUnsigned)) = true :=
        hall
      rw [if_neg hall']
      by_cases hin : e.covers context.cuLowAddr context.cuHighAddr pc = true
      · have haccepts : context.accepts pc e = true := by simp [Context.accepts, hin]
        rw [haccepts]
        exact if_pos hin
      · have haccepts : context.accepts pc e = false := by simp [Context.accepts, hall, hin]
        rw [haccepts, ← ih]
        exact if_neg hin

/-- What `evalValue` makes of an entry: its evaluation, or the error that there is none. -/
def DwarfLocation.valueOf (fuel : ℕ) (context : Context) (pc : DwarfAddr)
    (location : DwarfLocation) (i : Option ℕ) : Bounded EvalResult :=
  match i.bind (location.exprs[·]?) with
  | some e => (evaluate fuel context pc e.expr []).map (·.map Prod.fst)
  | none => some (.ok (.error .addressInvalid 0))

/-- `evalValue` evaluates the chosen entry. -/
theorem DwarfLocation.evalValue_eq (fuel : ℕ) (context : Context) (pc : DwarfAddr)
    (location : DwarfLocation) :
    location.evalValue fuel context pc =
      location.valueOf fuel context pc (location.chosen context pc) := by
  unfold evalValue valueOf chosen
  rw [select_eq_find?, FirstMatch.find?_eq_bind]

/-- The entry of the frame base that is evaluated at a pc. -/
def Context.frameBaseEntry (context : Context) (pc : DwarfAddr) : Option LocationExpression :=
  context.frameBaseLoc.bind fun location => location.exprs.find? (context.accepts pc)

/-- A context with an entry for the frame base has a frame base. -/
theorem frameBaseLoc_ne_none {context : Context} {pc : DwarfAddr} {e : LocationExpression}
    (hentry : context.frameBaseEntry pc = some e) : context.frameBaseLoc ≠ none := by
  intro hnone
  simp only [Context.frameBaseEntry, hnone, Option.bind_none, reduceCtorEq] at hentry

/-- The frame base is the value of its entry. -/
theorem frameBaseAt_eq (fuel : ℕ) (context : Context) (pc : DwarfAddr) :
    frameBaseAt fuel context pc =
      match context.frameBaseEntry pc with
      | some e => (evaluate fuel context pc e.expr []).map (·.map Prod.fst)
      | none => some (.ok (.error .addressInvalid 0)) := by
  unfold frameBaseAt Context.frameBaseEntry
  rw [DwarfLocation.select_eq_find?]
  cases context.frameBaseLoc <;> rfl

/-- Only without a chosen entry does `evalValue` report an address outside all ranges. -/
theorem DwarfLocation.evalValue_addressInvalid_iff {context : Context} {pc : DwarfAddr}
    {location : DwarfLocation} :
    (∃ addr, Returns (fun fuel => location.evalValue fuel context pc)
        (.ok (.error .addressInvalid addr))) ↔ location.chosen context pc = none := by
  simp only [evalValue_eq]
  cases hchosen : location.chosen context pc with
  | none => exact iff_of_true ⟨0, 0, rfl⟩ rfl
  | some i =>
    obtain ⟨hi, -⟩ := List.findIdx?_eq_some_iff_getElem.mp hchosen
    simp only [reduceCtorEq, iff_false]
    rintro ⟨addr, fuel, hvalue⟩
    simp only [valueOf, Option.bind_some, List.getElem?_eq_getElem hi] at hvalue
    obtain ⟨outcome, hrun, hresult⟩ := Option.map_eq_some_iff.mp hvalue
    rcases outcome with cause | ⟨result, stack⟩
    · cases hresult
    · cases hresult
      exact evaluate_ne_addressInvalid ⟨fuel, hrun⟩ rfl

/-- The entry that should be chosen: the first that is unlimited or whose range, counted
from the low pc of the unit, contains the pc. -/
def DwarfLocation.documented (context : Context) (pc : DwarfAddr) (location : DwarfLocation) :
    Option ℕ :=
  location.exprs.findIdx? fun e =>
    e.unlimited || e.covers context.cuLowAddr context.cuLowAddr pc

/-- `evalValue` chooses the entry it should, whatever the high pc of the unit is, and
returns its evaluation, or the error that there is none. -/
structure DwarfLocation.SelectsAsDocumented (context : Context) (pc : DwarfAddr)
    (location : DwarfLocation) : Prop where
  value : ∀ fuel, location.evalValue fuel context pc =
    location.valueOf fuel context pc (location.documented context pc)
  addressInvalid : (∃ addr, Returns (fun fuel => location.evalValue fuel context pc)
    (.ok (.error .addressInvalid addr))) ↔ location.documented context pc = none
  choice : ∀ cuHighAddr, location.chosen { context with cuHighAddr := cuHighAddr } pc =
    location.documented context pc

/-- All is as it should be once the choice is. -/
theorem DwarfLocation.selectsAsDocumented_iff_choice {context : Context} {pc : DwarfAddr}
    {location : DwarfLocation} :
    location.SelectsAsDocumented context pc ↔
      ∀ cuHighAddr, location.chosen { context with cuHighAddr := cuHighAddr } pc =
        location.documented context pc := by
  constructor
  · exact SelectsAsDocumented.choice
  · intro hchoice
    have hchosen : location.chosen context pc = location.documented context pc :=
      hchoice context.cuHighAddr
    exact ⟨fun fuel => by rw [evalValue_eq, hchosen],
      by rw [evalValue_addressInvalid_iff, hchosen], hchoice⟩

/-- Below the last address some high pc of the unit lets a range end behind the pc. -/
theorem exists_highBase_gt {pc : DwarfAddr} (hpc : pc ≠ maxDwarfAddr) (high : DwarfAddr) :
    ∃ highBase, pc < high + highBase := by
  refine ⟨maxDwarfAddr - high, ?_⟩
  rw [BitVec.add_comm, BitVec.sub_add_cancel, BitVec.lt_def]
  have hlt := pc.isLt
  have hne : pc.toNat ≠ 2 ^ 64 - 1 := fun h => hpc (BitVec.eq_of_toNat_eq h)
  have hmax : maxDwarfAddr.toNat = 2 ^ 64 - 1 := rfl
  omega

/-- Some high pc of the unit lets a range end at the pc. -/
theorem exists_highBase_eq (pc high : DwarfAddr) : ∃ highBase, high + highBase = pc :=
  ⟨pc - high, by rw [BitVec.add_comm, BitVec.sub_add_cancel]⟩

/-- `evalValue` chooses as documented exactly when the pc is the last address, so that no
range covers it, or each limited entry that begins at or below the pc stands behind an
unlimited one. -/
theorem DwarfLocation.selectsAsDocumented_iff (context : Context) (pc : DwarfAddr)
    (location : DwarfLocation) :
    location.SelectsAsDocumented context pc ↔
      pc = maxDwarfAddr ∨ ∀ (i : ℕ) (e : LocationExpression), location.exprs[i]? = some e →
        e.unlimited = false → e.lowAddr + context.cuLowAddr ≤ pc →
        ∃ j < i, ∃ e', location.exprs[j]? = some e' ∧ e'.unlimited = true := by
  rw [selectsAsDocumented_iff_choice]
  constructor
  · intro hchoice
    by_cases hpc : pc = maxDwarfAddr
    · exact Or.inl hpc
    right
    intro i
    induction i using Nat.strong_induction_on with
    | _ i ih =>
      intro e he hlimited hlow
      -- With one high pc of the unit the entry covers the pc, with another it does not.
      obtain ⟨above, habove⟩ := exists_highBase_gt hpc e.highAddr
      obtain ⟨below, hbelow⟩ := exists_highBase_eq pc e.highAddr
      have hsame := (hchoice above).trans (hchoice below).symm
      obtain ⟨j, hji, e', he', haccepts, -⟩ :=
        FirstMatch.findIdx?_eq_iff.mp hsame i e he (by
          simp [Context.accepts, LocationExpression.covers, hlimited, hlow, habove, hbelow])
      cases hunlimited : e'.unlimited with
      | true => exact ⟨j, hji, e', he', hunlimited⟩
      | false =>
        have hlow' : e'.lowAddr + context.cuLowAddr ≤ pc := by
          simp only [Context.accepts, LocationExpression.covers, hunlimited, Bool.false_or,
            Bool.and_eq_true, decide_eq_true_eq] at haccepts
          exact haccepts.1
        obtain ⟨k, hkj, e'', he'', hall⟩ := ih j hji e' he' hunlimited hlow'
        exact ⟨k, by omega, e'', he'', hall⟩
  · intro hcond cuHighAddr
    unfold chosen documented
    rw [FirstMatch.findIdx?_eq_iff]
    intro i e he hdiffer
    have hlimited : e.unlimited = false := by
      cases hunlimited : e.unlimited with
      | false => rfl
      | true => simp [Context.accepts, hunlimited] at hdiffer
    have hlow : e.lowAddr + context.cuLowAddr ≤ pc := by
      by_contra hlow
      simp [Context.accepts, LocationExpression.covers, hlow] at hdiffer
    have hpc : pc ≠ maxDwarfAddr := by
      rintro rfl
      have hnot (x : DwarfAddr) : ¬maxDwarfAddr < x := by
        have hlt := x.isLt
        have hmax : maxDwarfAddr.toNat = 2 ^ 64 - 1 := rfl
        rw [BitVec.lt_def]
        omega
      simp [Context.accepts, LocationExpression.covers, hnot] at hdiffer
    obtain ⟨j, hji, e', he', hunlimited⟩ := (hcond.resolve_left hpc) i e he hlimited hlow
    exact ⟨j, hji, e', he', by simp [Context.accepts, hunlimited], by simp [hunlimited]⟩

/-- A list whose first entry ends, and whose second begins, at the offset `0x20`. -/
def twoRanges : DwarfLocation :=
  ⟨[⟨0x10, 0x20, ⟨[⟨.lit 1, 0, 0, 0, 0⟩]⟩⟩, ⟨0x20, 0x40, ⟨[⟨.lit 2, 0, 0, 0, 0⟩]⟩⟩]⟩

/-- A unit from `0x1000` to `0x2000`. -/
def unitContext : Context := { emptyContext with cuLowAddr := 0x1000, cuHighAddr := 0x2000 }

/-- At the offset `0x30` the entry that has ended is chosen. -/
theorem twoRanges_not_selectsAsDocumented :
    ¬twoRanges.SelectsAsDocumented unitContext 0x1030 := by
  intro h
  have hchoice := h.choice 0x2000
  exact absurd hchoice (by decide)

end DwarfExpr
