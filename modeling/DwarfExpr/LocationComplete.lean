import DwarfExpr.Lib.LossyMap
import DwarfExpr.LocationLoad

/-!
# What loading a location leaves out

`DwarfLocation::load` leaves out the entries and the operations that libdwarf fails to
deliver, and reports success all the same. Of a simple form it takes the first entry only,
and of an entry at most `2 ^ 31 - 1` operations, since their loop counts in an `int`.
-/

namespace DwarfExpr

/-- The list of entries that libdwarf reports for an attribute of a known form. -/
def LocationAttr.loclist (attr : LocationAttr) : Dlv LoclistAnswers :=
  match attr.whatform with
  | .ok form =>
    if isSimpleLocationExpr form then attr.exprloc
    else if isLocationForm form then attr.getLoclist
    else .error
  | _ => .error

/-- The attribute has one of the forms that hold an expression themselves. -/
def LocationAttr.isSimple (attr : LocationAttr) : Bool :=
  match attr.whatform with
  | .ok form => isSimpleLocationExpr form
  | _ => false

/-- libdwarf delivers the entry with these operations, in order. -/
def HoldsEntry (answer : Dlv LoclistEntry) (e : LocationExpression) : Prop :=
  ∃ entry, answer = .ok entry ∧ List.Forall₂ (fun op a => op = .ok a) entry.ops e.expr.ops

/-- A successful load holds every entry that libdwarf reports, in order, with all its
operations. -/
def LoadsAll (attr : LocationAttr) : Prop :=
  ∀ location, DwarfLocation.load attr = some location →
    ∃ answers, attr.loclist = .ok answers ∧ List.Forall₂ HoldsEntry answers location.exprs

/-- libdwarf delivers the entry and all its operations, and their number fits an `int`. -/
def Dlv.Complete (answer : Dlv LoclistEntry) : Prop :=
  ∃ entry, answer = .ok entry ∧ entry.ops.length < 2 ^ 31 ∧ ∀ op ∈ entry.ops, ∃ a, op = .ok a

/-- The loop over the operations makes as many rounds as there are exactly below `2 ^ 31`. -/
theorem le_intRounds_iff (count : ℕ) : count ≤ intRounds count ↔ count < 2 ^ 31 := by
  have hlow := BitVec.le_toInt (BitVec.ofNat 32 count)
  have hhigh := BitVec.toInt_lt (x := BitVec.ofNat 32 count)
  unfold intRounds
  constructor
  · intro hle
    omega
  · intro hlt
    have hword : (BitVec.ofNat 32 count).toNat = count := by
      rw [BitVec.toNat_ofNat, Nat.mod_eq_of_lt (by omega)]
    rw [BitVec.toInt_eq_toNat_of_lt (by omega), hword, Int.toNat_natCast]

/-- The stored form of an entry has its loaded operations. -/
theorem LoclistEntry.stored_ops (a : LoclistEntry) : a.stored.expr.ops = a.loadedOps := by
  unfold LoclistEntry.stored
  split <;> rfl

/-- The stored form of an entry holds it exactly if all its operations are delivered and
counted. -/
theorem holdsEntry_stored_iff (entry : LoclistEntry) :
    HoldsEntry (.ok entry) entry.stored ↔ (Dlv.ok entry).Complete := by
  have hops : List.Forall₂ (fun op a => op = Dlv.ok a) entry.ops entry.stored.expr.ops ↔
      entry.ops.length < 2 ^ 31 ∧ ∀ op ∈ entry.ops, ∃ a, op = .ok a := by
    rw [LoclistEntry.stored_ops, LocdescEntry.loadedOps, LossyMap.forall₂_take_filterMap_iff,
      le_intRounds_iff]
    refine and_congr_right fun _ => forall_congr' fun op => imp_congr_right fun _ => ?_
    exact ⟨fun ⟨a, _, ha⟩ => ⟨a, ha⟩, fun ⟨a, ha⟩ => ⟨a, by rw [ha]; rfl, ha⟩⟩
  constructor
  · rintro ⟨entry', heq, hall⟩
    obtain rfl : entry = entry' := Dlv.ok.inj heq
    exact ⟨entry, rfl, hops.mp hall⟩
  · rintro ⟨entry', heq, hall⟩
    obtain rfl : entry = entry' := Dlv.ok.inj heq
    exact ⟨entry, rfl, hops.mpr hall⟩

/-- The first `k` entries, as they are stored, stand for the list exactly if there are no
others and each is complete. -/
theorem forall₂_stored_iff (answers : LoclistAnswers) (k : ℕ) :
    List.Forall₂ HoldsEntry answers
        ((answers.take k).filterMap fun answer => answer.toOption.map LoclistEntry.stored) ↔
      answers.length ≤ k ∧ ∀ answer ∈ answers, answer.Complete := by
  rw [LossyMap.forall₂_take_filterMap_iff]
  refine and_congr_right fun _ => forall_congr' fun answer => imp_congr_right fun _ => ?_
  constructor
  · rintro ⟨e, he, hholds⟩
    obtain ⟨entry, rfl, hops⟩ := hholds
    obtain rfl : entry.stored = e := Option.some.inj he
    exact (holdsEntry_stored_iff entry).mp ⟨entry, rfl, hops⟩
  · intro hcomplete
    obtain ⟨entry, rfl, hops⟩ := hcomplete
    exact ⟨entry.stored, rfl, (holdsEntry_stored_iff entry).mpr ⟨entry, rfl, hops⟩⟩

/-- The number of entries that `load` asks for. -/
def LocationAttr.entryRounds (attr : LocationAttr) (answers : LoclistAnswers) : ℕ :=
  if attr.isSimple then 1 else answers.length

/-- `load` succeeds when libdwarf reports a list, and stores the entries that it asks for and
gets. -/
theorem DwarfLocation.load_eq (attr : LocationAttr) :
    load attr = attr.loclist.toOption.map fun answers =>
      ⟨(answers.take (attr.entryRounds answers)).filterMap fun answer =>
        answer.toOption.map LoclistEntry.stored⟩ := by
  unfold load LocationAttr.loclist LocationAttr.entryRounds LocationAttr.isSimple
  rcases hform : attr.whatform with form | _ | _
  · by_cases hsimple : isSimpleLocationExpr form = true
    · simp only [hsimple, if_true]
      rcases attr.exprloc with answers | _ | _
      · rcases answers with _ | ⟨answer, answers⟩
        · rfl
        · simp only [loadEntries, loadExprFromLoclist_eq, Dlv.toOption, Option.map_some]
          rfl
      · rfl
      · rfl
    · by_cases hlocation : isLocationForm form = true
      · simp only [hsimple, hlocation, if_true, Bool.false_eq_true, if_false, List.take_length]
        rcases attr.getLoclist with answers | _ | _
        · have hexprs := ofLoclist_exprs answers
          rw [deliveredEntries, List.map_filterMap] at hexprs
          exact congrArg (fun exprs => some (DwarfLocation.mk exprs)) hexprs
        · rfl
        · rfl
      · simp only [hsimple, hlocation, Bool.false_eq_true, if_false]
        rfl
  · rfl
  · rfl

/-- A successful load loses nothing exactly if libdwarf delivers all entries and operations
of the list, no entry has `2 ^ 31` operations or more, and a simple form has one entry at
most. -/
theorem load_loadsAll_iff (attr : LocationAttr) :
    LoadsAll attr ↔ ∀ answers, attr.loclist = .ok answers →
      (∀ answer ∈ answers, answer.Complete) ∧ (attr.isSimple = true → answers.length ≤ 1) := by
  unfold LoadsAll
  rw [DwarfLocation.load_eq]
  rcases hlist : attr.loclist with answers | _ | _
  · have hrounds : answers.length ≤ attr.entryRounds answers ↔
        (attr.isSimple = true → answers.length ≤ 1) := by
      unfold LocationAttr.entryRounds
      by_cases hsimple : attr.isSimple = true <;> simp [hsimple]
    have hstored := forall₂_stored_iff answers (attr.entryRounds answers)
    constructor
    · rintro hall answers' heq
      obtain rfl : answers = answers' := Dlv.ok.inj heq
      obtain ⟨answers', heq', hforall⟩ := hall _ rfl
      obtain rfl : answers = answers' := Dlv.ok.inj heq'
      obtain ⟨hle, hcomplete⟩ := hstored.mp hforall
      exact ⟨hcomplete, hrounds.mp hle⟩
    · intro hgood location hload
      obtain rfl := Option.some.inj hload
      obtain ⟨hcomplete, hle⟩ := hgood answers rfl
      exact ⟨answers, rfl, hstored.mpr ⟨hrounds.mpr hle, hcomplete⟩⟩
  · exact iff_of_true (fun _ h => by cases h) (fun _ h => by cases h)
  · exact iff_of_true (fun _ h => by cases h) (fun _ h => by cases h)

/-- An expression whose second operation libdwarf fails to deliver. -/
def operationLost : LocationAttr :=
  ⟨.ok .exprloc, .ok [.ok ⟨⟨false, 0, 0, [.ok ⟨.lit 1, 0, 0, 0, 0⟩, .error]⟩, .defaultLocation⟩],
    .noEntry⟩

/-- The expression is loaded with the first operation only. -/
theorem load_operationLost :
    DwarfLocation.load operationLost = some ⟨[⟨0, 0, ⟨[⟨.lit 1, 0, 0, 0, 0⟩]⟩⟩]⟩ ∧
      ¬LoadsAll operationLost := by
  refine ⟨rfl, fun hall => ?_⟩
  obtain ⟨answers, heq, hforall⟩ := hall _ rfl
  obtain rfl := Dlv.ok.inj heq
  cases hforall with
  | cons hholds _ =>
    obtain ⟨entry, heq, hops⟩ := hholds
    obtain rfl := Dlv.ok.inj heq
    have hlength := hops.length_eq
    exact absurd hlength (by decide)

end DwarfExpr
