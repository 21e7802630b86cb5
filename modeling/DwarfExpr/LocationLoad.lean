import DwarfExpr.LocationLists

/-!
# Loading location lists

`DwarfLocation::load` stores every entry that libdwarf delivers, also end-of-list and
base-address entries, and entries whose bounds it could not resolve. Their bounds stay
zero then, and zero bounds are what `evalValue` takes for an unlimited range.
-/

namespace DwarfExpr

/-- The forms that `is_simple_location_expr` and `is_location_form` know. -/
inductive DwForm where
  | block1 | block2 | block4 | block | exprloc
  | data4 | data8 | secOffset | loclistx | rnglistx
  | other (code : ℕ)
  deriving DecidableEq, Repr

/-- `is_simple_location_expr`. -/
def isSimpleLocationExpr : DwForm → Bool
  | .block1 | .block2 | .block4 | .block | .exprloc => true
  | _ => false

/-- `is_location_form`. -/
def isLocationForm : DwForm → Bool
  | .data4 | .data8 | .secOffset | .loclistx | .rnglistx => true
  | _ => false

/-- `lle_value`: the kind of a list entry. -/
inductive LleValue where
  | endOfList | baseAddressx | startxEndx | startxLength | offsetPair | defaultLocation
  | baseAddress | startEnd | startLength
  | other (code : ℕ)
  deriving DecidableEq, Repr

/-- One answer of `dwarf_get_locdesc_entry_d` with the kind of the entry, which the
loader asks for and does not look at. -/
structure LoclistEntry extends LocdescEntry where
  lleValue : LleValue
  deriving DecidableEq, Repr

/-- The answers of `dwarf_get_locdesc_entry_d` for the indices of a list. -/
abbrev LoclistAnswers := List (Dlv LoclistEntry)

/-- An answer without the kind of its entry. -/
def Dlv.locdescEntry : Dlv LoclistEntry → Dlv LocdescEntry
  | .ok a => .ok a.toLocdescEntry
  | .noEntry => .noEntry
  | .error => .error

/-- What libdwarf says about a location attribute: its form, the location list made of
an expression (`dwarf_formexprloc` and `dwarf_loclist_from_expr_c`), and the location
list that it refers to (`dwarf_get_loclist_c`). -/
structure LocationAttr where
  whatform : Dlv DwForm
  exprloc : Dlv LoclistAnswers
  getLoclist : Dlv LoclistAnswers
  deriving DecidableEq, Repr

/-- The entries loaded for these indices. -/
def loadEntries (answers : LoclistAnswers) (indices : List ℕ) : List LocationExpression :=
  indices.filterMap fun i =>
    loadExprFromLoclist (answers.map Dlv.locdescEntry) i ⟨0, 0, ⟨[]⟩⟩

/-- The entries of a location list, as the loop of `load` stores them. -/
def DwarfLocation.ofLoclist (answers : LoclistAnswers) : DwarfLocation :=
  ⟨loadEntries answers (List.range answers.length)⟩

/-- `DwarfLocation::load`; `none` is the answer `false`. -/
def DwarfLocation.load (attr : LocationAttr) : Option DwarfLocation :=
  match attr.whatform with
  | .ok form =>
    if isSimpleLocationExpr form then
      match attr.exprloc with
      | .ok answers => some ⟨if answers.length > 0 then loadEntries answers [0] else []⟩
      | _ => none
    else if isLocationForm form then
      match attr.getLoclist with
      | .ok answers => some (ofLoclist answers)
      | _ => none
    else none
  | _ => none

/-- An attribute of a location form is loaded from its list. -/
theorem DwarfLocation.load_of_locationForm {attr : LocationAttr} {form : DwForm}
    {answers : LoclistAnswers} (hform : attr.whatform = .ok form)
    (hlocation : isLocationForm form = true) (hlist : attr.getLoclist = .ok answers) :
    load attr = some (ofLoclist answers) := by
  cases form <;> simp_all [load, isSimpleLocationExpr, isLocationForm]

/-- The entries of a list that libdwarf delivers. -/
def deliveredEntries (answers : LoclistAnswers) : List LoclistEntry :=
  answers.filterMap Dlv.toOption

/-- The stored form of an entry: bounds that are not available are zero. -/
def LoclistEntry.stored (a : LoclistEntry) : LocationExpression :=
  if a.debugAddrUnavailable then ⟨0, 0, ⟨a.loadedOps⟩⟩
  else ⟨a.lopc, a.hipc, ⟨a.loadedOps⟩⟩

/-- Going through a list by its indices visits its elements in order. -/
theorem filterMap_range_getElem? {α β : Type*} (xs : List α) (g : α → Option β) :
    (List.range xs.length).filterMap (fun i => xs[i]?.bind g) = xs.filterMap g := by
  have hall : (List.range xs.length).map (xs[·]?) = xs.map some := by
    apply List.ext_getElem (by simp)
    intro i hi _
    simp only [List.length_map, List.length_range] at hi
    simp [List.getElem?_eq_getElem hi]
  calc (List.range xs.length).filterMap (fun i => xs[i]?.bind g)
      = ((List.range xs.length).map (xs[·]?)).filterMap (Option.bind · g) := by
        rw [List.filterMap_map]
        rfl
    _ = (xs.map some).filterMap (Option.bind · g) := by rw [hall]
    _ = xs.filterMap g := by
        rw [List.filterMap_map]
        rfl

/-- The loader stores what libdwarf delivers for an index. -/
theorem loadExprFromLoclist_eq (answers : LoclistAnswers) (i : ℕ) :
    loadExprFromLoclist (answers.map Dlv.locdescEntry) i ⟨0, 0, ⟨[]⟩⟩ =
      answers[i]?.bind fun answer => answer.toOption.map LoclistEntry.stored := by
  unfold loadExprFromLoclist
  rw [List.getElem?_map]
  rcases answers[i]? with _ | _ | _ | _ <;>
    simp only [Option.map_some, Option.map_none, Option.bind_some, Option.bind_none,
      Dlv.locdescEntry, Dlv.toOption, List.nil_append]
  unfold LoclistEntry.stored
  split <;> rfl

/-- The loader stores each delivered entry once, in the order of the list. -/
theorem DwarfLocation.ofLoclist_exprs (answers : LoclistAnswers) :
    (ofLoclist answers).exprs = (deliveredEntries answers).map LoclistEntry.stored := by
  simp only [ofLoclist, loadEntries, deliveredEntries, List.map_filterMap, loadExprFromLoclist_eq]
  exact filterMap_range_getElem? answers _

/-- The entry that `evalValue` evaluates in a loaded list. -/
def chosenEntry (context : Context) (pc : DwarfAddr) (answers : LoclistAnswers) :
    Option LoclistEntry :=
  ((DwarfLocation.ofLoclist answers).chosen context pc).bind ((deliveredEntries answers)[·]?)

/-- The chosen entry is the first one that passes the test of `evalValue`. -/
theorem chosen_ofLoclist (context : Context) (pc : DwarfAddr) (answers : LoclistAnswers) :
    (DwarfLocation.ofLoclist answers).chosen context pc =
      (deliveredEntries answers).findIdx? fun a => context.accepts pc a.stored := by
  unfold DwarfLocation.chosen
  rw [DwarfLocation.ofLoclist_exprs, List.findIdx?_map]
  rfl

/-- `evalValue` on a loaded list evaluates the chosen entry, or reports that there is
none. -/
theorem evalValue_ofLoclist (fuel : ℕ) (context : Context) (pc : DwarfAddr)
    (answers : LoclistAnswers) :
    (DwarfLocation.ofLoclist answers).evalValue fuel context pc =
      match chosenEntry context pc answers with
      | some a => (evaluate fuel context pc a.stored.expr []).map (·.map Prod.fst)
      | none => some (.ok (.error .addressInvalid 0)) := by
  rw [DwarfLocation.evalValue_eq, DwarfLocation.valueOf, chosenEntry,
    DwarfLocation.ofLoclist_exprs]
  cases (DwarfLocation.ofLoclist answers).chosen context pc with
  | none => rfl
  | some i =>
    simp only [Option.bind_some, List.getElem?_map]
    cases (deliveredEntries answers)[i]? <;> rfl

/-- An end-of-list or base-address entry without an expression. -/
def LoclistEntry.isMarker (a : LoclistEntry) : Bool :=
  (a.lleValue = .endOfList || a.lleValue = .baseAddress || a.lleValue = .baseAddressx) &&
    a.ops.isEmpty

/-- The entry may be chosen: its bounds are known, it has an expression, and only a
default location covers every pc. -/
structure LoclistEntry.Selectable (a : LoclistEntry) : Prop where
  boundsKnown : a.debugAddrUnavailable = false
  notMarker : a.isMarker = false
  unlimited : a.stored.unlimited = true → a.lleValue = .defaultLocation

/-- `evalValue` takes the entry although it should not: its bounds are unknown, it is a
marker that passes the test, or its bounds are those of an unlimited range although it is
no default location. -/
def LoclistEntry.Misread (context : Context) (pc : DwarfAddr) (a : LoclistEntry) : Prop :=
  a.debugAddrUnavailable = true ∨ (a.isMarker = true ∧ context.accepts pc a.stored = true) ∨
    (a.stored.unlimited = true ∧ a.lleValue ≠ .defaultLocation)

/-- An unlimited range passes the test at every pc. -/
theorem accepts_of_unlimited {context : Context} {pc : DwarfAddr} {e : LocationExpression}
    (hall : e.unlimited = true) : context.accepts pc e = true := by
  simp only [Context.accepts, hall, Bool.true_or]

/-- The misread entries are those that pass the test and must not be chosen. -/
theorem LoclistEntry.misread_iff {context : Context} {pc : DwarfAddr} {a : LoclistEntry} :
    a.Misread context pc ↔ context.accepts pc a.stored = true ∧ ¬a.Selectable := by
  constructor
  · rintro (hunknown | ⟨hmarker, haccepts⟩ | ⟨hall, hkind⟩)
    · have hall : a.stored.unlimited = true := by
        simp only [stored, hunknown, if_true]
        rfl
      refine ⟨accepts_of_unlimited hall, fun h => ?_⟩
      rw [h.boundsKnown] at hunknown
      cases hunknown
    · refine ⟨haccepts, fun h => ?_⟩
      rw [h.notMarker] at hmarker
      cases hmarker
    · exact ⟨accepts_of_unlimited hall, fun h => hkind (h.unlimited hall)⟩
  · rintro ⟨haccepts, hselectable⟩
    by_contra hnot
    obtain ⟨hknown, hmarker, hkind⟩ : ¬a.debugAddrUnavailable = true ∧
        ¬(a.isMarker = true ∧ context.accepts pc a.stored = true) ∧
        ¬(a.stored.unlimited = true ∧ a.lleValue ≠ .defaultLocation) := by
      simpa only [Misread, not_or] using hnot
    apply hselectable
    refine ⟨by simpa using hknown, ?_, fun hall => ?_⟩
    · by_contra hmark
      exact hmarker ⟨by simpa using hmark, haccepts⟩
    · by_contra hother
      exact hkind ⟨hall, hother⟩

/-- In a loaded list `evalValue` never evaluates an entry with unknown bounds, a marker,
or an entry taken for unlimited that is no default location, exactly when each misread
entry stands behind one that passes the test and may be chosen. -/
theorem chosenEntry_selectable_iff (context : Context) (pc : DwarfAddr)
    (answers : LoclistAnswers) :
    (∀ a, chosenEntry context pc answers = some a → a.Selectable) ↔
      ∀ (i : ℕ) (a : LoclistEntry), (deliveredEntries answers)[i]? = some a →
        a.Misread context pc →
        ∃ j < i, ∃ b, (deliveredEntries answers)[j]? = some b ∧
          context.accepts pc b.stored = true ∧ b.Selectable := by
  have hfound : (∀ a, chosenEntry context pc answers = some a → a.Selectable) ↔
      ∀ (i : ℕ) (a : LoclistEntry),
        ((deliveredEntries answers).findIdx? fun a => context.accepts pc a.stored) = some i →
        (deliveredEntries answers)[i]? = some a → a.Selectable := by
    simp only [chosenEntry, chosen_ofLoclist, Option.bind_eq_some_iff, forall_exists_index,
      and_imp]
    exact ⟨fun h i a hi ha => h a i hi ha, fun h a i hi ha => h i a hi ha⟩
  rw [hfound, FirstMatch.forall_found_iff]
  simp only [LoclistEntry.misread_iff, and_imp]

/-- A list whose first entry has bounds that libdwarf could not resolve. -/
def unresolvedFirst : LoclistAnswers :=
  [.ok ⟨⟨true, 0x10, 0x20, [.ok ⟨.lit 1, 0, 0, 0, 0⟩]⟩, .startxEndx⟩,
    .ok ⟨⟨false, 0x20, 0x40, [.ok ⟨.lit 2, 0, 0, 0, 0⟩]⟩, .offsetPair⟩]

/-- The entry with the unknown bounds is taken for every pc. -/
theorem unresolvedFirst_chosen :
    ¬∀ a, chosenEntry unitContext 0x1030 unresolvedFirst = some a → a.Selectable := by
  intro h
  have hknown := (h _ rfl).boundsKnown
  cases hknown

end DwarfExpr
