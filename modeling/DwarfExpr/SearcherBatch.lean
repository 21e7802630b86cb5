import DwarfExpr.SearcherCycle

/-!
# A list of addresses on one handle

`dwarf2line` searches for all addresses of its command line on one handle. Where no address
is revealed by two units, the cursor that an answered search leaves behind hides exactly the
unit of that address and those in front of it, and an unanswered search hides nothing. So an
address is lost exactly if the one before it was found and its unit does not come later.
-/

namespace DwarfExpr

variable {units : List CompileUnit} {pc pc' : DwarfAddr}

/-- At most one of the units reveals a function at the pc. -/
def RevealedOnce (units : List CompileUnit) (pc : DwarfAddr) : Prop :=
  ∀ (i j : ℕ) (u v : CompileUnit), units[i]? = some u → units[j]? = some v →
    u.Reveals pc → v.Reveals pc → i = j

/-- A unit that reveals a function at the second pc comes later than any that reveals one at
the first. -/
def InLaterUnit (units : List CompileUnit) (pc pc' : DwarfAddr) : Prop :=
  ∀ (i j : ℕ) (u v : CompileUnit), units[i]? = some u → units[j]? = some v →
    u.Reveals pc → v.Reveals pc' → i < j

/-- The answer of a search on a fresh handle. -/
def freshAnswer (units : List CompileUnit) (pc : DwarfAddr) : Option FoundFunction :=
  (searchFunction units 0 pc).1

/-- A sound unit ends the search exactly if it reveals a function. -/
theorem CompileUnit.Sound.ends_iff {u : CompileUnit} (hu : u.Sound) (pc : DwarfAddr) :
    u.ends pc = true ↔ u.Reveals pc := by
  rw [← hu.found_isSome_iff pc, CompileUnit.ends, decide_eq_true_eq]
  have hstop := hu.verdict_ne_stop pc
  cases hverdict : u.verdict pc with
  | hit found => simp [UnitVerdict.found]
  | stop => exact absurd hverdict hstop
  | pass => simp [UnitVerdict.found]

/-- The loop passes the units that do not end the search. -/
theorem searchUnits_append {before : List CompileUnit} (rest : List CompileUnit)
    (cursor : CuCursor) (hbefore : ∀ u ∈ before, u.ends pc = false) :
    searchUnits pc (before ++ rest) cursor = searchUnits pc rest (cursor + before.length) := by
  induction before generalizing cursor with
  | nil => rfl
  | cons u before ih =>
    have hu : u.ends pc = false := hbefore u (List.mem_cons_self ..)
    have hrest := ih (cursor + 1) fun v hv => hbefore v (List.mem_cons_of_mem _ hv)
    rw [List.cons_append, searchUnits_cons, hu, if_neg Bool.false_ne_true, hrest,
      List.length_cons, Nat.add_assoc, Nat.add_comm 1]

/-- From a cursor that is not behind the unit that reveals the pc, a search answers with the
function of that unit and leaves the cursor behind it. -/
theorem searchFunction_of_reveals (hunits : ∀ u ∈ units, u.Sound) (hone : RevealedOnce units pc)
    {cursor i : ℕ} {u : CompileUnit} (hu : units[i]? = some u) (hreveals : u.Reveals pc)
    (hcursor : cursor ≤ i) :
    searchFunction units cursor pc = ((u.verdict pc).found, i + 1) := by
  have hi : i < units.length := (List.getElem?_eq_some_iff.mp hu).1
  have hsplit : units.drop cursor = (units.drop cursor).take (i - cursor) ++
      u :: units.drop (i + 1) := by
    have hrest : (units.drop cursor).drop (i - cursor) = u :: units.drop (i + 1) := by
      rw [List.drop_drop, Nat.add_sub_cancel' hcursor, List.drop_eq_getElem_cons hi,
        (List.getElem?_eq_some_iff.mp hu).2]
    rw [← hrest, List.take_append_drop]
  have hpass : ∀ v ∈ (units.drop cursor).take (i - cursor), v.ends pc = false := by
    intro v hv
    obtain ⟨k, hk⟩ := List.mem_iff_getElem?.mp hv
    have hlt : k < i - cursor := by
      by_contra hge
      rw [List.getElem?_take_eq_none (by omega)] at hk
      cases hk
    rw [List.getElem?_take_of_lt hlt, List.getElem?_drop] at hk
    rw [Bool.eq_false_iff]
    intro hends
    have hv' := ((hunits v (List.mem_of_getElem? hk)).ends_iff pc).mp hends
    have heq := hone (cursor + k) i v u hk hu hv' hreveals
    omega
  have hends : u.ends pc = true :=
    ((hunits u (List.mem_of_getElem? hu)).ends_iff pc).mpr hreveals
  have hlength : ((units.drop cursor).take (i - cursor)).length = i - cursor := by
    rw [List.length_take, List.length_drop]
    omega
  rw [searchFunction, hsplit, searchUnits_append _ _ hpass, searchUnits_cons, if_pos hends,
    hlength, Nat.add_sub_cancel' hcursor]

/-- From a cursor behind every unit that reveals the pc, a search finds nothing and leaves the
cursor at the first unit. -/
theorem searchFunction_of_passed (hunits : ∀ u ∈ units, u.Sound) {cursor : ℕ}
    (hpassed : ∀ i u, units[i]? = some u → u.Reveals pc → i < cursor) :
    searchFunction units cursor pc = (none, 0) := by
  have hpass : ∀ v ∈ units.drop cursor, v.ends pc = false := by
    intro v hv
    obtain ⟨k, hk⟩ := List.mem_iff_getElem?.mp hv
    rw [List.getElem?_drop] at hk
    rw [Bool.eq_false_iff]
    intro hends
    have hv' := ((hunits v (List.mem_of_getElem? hk)).ends_iff pc).mp hends
    have hlt := hpassed (cursor + k) v hk hv'
    omega
  have hrun := searchUnits_append [] cursor hpass
  rw [List.append_nil] at hrun
  rw [searchFunction, hrun]
  rfl

/-- Where the cursor stands after a search: at the first unit if nothing was found, else
behind the only unit that reveals the pc. -/
structure CursorAfter (units : List CompileUnit) (pc : DwarfAddr) (answer : Option FoundFunction)
    (cursor : CuCursor) : Prop where
  unanswered : answer = none → cursor = 0
  answered : answer ≠ none →
    ∃ (i : ℕ) (u : CompileUnit), units[i]? = some u ∧ u.Reveals pc ∧ cursor = i + 1

/-- A search answers with the function of the only unit that reveals the pc, or it finds
nothing. -/
theorem searchFunction_cases (hunits : ∀ u ∈ units, u.Sound) (hone : RevealedOnce units pc)
    (cursor : CuCursor) :
    (∃ (i : ℕ) (u : CompileUnit), units[i]? = some u ∧ u.Reveals pc ∧
        searchFunction units cursor pc = ((u.verdict pc).found, i + 1)) ∨
      searchFunction units cursor pc = (none, 0) := by
  by_cases hahead : ∃ (i : ℕ) (u : CompileUnit), units[i]? = some u ∧ u.Reveals pc ∧ cursor ≤ i
  · obtain ⟨i, u, hu, hreveals, hcursor⟩ := hahead
    exact Or.inl ⟨i, u, hu, hreveals, searchFunction_of_reveals hunits hone hu hreveals hcursor⟩
  · right
    apply searchFunction_of_passed hunits
    intro i u hu hreveals
    by_contra hge
    exact hahead ⟨i, u, hu, hreveals, Nat.le_of_not_lt hge⟩

/-- Every search leaves the cursor so, wherever it starts. -/
theorem searchFunction_cursorAfter (hunits : ∀ u ∈ units, u.Sound)
    (hone : RevealedOnce units pc) (cursor : CuCursor) :
    CursorAfter units pc (searchFunction units cursor pc).1 (searchFunction units cursor pc).2 := by
  rcases searchFunction_cases hunits hone cursor with ⟨i, u, hu, hreveals, heq⟩ | heq
  · have hfound := ((hunits u (List.mem_of_getElem? hu)).found_isSome_iff pc).mpr hreveals
    rw [heq]
    refine ⟨fun hnone => ?_, fun _ => ⟨i, u, hu, hreveals, rfl⟩⟩
    simp only at hnone
    rw [hnone] at hfound
    cases hfound
  · rw [heq]
    exact ⟨fun _ => rfl, fun hne => absurd rfl hne⟩

open Classical in
/-- The answer to an address after another one: nothing if that was found and the unit of this
one does not come later, else that of a fresh handle. -/
theorem searchFunction_after (hunits : ∀ u ∈ units, u.Sound) (hone : RevealedOnce units pc)
    (hone' : RevealedOnce units pc') {answer : Option FoundFunction} {cursor : CuCursor}
    (hafter : CursorAfter units pc answer cursor) :
    (searchFunction units cursor pc').1 =
      if answer.isSome ∧ ¬InLaterUnit units pc pc' then none else freshAnswer units pc' := by
  cases answer with
  | none => rw [hafter.unanswered rfl, if_neg (by simp), freshAnswer]
  | some found =>
    obtain ⟨i, u, hu, hreveals, rfl⟩ := hafter.answered (by simp)
    by_cases hlater : InLaterUnit units pc pc'
    · rw [if_neg fun h => h.2 hlater]
      by_cases hrevealed : ∃ (j : ℕ) (v : CompileUnit), units[j]? = some v ∧ v.Reveals pc'
      · obtain ⟨j, v, hv, hreveals'⟩ := hrevealed
        have hij := hlater i j u v hu hv hreveals hreveals'
        rw [freshAnswer, searchFunction_of_reveals hunits hone' hv hreveals' hij,
          searchFunction_of_reveals hunits hone' hv hreveals' (Nat.zero_le j)]
      · have hpassed : ∀ (cursor j : ℕ) (v : CompileUnit), units[j]? = some v →
          v.Reveals pc' → j < cursor :=
          fun _ j v hv hreveals' => absurd ⟨j, v, hv, hreveals'⟩ hrevealed
        rw [freshAnswer, searchFunction_of_passed hunits (hpassed (i + 1)),
          searchFunction_of_passed hunits (hpassed 0)]
    · rw [if_pos ⟨rfl, hlater⟩]
      -- The only unit that reveals this address is not behind the cursor.
      unfold InLaterUnit at hlater
      push Not at hlater
      obtain ⟨i', j, u', v, hu', hv, hreveals', hrevealsj, hle⟩ := hlater
      have hi : i' = i := hone i' i u' u hu' hu hreveals' hreveals
      have hpassed : ∀ k w, units[k]? = some w → w.Reveals pc' → k < i + 1 := by
        intro k w hw hrevealsk
        have hk := hone' k j w v hw hv hrevealsk hrevealsj
        omega
      rw [searchFunction_of_passed hunits hpassed]

section Batch

variable (hunits : ∀ u ∈ units, u.Sound)
include hunits

/-- After a first address, each address of a list is answered by the one before it. Induction
on the place in the list; where the search before has left the cursor carries it. -/
theorem searchFunctions_getElem? {pcs : List DwarfAddr} (hone : ∀ pc ∈ pcs, RevealedOnce units pc)
    {k : ℕ} {cursor : CuCursor} {answer : Option FoundFunction} (hpc : pcs[k]? = some pc)
    (hpc' : pcs[k + 1]? = some pc')
    (hanswer : (searchFunctions units cursor pcs)[k]? = some answer) :
    ∃ cursor', CursorAfter units pc answer cursor' ∧
      (searchFunctions units cursor pcs)[k + 1]? = some (searchFunction units cursor' pc').1 := by
  induction pcs generalizing k cursor with
  | nil => cases hpc
  | cons x rest ih =>
    rw [searchFunctions] at hanswer ⊢
    cases k with
    | zero =>
      obtain rfl : x = pc := by simpa using hpc
      obtain rfl : (searchFunction units cursor x).1 = answer := by simpa using hanswer
      refine ⟨_, searchFunction_cursorAfter hunits (hone x (List.mem_cons_self ..)) cursor, ?_⟩
      cases rest with
      | nil => cases hpc'
      | cons y rest =>
        obtain rfl : y = pc' := by simpa using hpc'
        rw [searchFunctions]
        rfl
    | succ k =>
      rw [List.getElem?_cons_succ] at hpc hpc' hanswer ⊢
      exact ih (fun pc hmem => hone pc (List.mem_cons_of_mem _ hmem)) hpc hpc' hanswer

open Classical in
/-- Each address of a list is answered as on a fresh handle, unless the address before it was
found and the unit of this one does not come later: then nothing is found. -/
theorem searchFunctions_succ {pcs : List DwarfAddr} (hone : ∀ pc ∈ pcs, RevealedOnce units pc)
    {k : ℕ} {answer : Option FoundFunction} (hpc : pcs[k]? = some pc)
    (hpc' : pcs[k + 1]? = some pc')
    (hanswer : (searchFunctions units 0 pcs)[k]? = some answer) :
    (searchFunctions units 0 pcs)[k + 1]? =
      some (if answer.isSome ∧ ¬InLaterUnit units pc pc' then none else freshAnswer units pc') := by
  obtain ⟨cursor, hafter, hnext⟩ := searchFunctions_getElem? hunits hone hpc hpc' hanswer
  have hone' := hone pc' (List.mem_of_getElem? hpc')
  rw [hnext, searchFunction_after hunits (hone pc (List.mem_of_getElem? hpc)) hone' hafter]

/-- A fresh search finds what a unit reveals. -/
theorem freshAnswer_isSome_of_reveals {u : CompileUnit} (hu : u ∈ units) (hreveals : u.Reveals pc) :
    (freshAnswer units pc).isSome = true :=
  (searchFunction_isSome_iff hunits pc).mpr ⟨u, hu, hreveals⟩

/-- A search behind an address that was answered as on a fresh handle answers so itself exactly
if its unit comes later. -/
theorem searchFunction_fresh_iff (hone : RevealedOnce units pc) (hone' : RevealedOnce units pc')
    {cursor : CuCursor} (hafter : CursorAfter units pc (freshAnswer units pc) cursor) :
    (searchFunction units cursor pc').1 = freshAnswer units pc' ↔ InLaterUnit units pc pc' := by
  classical
  rw [searchFunction_after hunits hone hone' hafter]
  constructor
  · intro heq i j u v hu hv hreveals hreveals'
    have hfound := freshAnswer_isSome_of_reveals hunits (List.mem_of_getElem? hu) hreveals
    have hfound' := freshAnswer_isSome_of_reveals hunits (List.mem_of_getElem? hv) hreveals'
    by_contra hle
    have hnotLater : ¬InLaterUnit units pc pc' := fun h =>
      hle (h i j u v hu hv hreveals hreveals')
    rw [if_pos ⟨hfound, hnotLater⟩] at heq
    rw [← heq] at hfound'
    cases hfound'
  · intro hlater
    rw [if_neg fun h => h.2 hlater]

/-- The rest of a list behind an address that was answered as on a fresh handle. -/
theorem searchFunctions_eq_map_iff {pcs : List DwarfAddr} {cursor : CuCursor}
    (hone : RevealedOnce units pc) (hones : ∀ pc ∈ pcs, RevealedOnce units pc)
    (hafter : CursorAfter units pc (freshAnswer units pc) cursor) :
    searchFunctions units cursor pcs = pcs.map (freshAnswer units) ↔
      (pc :: pcs).IsChain (InLaterUnit units) := by
  induction pcs generalizing pc cursor with
  | nil => exact iff_of_true rfl (.singleton _)
  | cons pc' rest ih =>
    have hone' := hones pc' (List.mem_cons_self ..)
    have hfresh := searchFunction_fresh_iff hunits hone hone' hafter
    have hcursor := searchFunction_cursorAfter hunits hone' cursor
    have hrest (heq : (searchFunction units cursor pc').1 = freshAnswer units pc') :=
      @ih pc' (searchFunction units cursor pc').2 hone'
        (fun pc hmem => hones pc (List.mem_cons_of_mem _ hmem)) (heq ▸ hcursor)
    rw [searchFunctions, List.map_cons, List.cons.injEq, List.isChain_cons_cons, ← hfresh]
    exact and_congr_right hrest

/-- A list of addresses is answered as on a fresh handle throughout exactly if each of them
lies in a later unit than the one before it. -/
theorem searchFunctions_fresh_iff {pcs : List DwarfAddr}
    (hone : ∀ pc ∈ pcs, RevealedOnce units pc) :
    searchFunctions units 0 pcs = pcs.map (freshAnswer units) ↔
      pcs.IsChain (InLaterUnit units) := by
  cases pcs with
  | nil => exact iff_of_true rfl .nil
  | cons pc rest =>
    obtain ⟨hone', hones⟩ := List.forall_mem_cons.mp hone
    have hafter := searchFunction_cursorAfter hunits hone' 0
    rw [← searchFunctions_eq_map_iff hunits hone' hones hafter, searchFunctions, List.map_cons,
      List.cons.injEq]
    exact and_iff_right rfl

/-- From any cursor a search finds nothing or what a fresh one finds. -/
theorem searchFunction_none_or_fresh (hone : RevealedOnce units pc) (cursor : CuCursor) :
    (searchFunction units cursor pc).1 = none ∨
      (searchFunction units cursor pc).1 = freshAnswer units pc := by
  rcases searchFunction_cases hunits hone cursor with ⟨i, u, hu, hreveals, heq⟩ | heq
  · right
    rw [freshAnswer, heq, searchFunction_of_reveals hunits hone hu hreveals (Nat.zero_le i)]
  · exact Or.inl (by rw [heq])

/-- The same of the searches for a list of addresses. -/
theorem searchFunctions_none_or_fresh {pcs : List DwarfAddr}
    (hone : ∀ pc ∈ pcs, RevealedOnce units pc) (cursor : CuCursor) :
    List.Forall₂ (fun pc found => found = none ∨ found = freshAnswer units pc) pcs
      (searchFunctions units cursor pcs) := by
  induction pcs generalizing cursor with
  | nil => exact .nil
  | cons pc rest ih =>
    obtain ⟨hone', hones⟩ := List.forall_mem_cons.mp hone
    exact .cons (searchFunction_none_or_fresh hunits hone' cursor) (ih hones _)

end Batch

/-- The example unit is sound. -/
theorem unitWithFunction_sound : unitWithFunction.Sound where
  orderly := {
    root_tag := ⟨.compileUnit, rfl, rfl⟩
    readable := by decide
    inner := by
      intro die hdie
      obtain rfl : die = plainDie 42 .subprogram (some (0x1000, 0x10, .constant)) := by
        simpa [unitWithFunction] using hdie
      exact ⟨.subprogram, rfl, rfl⟩ }
  errorFree := {
    ranges := by decide
    formref := by
      rintro attr ⟨⟩
      decide
    records := by
      rintro attr list ⟨⟩ ⟨⟩
      decide
    base := by decide }

/-- One unit reveals no address twice. -/
theorem revealedOnce_singleton (u : CompileUnit) (pc : DwarfAddr) : RevealedOnce [u] pc := by
  intro i j v w hv hw _ _
  have hi := (List.getElem?_eq_some_iff.mp hv).1
  have hj := (List.getElem?_eq_some_iff.mp hw).1
  rw [List.length_singleton] at hi hj
  omega

open Classical in
/-- The second address of a unit is lost behind the first. -/
theorem searchFunctions_succ_unitWithFunction :
    (searchFunctions [unitWithFunction] 0 [0x1004, 0x1008])[1]? =
      some (if (freshAnswer [unitWithFunction] 0x1004).isSome ∧
          ¬InLaterUnit [unitWithFunction] 0x1004 0x1008 then none
        else freshAnswer [unitWithFunction] 0x1008) :=
  @searchFunctions_succ [unitWithFunction] 0x1004 0x1008 (by simpa using unitWithFunction_sound)
    [0x1004, 0x1008] (fun pc _ => revealedOnce_singleton unitWithFunction pc) 0 _ rfl rfl rfl

/-- A unit like the first, at other addresses. -/
def secondUnit : CompileUnit where
  cuDie := { plainDie 61 .compileUnit none with
    ranges := .ok ⟨.ok 0, .ok [⟨.entry, 0x2000, 0x3000⟩, ⟨.endOfList, 0, 0⟩]⟩ }
  children := .node (plainDie 92 .subprogram (some (0x2000, 0x10, .constant))) .absent .absent

/-- Of three addresses, the second of which lies in the unit of the first, that one is lost. -/
example : (searchFunctions [unitWithFunction, secondUnit] 0 [0x1004, 0x1008, 0x2004]).map
    Option.isSome = [true, false, true] := by
  decide

end DwarfExpr
