import DwarfExpr.SearcherUnits
import DwarfExpr.Lib.CyclicScan

/-!
# Searching for one address again and again

A successful search leaves the unit cursor behind the unit in which it ended, and the next
search on the handle goes on from there. Asked for one address again and again, the searcher
therefore lists what the units have to say about it, one unit a call, then answers once that
there is no such function, and begins anew.
-/

namespace DwarfExpr

open CyclicScan (scan)

/-- The answers to a list of addresses on one handle, as the loop of `main` asks for them. -/
def searchFunctions (units : List CompileUnit) : CuCursor → List DwarfAddr →
    List (Option FoundFunction)
  | _, [] => []
  | cursor, pc :: pcs =>
    (searchFunction units cursor pc).1 ::
      searchFunctions units (searchFunction units cursor pc).2 pcs

/-- The units that end a search for the pc, with what they answer, and then nothing. -/
def unitAnswers (pc : DwarfAddr) (units : List CompileUnit) : List (Option FoundFunction) :=
  (units.filter (CompileUnit.ends pc)).map (fun u => (u.verdict pc).found) ++ [none]

/-- The loop stops at a unit that ends the search and passes any other. -/
theorem searchUnits_cons (pc : DwarfAddr) (u : CompileUnit) (rest : List CompileUnit)
    (cursor : CuCursor) :
    searchUnits pc (u :: rest) cursor =
      if u.ends pc then ((u.verdict pc).found, cursor + 1)
      else searchUnits pc rest (cursor + 1) := by
  rw [searchUnits, CompileUnit.ends, CompileUnit.verdict]
  rcases searchInDieTree (.init pc) u.tree with ⟨res, ctx⟩
  cases res <;> rfl

/-- A search scans the units from the cursor on: it answers with the verdict of the unit it
stops at, and leaves the cursor behind that unit. Induction on the remaining units. -/
theorem searchUnits_eq_scan (units : List CompileUnit) (pc : DwarfAddr)
    {rest : List CompileUnit} {cursor : CuCursor} (hrest : units.drop cursor = rest) :
    (searchUnits pc rest cursor).1 =
        (scan (CompileUnit.ends pc) units rest).1.bind (fun u => (u.verdict pc).found) ∧
      units.drop (searchUnits pc rest cursor).2 = (scan (CompileUnit.ends pc) units rest).2 := by
  induction rest generalizing cursor with
  | nil => exact ⟨rfl, rfl⟩
  | cons u rest ih =>
    have hrest' : units.drop (cursor + 1) = rest := by
      rw [← List.drop_drop, hrest]
      rfl
    rw [searchUnits_cons]
    by_cases hends : u.ends pc = true
    · rw [if_pos hends, CyclicScan.scan_cons_of_pos hends]
      exact ⟨rfl, hrest'⟩
    · have hends' : u.ends pc = false := by simpa using hends
      rw [if_neg hends, CyclicScan.scan_cons_of_neg hends']
      exact ih hrest'

/-- The answers to one address asked so many times are those of as many scans. -/
theorem searchFunctions_replicate (units : List CompileUnit) (pc : DwarfAddr) (n : ℕ)
    (cursor : CuCursor) :
    searchFunctions units cursor (List.replicate n pc) =
      (CyclicScan.answers (CompileUnit.ends pc) units n (units.drop cursor)).map
        (·.bind fun u => (u.verdict pc).found) := by
  induction n generalizing cursor with
  | zero => rfl
  | succ n ih =>
    obtain ⟨hanswer, hcursor⟩ := @searchUnits_eq_scan units pc _ cursor rfl
    rw [List.replicate_succ, searchFunctions, CyclicScan.answers, List.map_cons, ih,
      searchFunction, hanswer, hcursor]

/-- One address asked again and again on a fresh handle is answered in rounds: in each round
the units that have something to say about it answer in order, one for each call, and then
one call finds nothing. -/
theorem searchFunctions_rounds (units : List CompileUnit) (pc : DwarfAddr) (k : ℕ) :
    searchFunctions units 0 (List.replicate (k * (unitAnswers pc units).length) pc) =
      (List.replicate k (unitAnswers pc units)).flatten := by
  have hcycle : unitAnswers pc units = (CyclicScan.cycle (CompileUnit.ends pc) units).map
      (·.bind fun u => (u.verdict pc).found) := by
    simp [unitAnswers, CyclicScan.cycle]
  have hlength : (unitAnswers pc units).length =
      (CyclicScan.cycle (CompileUnit.ends pc) units).length := by
    rw [hcycle, List.length_map]
  rw [searchFunctions_replicate, List.drop_zero, hlength, CyclicScan.answers_rounds,
    List.map_flatten, List.map_replicate, hcycle]

/-- The only unit that has the function is asked once in a round. -/
example : (searchFunctions [unitWithFunction] 0 [0x1004, 0x1004, 0x1004]).map Option.isSome =
    [true, false, true] := by
  decide

end DwarfExpr
