import Mathlib.Data.List.Basic
import DwarfExpr.Lib.FirstMatch
import DwarfExpr.Libdwarf

/-!
# Line lookup

`getFileNameAndLineNumber` goes through all rows of the line table of a unit at once and
remembers the row before. The rows are sorted by address only inside a sequence, and the
last row of each sequence only says where it ends; the loop asks for neither.
-/

namespace DwarfExpr

/-- What libdwarf answers about a row: `dwarf_lineno`, `dwarf_linesrc`, `dwarf_lineaddr`. -/
structure DwarfLine where
  lineno : Dlv DwarfUnsigned
  linesrc : Dlv String
  lineaddr : Dlv DwarfAddr
  deriving DecidableEq, Repr

/-- What libdwarf answers about the line table of a unit: the `table_type` of
`dwarf_srclines_b`, and the rows of `dwarf_srclines_from_linecontext`. -/
structure SrcLines where
  tableType : Dlv ℕ
  lines : Dlv (List DwarfLine)
  deriving DecidableEq, Repr

/-- The loop of `getFileNameAndLineNumber`, with `prev_linesrcfile` and `prev_lineno`. In
the end, whether a row was found or not, the remembered one is the result. -/
def lineLoop (pc : DwarfAddr) (prev : Option (String × DwarfUnsigned)) :
    List DwarfLine → Option (String × DwarfUnsigned)
  | [] => prev
  | line :: rest =>
    match line.lineno with
    | .ok lineno =>
      match line.linesrc with
      | .ok linesrcfile =>
        match line.lineaddr with
        | .ok lineaddr =>
          if prev.isSome && lineaddr > pc then prev
          else lineLoop pc (some (linesrcfile, lineno)) rest
        | _ => prev
      | _ => prev
    | _ => prev

/-- `getFileNameAndLineNumber`; `none` where it assigns the null pointer that
`prev_linesrcfile` still is. -/
def getFileNameAndLineNumber (srcLines : SrcLines) (pc : DwarfAddr)
    (default : String × DwarfUnsigned) : Option (String × DwarfUnsigned) :=
  match srcLines.tableType with
  | .ok tableType =>
    if tableType ≠ 1 then some default
    else
      match srcLines.lines with
      | .ok lines => lineLoop pc none lines
      | _ => some default
  | _ => some default

/-- A row of a line table. Its file and its line may be unavailable. -/
structure LineRow where
  address : DwarfAddr
  lineno : Dlv DwarfUnsigned
  linesrc : Dlv String
  deriving DecidableEq, Repr

/-- The file and the line of a usable row. -/
def LineRow.fileLine (row : LineRow) : Option (String × DwarfUnsigned) :=
  match row.lineno, row.linesrc with
  | .ok lineno, .ok linesrc => some (linesrc, lineno)
  | _, _ => none

/-- What libdwarf answers about the row. -/
def LineRow.line (row : LineRow) : DwarfLine := ⟨row.lineno, row.linesrc, .ok row.address⟩

/-- A sequence: rows with non-decreasing addresses, and a last one for its end. -/
structure LineSequence where
  body : List LineRow
  endRow : LineRow
  sorted : (body ++ [endRow]).Pairwise (·.address ≤ ·.address)

/-- All rows of a sequence. -/
def LineSequence.rows (s : LineSequence) : List LineRow := s.body ++ [s.endRow]

/-- The row covers the pc: its address is not above the pc, and that of the next row of the
sequence is. -/
def LineSequence.Covers (s : LineSequence) (pc : DwarfAddr) (row : LineRow) : Prop :=
  ∃ before next after, s.rows = before ++ row :: next :: after ∧
    row.address ≤ pc ∧ pc < next.address

/-- A covering row is the last row of its sequence that is not above the pc, and the
sequence ends above it. -/
theorem LineSequence.covers_iff (s : LineSequence) (pc : DwarfAddr) (row : LineRow) :
    s.Covers pc row ↔
      (s.rows.takeWhile (·.address ≤ pc)).getLast? = some row ∧ pc < s.endRow.address := by
  rw [FirstMatch.getLast?_takeWhile_eq_some_iff]
  constructor
  · rintro ⟨before, next, after, hrows, hrow, hnext⟩
    have hsorted : (before ++ row :: next :: after).Pairwise (·.address ≤ ·.address) := by
      rw [← hrows]
      exact s.sorted
    have hend : s.endRow ∈ next :: after := by
      have hlast := congrArg List.getLast? hrows
      rw [rows, List.getLast?_concat, List.getLast?_append, List.getLast?_cons_cons] at hlast
      cases hback : (next :: after).getLast? with
      | none => cases List.getLast?_eq_none_iff.mp hback
      | some last =>
        rw [hback, Option.some_or] at hlast
        rw [Option.some.inj hlast]
        exact List.mem_of_getLast? hback
    obtain ⟨-, hafter, hbefore⟩ := List.pairwise_append.mp hsorted
    refine ⟨⟨before, next :: after, hrows, fun a ha => ?_, by simpa using hrow, ?_⟩, ?_⟩
    · have hle := hbefore a ha row (List.mem_cons_self ..)
      simpa using BitVec.le_trans hle hrow
    · rintro a ⟨⟩
      simpa using hnext
    · rcases List.mem_cons.mp hend with heq | hmem
      · rw [heq]
        exact hnext
      · have hle := (List.pairwise_cons.mp (List.pairwise_cons.mp hafter).2).1 _ hmem
        rw [BitVec.lt_def] at hnext ⊢
        exact Nat.lt_of_lt_of_le hnext (BitVec.le_def.mp hle)
  · rintro ⟨⟨before, after, hrows, -, hrow, hafter⟩, hend⟩
    cases after with
    | nil =>
      have hlast : s.endRow = row := by
        have h := congrArg List.getLast? hrows
        simpa [rows] using h
      rw [hlast] at hend
      exact absurd (by simpa using hrow) (BitVec.not_le.mpr hend)
    | cons next after =>
      have hnext := hafter next rfl
      exact ⟨before, next, after, hrows, by simpa using hrow, by simpa using hnext⟩

/-- The line table of a unit: its type, and its sequences in any order. -/
structure LineTable where
  tableType : Dlv ℕ
  sequences : Dlv (List LineSequence)

/-- What libdwarf answers about a line table. -/
def LineTable.srcLines (table : LineTable) : SrcLines where
  tableType := table.tableType
  lines := match table.sequences with
    | .ok sequences => .ok (sequences.flatMap fun s => s.rows.map LineRow.line)
    | .noEntry => .noEntry
    | .error => .error

/-- The sequences that are available. -/
def LineTable.available (table : LineTable) : List LineSequence :=
  match table.tableType, table.sequences with
  | .ok 1, .ok sequences => sequences
  | _, _ => []

/-- All rows of the table. -/
def LineTable.rows (table : LineTable) : List LineRow :=
  table.available.flatMap LineSequence.rows

/-- The row of some sequence covers the pc. -/
def LineTable.Covers (table : LineTable) (pc : DwarfAddr) (row : LineRow) : Prop :=
  ∃ s ∈ table.available, s.Covers pc row

/-- The result is the file and the line of a row that covers the pc. Without such a row, or
without any usable row, it is the default. -/
structure LineTable.LooksUp (table : LineTable) (pc : DwarfAddr)
    (default : String × DwarfUnsigned) (result : Option (String × DwarfUnsigned)) : Prop where
  covered : (∃ row, table.Covers pc row ∧ row.fileLine ≠ none) →
    ∃ row, table.Covers pc row ∧ row.fileLine ≠ none ∧ result = row.fileLine
  uncovered : (∀ row, ¬table.Covers pc row) ∨ (∀ row ∈ table.rows, row.fileLine = none) →
    result = some default

/-- The loop remembers the row. -/
def LineRow.passes (pc : DwarfAddr) (row : LineRow) : Bool :=
  row.fileLine.isSome && row.address ≤ pc

/-- One round of the loop on a row after the first. -/
theorem lineLoop_cons (pc : DwarfAddr) (prev : String × DwarfUnsigned) (row : LineRow)
    (rest : List DwarfLine) :
    lineLoop pc (some prev) (row.line :: rest) =
      if row.passes pc then lineLoop pc row.fileLine rest else some prev := by
  obtain ⟨address, lineno, linesrc⟩ := row
  cases lineno with
  | noEntry | error => rfl
  | ok lineno =>
    cases linesrc with
    | noEntry | error => rfl
    | ok linesrc =>
      by_cases habove : address ≤ pc
      · have hnot : ¬address > pc := BitVec.not_lt.mpr habove
        simp [lineLoop, LineRow.line, LineRow.passes, LineRow.fileLine, habove, hnot]
      · have hgt : address > pc := BitVec.not_le.mp habove
        simp [lineLoop, LineRow.line, LineRow.passes, LineRow.fileLine, habove, hgt]

/-- The loop ends with the last of the rows that it remembers. Induction on the rows. -/
theorem lineLoop_some (pc : DwarfAddr) (prev : String × DwarfUnsigned) (rows : List LineRow) :
    lineLoop pc (some prev) (rows.map LineRow.line) =
      ((rows.takeWhile (LineRow.passes pc)).getLast?.elim (some prev) LineRow.fileLine) := by
  induction rows generalizing prev with
  | nil => rfl
  | cons row rest ih =>
    rw [List.map_cons, lineLoop_cons]
    cases hpasses : row.passes pc with
    | false => simp [hpasses]
    | true =>
      have husable : row.fileLine.isSome = true := by
        rw [LineRow.passes, Bool.and_eq_true] at hpasses
        exact hpasses.1
      obtain ⟨value, hvalue⟩ := Option.isSome_iff_exists.mp husable
      rw [if_pos rfl, List.takeWhile_cons_of_pos hpasses, hvalue, ih, List.getLast?_cons]
      cases (rest.takeWhile (LineRow.passes pc)).getLast? <;> simp [hvalue]

/-- The rows that the loop remembers: the first, and those that pass after it. -/
def remembered (pc : DwarfAddr) : List LineRow → List LineRow
  | [] => []
  | row :: rest => if row.fileLine.isSome then row :: rest.takeWhile (LineRow.passes pc) else []

/-- The loop ends with the last of the rows that it remembers. -/
theorem lineLoop_none (pc : DwarfAddr) (rows : List LineRow) :
    lineLoop pc none (rows.map LineRow.line) =
      (remembered pc rows).getLast?.bind LineRow.fileLine := by
  cases rows with
  | nil => rfl
  | cons row rest =>
    have hfirst : lineLoop pc none (row.line :: rest.map LineRow.line) =
        if row.fileLine.isSome then lineLoop pc row.fileLine (rest.map LineRow.line) else none := by
      obtain ⟨address, lineno, linesrc⟩ := row
      cases lineno <;> cases linesrc <;> rfl
    rw [List.map_cons, hfirst, remembered]
    by_cases husable : row.fileLine.isSome = true
    · obtain ⟨value, hvalue⟩ := Option.isSome_iff_exists.mp husable
      rw [if_pos husable, if_pos husable, hvalue, lineLoop_some, List.getLast?_cons]
      cases (rest.takeWhile (LineRow.passes pc)).getLast? <;> simp [hvalue]
    · rw [if_neg husable, if_neg husable]
      rfl

/-- The loop ends behind the row: it and all rows before it are usable and, but for the
first of the table, not above the pc, and the next row is above it or not usable. -/
def LineTable.StopsBehind (table : LineTable) (pc : DwarfAddr) (row : LineRow) : Prop :=
  ∃ before after, table.rows = before ++ row :: after ∧
    (∀ r ∈ before ++ [row], r.fileLine ≠ none) ∧
    (∀ r ∈ (before ++ [row]).tail, r.address ≤ pc) ∧
    ∀ next ∈ after.head?, next.fileLine = none ∨ pc < next.address

/-- A row passes if it is usable and not above the pc. -/
theorem LineRow.passes_iff {pc : DwarfAddr} {row : LineRow} :
    row.passes pc = true ↔ row.fileLine ≠ none ∧ row.address ≤ pc := by
  rw [passes, Bool.and_eq_true, Option.isSome_iff_ne_none, decide_eq_true_iff]

/-- A row fails if it is not usable or above the pc. -/
theorem LineRow.passes_eq_false_iff {pc : DwarfAddr} {row : LineRow} :
    row.passes pc = false ↔ row.fileLine = none ∨ pc < row.address := by
  rw [← Bool.not_eq_true, passes_iff, not_and_or, not_not, BitVec.not_le]

/-- The row that the loop ends with is the one that it ends behind. -/
theorem LineTable.stopsBehind_iff (table : LineTable) (pc : DwarfAddr) (row : LineRow) :
    table.StopsBehind pc row ↔ (remembered pc table.rows).getLast? = some row := by
  unfold StopsBehind
  cases table.rows with
  | nil => simp [remembered]
  | cons first rest =>
    have hhead {before after : List LineRow} (hrows : first :: rest = before ++ row :: after) :
        ∃ behind, before ++ [row] = first :: behind := by
      cases before with
      | nil => exact ⟨[], by rw [(List.cons.inj hrows).1, List.nil_append]⟩
      | cons b before => exact ⟨before ++ [row], by rw [(List.cons.inj hrows).1, List.cons_append]⟩
    by_cases husable : first.fileLine.isSome = true
    · rw [remembered, if_pos husable, FirstMatch.getLast?_cons_takeWhile_eq_some_iff]
      refine exists_congr fun before => exists_congr fun after => and_congr_right fun hrows => ?_
      obtain ⟨behind, hbehind⟩ := hhead hrows
      rw [hbehind, List.forall_mem_cons, List.tail_cons]
      simp only [LineRow.passes_iff, LineRow.passes_eq_false_iff]
      constructor
      · rintro ⟨⟨-, husables⟩, hbelow, hafter⟩
        exact ⟨fun r hr => ⟨husables r hr, hbelow r hr⟩, hafter⟩
      · rintro ⟨hpass, hafter⟩
        exact ⟨⟨Option.isSome_iff_ne_none.mp husable, fun r hr => (hpass r hr).1⟩,
          fun r hr => (hpass r hr).2, hafter⟩
    · rw [remembered, if_neg husable]
      simp only [List.getLast?_nil, reduceCtorEq, iff_false]
      rintro ⟨before, after, hrows, husables, -, -⟩
      obtain ⟨behind, hbehind⟩ := hhead hrows
      rw [hbehind] at husables
      exact husable (Option.isSome_iff_ne_none.mpr (husables first (List.mem_cons_self ..)))

/-- The row that the loop ends behind is a usable one of the table. -/
theorem LineTable.StopsBehind.usable {table : LineTable} {pc : DwarfAddr} {row : LineRow}
    (hstop : table.StopsBehind pc row) : row ∈ table.rows ∧ row.fileLine ≠ none := by
  obtain ⟨before, after, hrows, husables, -⟩ := hstop
  rw [hrows]
  exact ⟨by simp, husables row (by simp)⟩

/-- A table of the type that is supported, with its rows. -/
def LineTable.Readable (table : LineTable) : Prop :=
  table.tableType = .ok 1 ∧ ∃ sequences, table.sequences = .ok sequences

/-- A table that cannot be read has no rows, and the default is its answer. -/
theorem LineTable.lookup_of_not_readable {table : LineTable} (hnot : ¬table.Readable)
    (pc : DwarfAddr) (default : String × DwarfUnsigned) :
    table.available = [] ∧ getFileNameAndLineNumber table.srcLines pc default = some default := by
  obtain ⟨tableType, sequences⟩ := table
  cases tableType with
  | noEntry | error => exact ⟨rfl, rfl⟩
  | ok tableType =>
    by_cases hone : tableType = 1
    · subst hone
      cases sequences with
      | noEntry | error => exact ⟨rfl, rfl⟩
      | ok sequences => exact absurd ⟨rfl, sequences, rfl⟩ hnot
    · refine ⟨?_, by simp [getFileNameAndLineNumber, srcLines, hone]⟩
      unfold available
      split
      · rename_i htype _
        cases htype
        exact absurd rfl hone
      · rfl

/-- In a table that can be read the answer is the row that the loop ends behind. -/
theorem LineTable.lookup_of_readable {table : LineTable} (hreadable : table.Readable)
    (pc : DwarfAddr) (default : String × DwarfUnsigned) :
    getFileNameAndLineNumber table.srcLines pc default =
      (remembered pc table.rows).getLast?.bind LineRow.fileLine := by
  obtain ⟨tableType, sequences⟩ := table
  obtain ⟨rfl, sequences, rfl⟩ := hreadable
  rw [← lineLoop_none]
  simp [getFileNameAndLineNumber, srcLines, rows, available, List.map_flatMap]

/-- A result is the file and the line of the row that the loop ends behind, which is
usable. -/
theorem LineTable.lookup_eq_some_iff {table : LineTable} (hreadable : table.Readable)
    {pc : DwarfAddr} {default value : String × DwarfUnsigned} :
    getFileNameAndLineNumber table.srcLines pc default = some value ↔
      ∃ row, table.StopsBehind pc row ∧ row.fileLine = some value := by
  rw [lookup_of_readable hreadable, Option.bind_eq_some_iff]
  simp only [stopsBehind_iff]

/-- A usable row covers the pc, all rows before it are usable, and none of them but the
first of the table is above the pc. -/
def LineTable.CoveredFirst (table : LineTable) (pc : DwarfAddr) : Prop :=
  ∃ front s back before row next after, table.available = front ++ s :: back ∧
    s.rows = before ++ row :: next :: after ∧ row.address ≤ pc ∧ pc < next.address ∧
    (∀ r ∈ front.flatMap LineSequence.rows ++ before ++ [row], r.fileLine ≠ none) ∧
    ∀ r ∈ (front.flatMap LineSequence.rows ++ before).tail, r.address ≤ pc

/-- The row that the loop ends behind happens to have the file and the line of a row that
covers the pc, or those of the default if no row does. -/
def LineTable.Coincides (table : LineTable) (pc : DwarfAddr) (default : String × DwarfUnsigned) :
    Prop :=
  ∃ row, table.StopsBehind pc row ∧
    ((∃ r, table.Covers pc r ∧ r.fileLine = row.fileLine) ∨
      (∀ r, ¬table.Covers pc r) ∧ row.fileLine = some default)

/-- Only rows that are not usable cover the pc, and others are usable. -/
def LineTable.Unpromised (table : LineTable) (pc : DwarfAddr) : Prop :=
  (∃ row, table.Covers pc row) ∧ (∀ row, table.Covers pc row → row.fileLine = none) ∧
    ∃ row ∈ table.rows, row.fileLine ≠ none

/-- A row that covers the pc first is the one that the loop ends behind. -/
theorem LineTable.CoveredFirst.coincides {table : LineTable} {pc : DwarfAddr}
    (h : table.CoveredFirst pc) (default : String × DwarfUnsigned) :
    table.Coincides pc default := by
  obtain ⟨front, s, back, before, row, next, after, havailable, hrows, hrow, hnext, husable,
    hbelow⟩ := h
  have hall : table.rows = (front.flatMap LineSequence.rows ++ before) ++
      row :: (next :: after ++ back.flatMap LineSequence.rows) := by
    rw [rows, havailable, List.flatMap_append, List.flatMap_cons, hrows]
    simp only [List.append_assoc, List.cons_append]
  refine ⟨row, ⟨_, _, hall, husable, fun r hr => ?_, ?_⟩,
    Or.inl ⟨row, ⟨s, ?_, before, next, after, hrows, hrow, hnext⟩, rfl⟩⟩
  · cases hbefore : front.flatMap LineSequence.rows ++ before with
    | nil =>
      rw [hbefore] at hr
      cases hr
    | cons b rest =>
      rw [hbefore] at hr hbelow
      rcases List.mem_append.mp hr with hr | hr
      · exact hbelow r hr
      · rw [List.mem_singleton.mp hr]
        exact hrow
  · rintro r ⟨⟩
    exact Or.inr hnext
  · rw [havailable]
    simp

/-- The lookup of a table that can be read is right if the loop ends behind a row with the
file and the line asked for. -/
theorem LineTable.Coincides.looksUp {table : LineTable} {pc : DwarfAddr}
    {default : String × DwarfUnsigned} (h : table.Coincides pc default)
    (hreadable : table.Readable) :
    table.LooksUp pc default (getFileNameAndLineNumber table.srcLines pc default) := by
  obtain ⟨row, hstop, hcause⟩ := h
  obtain ⟨hmem, husable⟩ := hstop.usable
  obtain ⟨value, hvalue⟩ := Option.ne_none_iff_exists'.mp husable
  have hresult : getFileNameAndLineNumber table.srcLines pc default = some value :=
    (lookup_eq_some_iff hreadable).mpr ⟨row, hstop, hvalue⟩
  rcases hcause with ⟨r, hr, hsame⟩ | ⟨huncovered, hdefault⟩
  · refine ⟨fun _ => ⟨r, hr, ?_, ?_⟩, fun hcause => ?_⟩
    · rw [hsame]
      exact husable
    · rw [hresult, hsame, hvalue]
    · rcases hcause with huncovered | hunusable
      · exact absurd hr (huncovered r)
      · exact absurd (hunusable row hmem) husable
  · refine ⟨fun ⟨r, hr, _⟩ => absurd hr (huncovered r), fun _ => ?_⟩
    rw [hresult, ← hvalue, hdefault]

/-- If the lookup of a table that can be read is right, the loop ends behind a row with the
file and the line asked for, unless nothing is asked for. -/
theorem LineTable.LooksUp.coincides {table : LineTable} {pc : DwarfAddr}
    {default : String × DwarfUnsigned} (hreadable : table.Readable)
    (h : table.LooksUp pc default (getFileNameAndLineNumber table.srcLines pc default)) :
    table.Unpromised pc ∨ table.Coincides pc default := by
  by_cases hcover : ∃ row, table.Covers pc row
  · by_cases hcovered : ∃ row, table.Covers pc row ∧ row.fileLine ≠ none
    · obtain ⟨r, hr, hvalue, hresult⟩ := h.covered hcovered
      obtain ⟨value, hvalue⟩ := Option.ne_none_iff_exists'.mp hvalue
      rw [hvalue, lookup_eq_some_iff hreadable] at hresult
      obtain ⟨row, hstop, hrow⟩ := hresult
      exact Or.inr ⟨row, hstop, Or.inl ⟨r, hr, hvalue.trans hrow.symm⟩⟩
    · refine Or.inl ⟨hcover, fun row hrow => ?_, ?_⟩
      · by_contra hvalue
        exact hcovered ⟨row, hrow, hvalue⟩
      · by_contra hnone
        have hresult := h.uncovered (Or.inr fun row hrow => by
          by_contra hvalue
          exact hnone ⟨row, hrow, hvalue⟩)
        obtain ⟨row, hstop, -⟩ := (lookup_eq_some_iff hreadable).mp hresult
        exact hnone ⟨row, hstop.usable⟩
  · have huncovered : ∀ row, ¬table.Covers pc row := fun row hrow => hcover ⟨row, hrow⟩
    obtain ⟨row, hstop, hrow⟩ :=
      (lookup_eq_some_iff hreadable).mp (h.uncovered (Or.inl huncovered))
    exact Or.inr ⟨row, hstop, Or.inr ⟨huncovered, hrow⟩⟩

/-- The lookup in a line table is right exactly if the table cannot be read, a row covers
the pc and no row before it but the first is above the pc, or by coincidence. The third case is a
part of the last, and is named because it is the one in which the loop works as intended. -/
theorem LineTable.looksUp_iff (table : LineTable) (pc : DwarfAddr)
    (default : String × DwarfUnsigned) :
    table.LooksUp pc default (getFileNameAndLineNumber table.srcLines pc default) ↔
      ¬table.Readable ∨ table.Unpromised pc ∨ table.CoveredFirst pc ∨
        table.Coincides pc default := by
  by_cases hreadable : table.Readable
  · constructor
    · intro h
      rcases h.coincides hreadable with hunpromised | hcoincides
      · exact Or.inr (Or.inl hunpromised)
      · exact Or.inr (Or.inr (Or.inr hcoincides))
    · rintro (hnot | ⟨⟨row, hrow⟩, hnone, r, hr, hvalue⟩ | hfirst | hcoincides)
      · exact absurd hreadable hnot
      · refine ⟨fun ⟨r, hr, hvalue⟩ => absurd (hnone r hr) hvalue, fun hcause => ?_⟩
        rcases hcause with huncovered | hunusable
        · exact absurd hrow (huncovered row)
        · exact absurd (hunusable r hr) hvalue
      · exact (hfirst.coincides default).looksUp hreadable
      · exact hcoincides.looksUp hreadable
  · obtain ⟨havailable, hresult⟩ := lookup_of_not_readable hreadable pc default
    refine iff_of_true ⟨fun ⟨row, ⟨s, hs, _⟩, _⟩ => ?_, fun _ => hresult⟩ (Or.inl hreadable)
    rw [havailable] at hs
    cases hs

/-- A row of the file `a.c`. -/
def rowAt (address : DwarfAddr) (lineno : DwarfUnsigned) : LineRow :=
  ⟨address, .ok lineno, .ok "a.c"⟩

/-- A sequence from `0x2000` to `0x2010`, in front of one from `0x1000` to `0x1010`. -/
def descendingTable : LineTable where
  tableType := .ok 1
  sequences := .ok
    [⟨[rowAt 0x2000 1], rowAt 0x2010 2, by decide⟩,
      ⟨[rowAt 0x1000 10, rowAt 0x1008 11], rowAt 0x1010 12, by decide⟩]

/-- The pc `0x1004` lies in line 10, and line 1 is returned. -/
theorem descendingTable_not_looksUp :
    ¬descendingTable.LooksUp 0x1004 ("?", maxDwarfUnsigned)
      (getFileNameAndLineNumber descendingTable.srcLines 0x1004 ("?", maxDwarfUnsigned)) := by
  intro h
  have hline : descendingTable.Covers 0x1004 (rowAt 0x1000 10) :=
    ⟨_, List.mem_cons_of_mem _ (List.mem_cons_self ..), [], rowAt 0x1008 11, [rowAt 0x1010 12],
      rfl, by decide, by decide⟩
  obtain ⟨row, ⟨s, hs, hcovers⟩, -, hresult⟩ := h.covered ⟨_, hline, by decide⟩
  obtain ⟨hlast, -⟩ := (s.covers_iff _ _).mp hcovers
  rcases List.mem_cons.mp hs with rfl | hs
  · cases hlast
  · rw [List.mem_singleton.mp hs] at hlast
    obtain rfl : rowAt 0x1000 10 = row := Option.some.inj hlast
    exact absurd hresult (by decide)

end DwarfExpr
