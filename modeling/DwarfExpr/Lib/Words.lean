import Mathlib.Data.Nat.Notation

/-!
# Words and lines of a text

A text is cut at each occurrence of a separator, and the empty pieces are dropped. What is
left are its words. Separators around a word and their number do not matter. Or it is cut
behind each occurrence of an end mark, which the pieces keep: these are its lines.
-/

namespace Words

variable {α : Type*} [DecidableEq α] {sep : α}

/-- The nonempty pieces between separators. -/
def words (sep : α) (text : List α) : List (List α) := (text.splitOn sep).filter (· ≠ [])

/-- A separator between two texts separates their words. -/
theorem words_append_cons (s t : List α) :
    words sep (s ++ sep :: t) = words sep s ++ words sep t := by
  rw [words, List.splitOn_append_cons_self, List.filter_append]
  rfl

/-- A text without separator is one word. -/
theorem words_eq_singleton {w : List α} (hsep : sep ∉ w) (hw : w ≠ []) : words sep w = [w] := by
  rw [words, List.splitOn_eq_singleton hsep]
  simp [hw]

@[simp] theorem words_nil : words sep [] = [] := by
  simp [words]

/-- A separator in front does not matter. -/
@[simp] theorem words_cons_self (t : List α) : words sep (sep :: t) = words sep t := by
  have h := @words_append_cons α _ sep [] t
  simpa using h

/-- Separators in front do not matter. -/
@[simp] theorem words_replicate_append (n : ℕ) (t : List α) :
    words sep (List.replicate n sep ++ t) = words sep t := by
  induction n with
  | zero => rfl
  | succ n ih => rw [List.replicate_succ, List.cons_append, words_cons_self, ih]

/-- A word that a separator follows is the first. -/
theorem words_word_append {w : List α} (hsep : sep ∉ w) (hw : w ≠ []) (t : List α) :
    words sep (w ++ sep :: t) = w :: words sep t := by
  rw [words_append_cons, words_eq_singleton hsep hw]
  rfl

/-- No piece between separators has a separator in it. -/
theorem not_mem_of_mem_splitOn {w text : List α} (h : w ∈ text.splitOn sep) : sep ∉ w := by
  induction text generalizing w with
  | nil =>
    rw [List.splitOn_nil, List.mem_singleton] at h
    rw [h]
    exact List.not_mem_nil
  | cons c rest ih =>
    rw [List.splitOn_cons_eq_if_modifyHead] at h
    by_cases hc : c = sep
    · rw [if_pos (by simp [hc])] at h
      rcases List.mem_cons.mp h with rfl | h
      · exact List.not_mem_nil
      · exact ih h
    · rw [if_neg (by simp [hc])] at h
      cases hrest : rest.splitOn sep with
      | nil => exact absurd hrest (List.splitOn_ne_nil _ _)
      | cons first pieces =>
        rw [hrest, List.modifyHead_cons, List.mem_cons] at h
        rw [hrest] at ih
        rcases h with rfl | h
        · simp [ih (List.mem_cons_self ..), Ne.symm hc]
        · exact ih (List.mem_cons_of_mem _ h)

/-- No word has a separator in it. -/
theorem not_mem_of_mem_words {w text : List α} (h : w ∈ words sep text) : sep ∉ w :=
  not_mem_of_mem_splitOn (List.mem_filter.mp h).1

/-- The pieces up to each end mark, the last one without it if the text goes on behind it. -/
def splitLines (mark : α) : List α → List (List α)
  | [] => []
  | c :: rest =>
    if c = mark then [c] :: splitLines mark rest
    else
      match splitLines mark rest with
      | [] => [[c]]
      | line :: lines => (c :: line) :: lines

/-- The first line begins where the text does. -/
theorem exists_splitLines_cons (mark c : α) (rest : List α) :
    ∃ line lines, splitLines mark (c :: rest) = (c :: line) :: lines := by
  rw [splitLines]
  split
  · exact ⟨[], _, rfl⟩
  · split
    · exact ⟨[], [], rfl⟩
    · exact ⟨_, _, rfl⟩

/-- A text with no end mark in it but at its end is one line. Induction on the text. -/
theorem splitLines_append {mark : α} {line : List α} (hline : mark ∉ line) (rest : List α) :
    splitLines mark (line ++ mark :: rest) = (line ++ [mark]) :: splitLines mark rest := by
  induction line with
  | nil => rw [List.nil_append, splitLines, if_pos rfl, List.nil_append]
  | cons c line ih =>
    obtain ⟨hc, hmore⟩ := not_or.mp (mt List.mem_cons.mpr hline)
    rw [List.cons_append, splitLines, if_neg (Ne.symm hc), ih hmore]
    rfl

/-- The text has an end mark at its end and nowhere else. -/
def IsLine (mark : α) (line : List α) : Prop := ∃ text, mark ∉ text ∧ line = text ++ [mark]

/-- A line is read back. -/
theorem IsLine.splitLines_append {mark : α} {line : List α} (hline : IsLine mark line)
    (rest : List α) : splitLines mark (line ++ rest) = line :: splitLines mark rest := by
  obtain ⟨text, htext, rfl⟩ := hline
  rw [List.append_assoc, List.singleton_append, Words.splitLines_append htext]

/-- Lines that are written one after the other are read back. Induction on the lines. -/
theorem splitLines_flatten {mark : α} {lines : List (List α)} (hlines : ∀ l ∈ lines, IsLine mark l)
    (rest : List α) :
    splitLines mark (lines.flatten ++ rest) = lines ++ splitLines mark rest := by
  induction lines with
  | nil => rfl
  | cons line lines ih =>
    obtain ⟨hline, hmore⟩ := List.forall_mem_cons.mp hlines
    rw [List.flatten_cons, List.append_assoc, hline.splitLines_append, ih hmore, List.cons_append]

end Words
