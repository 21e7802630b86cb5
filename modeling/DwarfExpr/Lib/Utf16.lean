import Mathlib.Data.List.Basic
import Mathlib.Algebra.Group.Nat.Defs

/-!
# UTF-16

A character beyond `0xffff` is written as two words, a high and a low surrogate. Which
words count as low surrogates is a parameter, so that the pairing of surrogates can be
compared for different ranges.
-/

namespace Utf16

/-- The first word of a pair. -/
def isHigh (w : ℕ) : Bool := 0xd800 ≤ w && w ≤ 0xdbff

/-- The second word of a pair. -/
def isLow (w : ℕ) : Bool := 0xdc00 ≤ w && w ≤ 0xdfff

/-- Each word is a low surrogate exactly if it follows a high one, which is never the last
word. -/
def paired (low : ℕ → Bool) : (afterHigh : Bool) → List ℕ → Bool
  | afterHigh, [] => !afterHigh
  | afterHigh, w :: rest => low w == afterHigh && paired low (isHigh w) rest

/-- Well-formed UTF-16. -/
def wellFormed (words : List ℕ) : Bool := paired isLow false words

/-- The words of a character. -/
def encodeChar (c : Char) : List ℕ :=
  if c.toNat < 0x10000 then [c.toNat]
  else [0xd800 + (c.toNat - 0x10000) / 0x400, 0xdc00 + (c.toNat - 0x10000) % 0x400]

/-- The words of a list of characters. -/
def encode (chars : List Char) : List ℕ := chars.flatMap encodeChar

@[simp] theorem encode_nil : encode [] = [] := rfl

@[simp] theorem encode_cons (c : Char) (chars : List Char) :
    encode (c :: chars) = encodeChar c ++ encode chars := rfl

theorem isHigh_iff {w : ℕ} : isHigh w = true ↔ 0xd800 ≤ w ∧ w ≤ 0xdbff := by
  simp [isHigh]

theorem isLow_iff {w : ℕ} : isLow w = true ↔ 0xdc00 ≤ w ∧ w ≤ 0xdfff := by
  simp [isLow]

/-- No low surrogate is a high one. -/
theorem isHigh_of_isLow {w : ℕ} (hlow : isLow w = true) : isHigh w = false := by
  rw [Utf16.isLow_iff] at hlow
  rw [← Bool.not_eq_true, Utf16.isHigh_iff]
  omega

/-- A word of its own in front. -/
theorem paired_ordinary {low : ℕ → Bool} {w : ℕ} (hhigh : isHigh w = false) (hlow : low w = false)
    (rest : List ℕ) : paired low false (w :: rest) = paired low false rest := by
  simp [paired, hhigh, hlow]

/-- A pair in front. -/
theorem paired_pair {low : ℕ → Bool} {h l : ℕ} (hhigh : isHigh h = true) (hnot : low h = false)
    (hlow : low l = true) (hend : isHigh l = false) (rest : List ℕ) :
    paired low false (h :: l :: rest) = paired low false rest := by
  simp [paired, hhigh, hnot, hlow, hend]

/-- Two ranges of low surrogates that agree on the words. Induction on the words. -/
theorem paired_congr {low low' : ℕ → Bool} {words : List ℕ} (hsame : ∀ w ∈ words, low w = low' w)
    (afterHigh : Bool) : paired low afterHigh words = paired low' afterHigh words := by
  induction words generalizing afterHigh with
  | nil => rfl
  | cons w rest ih =>
    obtain ⟨hw, hrest⟩ := List.forall_mem_cons.mp hsame
    rw [paired, paired, hw, ih hrest]

/-- A low surrogate that another range leaves out makes one of the two pairings wrong. -/
theorem not_paired_of_missing {low low' : ℕ → Bool} {words : List ℕ} {w : ℕ} (hw : w ∈ words)
    (hlow : low w = true) (hmissing : low' w = false) (afterHigh : Bool)
    (hpaired : paired low afterHigh words = true) : paired low' afterHigh words = false := by
  induction words generalizing afterHigh with
  | nil => cases hw
  | cons v rest ih =>
    simp only [paired, Bool.and_eq_true, beq_iff_eq] at hpaired
    rcases List.mem_cons.mp hw with rfl | hrest
    · rw [hlow] at hpaired
      simp [paired, hmissing, ← hpaired.1]
    · rw [paired, ih hrest _ hpaired.2, Bool.and_false]

/-- A list of words is read from the front: a word that is no high surrogate, or a high
surrogate with the word behind it. -/
theorem pairs_induction {P : List ℕ → Prop} (nil : P [])
    (single : ∀ w rest, isHigh w = false → P rest → P (w :: rest))
    (lone : ∀ h, isHigh h = true → P [h])
    (pair : ∀ h l rest, isHigh h = true → P rest → P (h :: l :: rest)) : ∀ words, P words
  | [] => nil
  | [w] => by
    cases hw : isHigh w with
    | true => exact lone w hw
    | false => exact single w [] hw nil
  | w :: v :: rest => by
    cases hw : isHigh w with
    | true => exact pair w v rest hw (pairs_induction nil single lone pair rest)
    | false => exact single w _ hw (pairs_induction nil single lone pair (v :: rest))

/-- Code points end before `0x110000`. -/
theorem toNat_lt (c : Char) : c.toNat < 0x110000 := by
  rcases c.valid with hlow | ⟨-, hhigh⟩
  · exact Nat.lt_trans hlow (by decide)
  · exact hhigh

/-- A character is one word, which is no surrogate, or a pair. -/
theorem encodeChar_cases (c : Char) :
    (encodeChar c = [c.toNat] ∧ isHigh c.toNat = false ∧ isLow c.toNat = false) ∨
      ∃ h l, encodeChar c = [h, l] := by
  unfold encodeChar
  split
  · refine Or.inl ⟨rfl, ?_⟩
    rw [← Bool.not_eq_true, ← Bool.not_eq_true, isHigh_iff, isLow_iff]
    rcases c.valid with hlow | ⟨hbeyond, -⟩
    · have hlow : c.toNat < 0xd800 := hlow
      omega
    · have hbeyond : 0xdfff < c.toNat := hbeyond
      omega
  · exact Or.inr ⟨_, _, rfl⟩

/-- The code point of a pair. -/
theorem codePoint_of_pair {c : Char} {h l : ℕ} (hpair : encodeChar c = [h, l]) :
    c.toNat = 0x10000 + (h - 0xd800) * 0x400 + (l - 0xdc00) ∧ isHigh h = true ∧
      isLow l = true := by
  have hmax := toNat_lt c
  unfold encodeChar at hpair
  split at hpair
  · simp at hpair
  · simp only [List.cons.injEq, and_true] at hpair
    obtain ⟨hh, hl⟩ := hpair
    rw [isHigh_iff, isLow_iff]
    omega

/-- A pair stands for a character. -/
theorem exists_char_of_pair {h l : ℕ} (hhigh : isHigh h = true) (hlow : isLow l = true) :
    ∃ c : Char, encodeChar c = [h, l] := by
  rw [isHigh_iff] at hhigh
  rw [isLow_iff] at hlow
  have hvalid : Nat.isValidChar (0x10000 + (h - 0xd800) * 0x400 + (l - 0xdc00)) :=
    Or.inr ⟨by omega, by omega⟩
  refine ⟨Char.ofNatAux _ hvalid, ?_⟩
  have hvalue : (Char.ofNatAux _ hvalid).toNat =
      0x10000 + (h - 0xd800) * 0x400 + (l - 0xdc00) := rfl
  have hfirst : 0xd800 + (0x10000 + (h - 0xd800) * 0x400 + (l - 0xdc00) - 0x10000) / 0x400 = h := by
    omega
  have hsecond :
      0xdc00 + (0x10000 + (h - 0xd800) * 0x400 + (l - 0xdc00) - 0x10000) % 0x400 = l := by omega
  rw [encodeChar, hvalue, if_neg (by omega), hfirst, hsecond]

/-- A word that is no surrogate stands for a character. -/
theorem exists_char_of_single {w : ℕ} (hw : w < 2 ^ 16) (hhigh : isHigh w = false)
    (hlow : isLow w = false) : ∃ c : Char, encodeChar c = [w] := by
  rw [← Bool.not_eq_true, isHigh_iff] at hhigh
  rw [← Bool.not_eq_true, isLow_iff] at hlow
  have hvalid : Nat.isValidChar w := by
    unfold Nat.isValidChar
    omega
  refine ⟨Char.ofNatAux w hvalid, ?_⟩
  have hvalue : (Char.ofNatAux w hvalid).toNat = w := rfl
  rw [encodeChar, hvalue, if_pos (by omega)]

/-- Well-formed words encode characters. Induction on the words. -/
theorem exists_encode_of_wellFormed {words : List ℕ} (hwords : ∀ w ∈ words, w < 2 ^ 16)
    (hwell : wellFormed words = true) : ∃ chars, words = encode chars := by
  induction words using pairs_induction with
  | nil => exact ⟨[], rfl⟩
  | single w rest hhigh ih =>
    obtain ⟨hw, hrest⟩ := List.forall_mem_cons.mp hwords
    simp only [wellFormed, paired, hhigh, Bool.and_eq_true, beq_iff_eq] at hwell
    obtain ⟨chars, rfl⟩ := ih hrest hwell.2
    obtain ⟨c, hc⟩ := exists_char_of_single hw hhigh hwell.1
    exact ⟨c :: chars, by rw [encode_cons, hc, List.singleton_append]⟩
  | lone h hhigh =>
    simp [wellFormed, paired, hhigh] at hwell
  | pair h l rest hhigh ih =>
    have hrest : ∀ w ∈ rest, w < 2 ^ 16 := fun w hw =>
      hwords w (List.mem_cons_of_mem _ (List.mem_cons_of_mem _ hw))
    simp only [wellFormed, paired, hhigh, Bool.and_eq_true, beq_iff_eq] at hwell
    obtain ⟨-, hlow, hpaired⟩ := hwell
    rw [isHigh_of_isLow hlow] at hpaired
    obtain ⟨chars, rfl⟩ := ih hrest hpaired
    obtain ⟨c, hc⟩ := exists_char_of_pair hhigh hlow
    exact ⟨c :: chars, by rw [encode_cons, hc]; rfl⟩

end Utf16
