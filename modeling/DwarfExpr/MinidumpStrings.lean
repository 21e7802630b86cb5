import DwarfExpr.Lib.Utf16
import DwarfExpr.Minidump

/-!
# Strings of a minidump

Module names are stored in UTF-16, and `UTF16ToUTF8` transcodes them. It takes only the
words from `0xdc00` to `0xdcff` for low surrogates. The other low surrogates are taken for
characters of their own, and a pair that ends in one of them is refused.
-/

namespace DwarfExpr

open Utf16 (isHigh isLow paired wellFormed)

/-- The words that `UTF16ToUTF8` takes for low surrogates. -/
def testedLow (w : ℕ) : Bool := 0xdc00 ≤ w && w ≤ 0xdcff

theorem testedLow_iff {w : ℕ} : testedLow w = true ↔ 0xdc00 ≤ w ∧ w ≤ 0xdcff := by
  simp [testedLow]

/-- Bits in front of a smaller number. -/
theorem or_eq_add {i a p b : ℕ} (hp : 2 ^ i * a = p) (hb : b < 2 ^ i) : p ||| b = p + b := by
  rw [← hp]
  exact (Nat.two_pow_add_eq_or_of_lt hb a).symm

/-- The bytes appended for a code point are its UTF-8 encoding. -/
theorem utf8OfCodePoint_toNat (c : Char) :
    utf8OfCodePoint c.toNat = some (String.utf8EncodeChar c) := by
  have hmax := Utf16.toNat_lt c
  have hcontinued (n : ℕ) : 0x80 ||| n &&& 0x3f = n % 0x40 + 0x80 := by
    rw [show n &&& 0x3f = n % 0x40 from Nat.and_two_pow_sub_one_eq_mod n 6,
      @or_eq_add 7 1 0x80 (n % 0x40) rfl (by omega), Nat.add_comm]
  have h6 (n : ℕ) : n >>> 6 = n / 64 := Nat.shiftRight_eq_div_pow n 6
  have h12 (n : ℕ) : n >>> 12 = n / 4096 := Nat.shiftRight_eq_div_pow n 12
  have h18 (n : ℕ) : n >>> 18 = n / 262144 := Nat.shiftRight_eq_div_pow n 18
  unfold utf8OfCodePoint String.utf8EncodeChar
  rw [show c.val.toNat = c.toNat from rfl]
  generalize c.toNat = n at hmax
  simp only [hcontinued, h6, h12, h18]
  by_cases h1 : n < 0x80
  · rw [if_pos h1, if_pos (by omega)]
  by_cases h2 : n < 0x800
  · have hlead : 0xc0 ||| n / 64 = n / 64 % 0x20 + 0xc0 := by
      rw [@or_eq_add 6 3 0xc0 (n / 64) rfl (by omega)]
      omega
    rw [if_neg h1, if_pos h2, if_neg (by omega), if_pos (by omega), hlead]
  by_cases h3 : n < 0x10000
  · have hlead : 0xe0 ||| n / 4096 = n / 4096 % 0x10 + 0xe0 := by
      rw [@or_eq_add 5 7 0xe0 (n / 4096) rfl (by omega)]
      omega
    rw [if_neg h1, if_neg h2, if_pos h3, if_neg (by omega), if_neg (by omega), if_pos (by omega),
      hlead]
  · have hlead : 0xf0 ||| n / 262144 = n / 262144 % 0x08 + 0xf0 := by
      rw [@or_eq_add 4 15 0xf0 (n / 262144) rfl (by omega)]
      omega
    rw [if_neg h1, if_neg h2, if_neg h3, if_pos (by omega), if_neg (by omega), if_neg (by omega),
      if_neg (by omega), hlead]

/-- Something is appended for every code point up to the last. -/
theorem utf8OfCodePoint_of_lt {unichar : ℕ} (h : unichar < 0x200000) :
    ∃ b bytes, utf8OfCodePoint unichar = some (b :: bytes) := by
  unfold utf8OfCodePoint
  split
  · exact ⟨_, _, rfl⟩
  split
  · exact ⟨_, _, rfl⟩
  split
  · exact ⟨_, _, rfl⟩
  · exact ⟨_, _, rfl⟩

section

variable {w h l : ℕ} {rest : List ℕ}

/-- The loop on a word of its own. -/
theorem utf16Loop_single (hhigh : isHigh w = false) (hlow : testedLow w = false) :
    utf16Loop (w :: rest) =
      (utf8OfCodePoint w).bind fun bytes => (utf16Loop rest).map (bytes ++ ·) := by
  rw [← Bool.not_eq_true, Utf16.isHigh_iff] at hhigh
  rw [← Bool.not_eq_true, testedLow_iff] at hlow
  rw [utf16Loop.eq_def]
  simp only [if_neg hlow, if_neg hhigh]
  cases utf8OfCodePoint w <;> cases utf16Loop rest <;> rfl

/-- The loop on a low surrogate of its own. -/
theorem utf16Loop_low (hlow : testedLow w = true) : utf16Loop (w :: rest) = none := by
  rw [testedLow_iff] at hlow
  rw [utf16Loop.eq_def]
  exact if_pos hlow

/-- The loop on a high surrogate, which is no low one. -/
theorem utf16Loop_lone (hhigh : isHigh h = true) : utf16Loop [h] = none := by
  rw [Utf16.isHigh_iff] at hhigh
  rw [utf16Loop, if_neg (by omega), if_pos hhigh]

/-- The loop on a high surrogate before another word than a low one. -/
theorem utf16Loop_unpaired (hhigh : isHigh h = true) (hlow : testedLow l = false) :
    utf16Loop (h :: l :: rest) = none := by
  rw [Utf16.isHigh_iff] at hhigh
  rw [← Bool.not_eq_true, testedLow_iff] at hlow
  rw [utf16Loop, if_neg (by omega), if_pos hhigh]
  exact if_pos (by omega)

/-- The loop on a pair. -/
theorem utf16Loop_pair (hhigh : isHigh h = true) (hlow : testedLow l = true) :
    utf16Loop (h :: l :: rest) =
      (utf8OfCodePoint (0x10000 + (h - 0xd800) * 0x400 + (l - 0xdc00))).bind fun bytes =>
        (utf16Loop rest).map (bytes ++ ·) := by
  rw [Utf16.isHigh_iff] at hhigh
  rw [testedLow_iff] at hlow
  have hother : ¬(0xdc00 ≤ h ∧ h ≤ 0xdcff) := by omega
  have hpaired : ¬(l < 0xdc00 ∨ 0xdcff < l) := by omega
  have hmask : l &&& 0x03ff = l % 0x400 := Nat.and_two_pow_sub_one_eq_mod l 10
  have hpacked : (h - 0xd7c0) <<< 10 ||| l &&& 0x03ff =
      0x10000 + (h - 0xd800) * 0x400 + (l - 0xdc00) := by
    rw [hmask, Nat.shiftLeft_eq,
      @or_eq_add 10 (h - 0xd7c0) ((h - 0xd7c0) * 2 ^ 10) _ (Nat.mul_comm _ _) (by omega)]
    omega
  rw [utf16Loop, if_neg hother, if_pos hhigh, if_neg hpaired, hpacked]
  generalize utf8OfCodePoint _ = bytes
  cases bytes <;> cases utf16Loop rest <;> rfl

end

/-- No word is tested for both. -/
theorem testedLow_of_isHigh {w : ℕ} (hhigh : isHigh w = true) : testedLow w = false := by
  rw [Utf16.isHigh_iff] at hhigh
  rw [← Bool.not_eq_true, testedLow_iff]
  omega

/-- The low surrogates that are tested are low surrogates. -/
theorem isLow_of_testedLow {w : ℕ} (hlow : testedLow w = true) : isLow w = true := by
  rw [testedLow_iff] at hlow
  rw [Utf16.isLow_iff]
  omega

/-- The loop gives up exactly if the words are not paired with the low surrogates it tests
for, and otherwise appends something for each word. Induction on the words. -/
theorem utf16Loop_cases {words : List ℕ} (hwords : ∀ w ∈ words, w < 2 ^ 16) :
    (paired testedLow false words = false ∧ utf16Loop words = none) ∨
      (paired testedLow false words = true ∧
        ∃ out, utf16Loop words = some out ∧ (words ≠ [] → out ≠ [])) := by
  induction words using Utf16.pairs_induction with
  | nil => exact Or.inr ⟨rfl, [], rfl, fun hne => absurd rfl hne⟩
  | single w rest hhigh ih =>
    obtain ⟨hw, hrest⟩ := List.forall_mem_cons.mp hwords
    cases hlow : testedLow w with
    | true => exact Or.inl ⟨by simp [paired, hlow], utf16Loop_low hlow⟩
    | false =>
      obtain ⟨b, bytes, hbytes⟩ := @utf8OfCodePoint_of_lt w (by omega)
      rw [Utf16.paired_ordinary hhigh hlow, utf16Loop_single hhigh hlow, hbytes]
      rcases ih hrest with ⟨hpaired, hloop⟩ | ⟨hpaired, out, hloop, -⟩
      · exact Or.inl ⟨hpaired, by rw [hloop]; rfl⟩
      · exact Or.inr ⟨hpaired, b :: bytes ++ out, by rw [hloop]; rfl, by simp⟩
  | lone h hhigh => exact Or.inl ⟨by simp [paired, hhigh], utf16Loop_lone hhigh⟩
  | pair h l rest hhigh ih =>
    have hrest : ∀ w ∈ rest, w < 2 ^ 16 := fun w hw =>
      hwords w (List.mem_cons_of_mem _ (List.mem_cons_of_mem _ hw))
    cases hlow : testedLow l with
    | false => exact Or.inl ⟨by simp [paired, hhigh, hlow], utf16Loop_unpaired hhigh hlow⟩
    | true =>
      obtain ⟨b, bytes, hbytes⟩ :=
        @utf8OfCodePoint_of_lt (0x10000 + (h - 0xd800) * 0x400 + (l - 0xdc00)) (by
          rw [Utf16.isHigh_iff] at hhigh
          rw [testedLow_iff] at hlow
          omega)
      rw [Utf16.paired_pair hhigh (testedLow_of_isHigh hhigh) hlow
        (Utf16.isHigh_of_isLow (isLow_of_testedLow hlow)), utf16Loop_pair hhigh hlow, hbytes]
      rcases ih hrest with ⟨hpaired, hloop⟩ | ⟨hpaired, out, hloop, -⟩
      · exact Or.inl ⟨hpaired, by rw [hloop]; rfl⟩
      · exact Or.inr ⟨hpaired, b :: bytes ++ out, by rw [hloop]; rfl, by simp⟩

/-- Characters are transcoded if the loop tests for all their low surrogates. Induction on the
characters. -/
theorem utf16Loop_encode {chars : List Char}
    (htested : ∀ w ∈ Utf16.encode chars, isLow w = true → testedLow w = true) :
    utf16Loop (Utf16.encode chars) = some (chars.flatMap String.utf8EncodeChar) := by
  induction chars with
  | nil => rfl
  | cons c chars ih =>
    rw [Utf16.encode_cons] at htested ⊢
    have hrest := ih fun w hw => htested w (List.mem_append_right _ hw)
    have hfirst : ∀ w ∈ Utf16.encodeChar c, isLow w = true → testedLow w = true :=
      fun w hw => htested w (List.mem_append_left _ hw)
    rcases Utf16.encodeChar_cases c with ⟨hsingle, hhigh, hlow⟩ | ⟨h, l, hpair⟩
    · have hother : testedLow c.toNat = false := by
        rw [← Bool.not_eq_true]
        intro htest
        rw [isLow_of_testedLow htest] at hlow
        cases hlow
      rw [hsingle, List.singleton_append, utf16Loop_single hhigh hother, utf8OfCodePoint_toNat,
        hrest]
      rfl
    · obtain ⟨hvalue, hhigh, hlow⟩ := Utf16.codePoint_of_pair hpair
      rw [hpair] at hfirst
      have htest := hfirst l (by simp) hlow
      rw [hpair, List.cons_append, List.singleton_append, utf16Loop_pair hhigh htest, ← hvalue,
        utf8OfCodePoint_toNat, hrest]
      rfl

/-- Wrongly paired words give the empty string. -/
theorem utf16ToUtf8_of_not_paired {words : List ℕ} (hwords : ∀ w ∈ words, w < 2 ^ 16)
    (hpaired : paired testedLow false words = false) : utf16ToUtf8 words = [] := by
  rcases utf16Loop_cases hwords with ⟨-, hloop⟩ | ⟨hother, -⟩
  · rw [utf16ToUtf8, hloop]
    rfl
  · rw [hpaired] at hother
    cases hother

/-- Other words give a string that is not empty. -/
theorem utf16ToUtf8_ne_nil {words : List ℕ} (hwords : ∀ w ∈ words, w < 2 ^ 16)
    (hpaired : paired testedLow false words = true) (hne : words ≠ []) :
    utf16ToUtf8 words ≠ [] := by
  rcases utf16Loop_cases hwords with ⟨hother, -⟩ | ⟨-, out, hloop, hout⟩
  · rw [hpaired] at hother
    cases hother
  · rw [utf16ToUtf8, hloop]
    exact hout hne

/-- Well-formed words are transcoded to the UTF-8 encoding of their characters, and ill-formed
ones to the empty string. -/
structure TranscodesExactly (words : List ℕ) : Prop where
  wellFormed : wellFormed words = true → ∃ chars, words = Utf16.encode chars ∧
    utf16ToUtf8 words = chars.flatMap String.utf8EncodeChar
  illFormed : Utf16.wellFormed words = false → utf16ToUtf8 words = []

/-- Words without a low surrogate that is not tested for. -/
theorem TranscodesExactly.of_tested {words : List ℕ} (hwords : ∀ w ∈ words, w < 2 ^ 16)
    (hsame : ∀ w ∈ words, isLow w = testedLow w) : TranscodesExactly words where
  wellFormed hwell := by
    obtain ⟨chars, rfl⟩ := Utf16.exists_encode_of_wellFormed hwords hwell
    refine ⟨chars, rfl, ?_⟩
    rw [utf16ToUtf8, utf16Loop_encode fun w hw hlow => (hsame w hw).symm.trans hlow]
    rfl
  illFormed hill := by
    apply utf16ToUtf8_of_not_paired hwords
    rw [← Utf16.paired_congr hsame]
    exact hill

/-- A low surrogate that is not tested for spoils the result, unless the words are wrongly
paired with and without it. -/
theorem TranscodesExactly.not_paired {words : List ℕ} (hexact : TranscodesExactly words)
    (hwords : ∀ w ∈ words, w < 2 ^ 16) {v : ℕ} (hv : v ∈ words) (hlow : isLow v = true)
    (hmissed : testedLow v = false) :
    Utf16.wellFormed words = false ∧ paired testedLow false words = false := by
  have hne : words ≠ [] := List.ne_nil_of_mem hv
  cases hwell : Utf16.wellFormed words with
  | false =>
    refine ⟨rfl, ?_⟩
    rw [← Bool.not_eq_true]
    intro hpaired
    exact utf16ToUtf8_ne_nil hwords hpaired hne (hexact.illFormed hwell)
  | true =>
    have hpaired := Utf16.not_paired_of_missing hv hlow hmissed false hwell
    obtain ⟨chars, hchars, hutf8⟩ := hexact.wellFormed hwell
    rw [utf16ToUtf8_of_not_paired hwords hpaired] at hutf8
    cases chars with
    | nil => exact absurd hchars hne
    | cons c chars =>
      exact absurd (List.append_eq_nil_iff.mp hutf8.symm).1 String.utf8EncodeChar_ne_nil

/-- Words are transcoded exactly if none of them is a low surrogate that `UTF16ToUTF8` does not
test for, or if they are wrongly paired with and without those. -/
theorem utf16ToUtf8_transcodes_iff (words : List UInt16) :
    TranscodesExactly (words.map UInt16.toNat) ↔
      (∀ w ∈ words, ¬(0xdd00 ≤ w.toNat ∧ w.toNat ≤ 0xdfff)) ∨
        (wellFormed (words.map UInt16.toNat) = false ∧
          paired testedLow false (words.map UInt16.toNat) = false) := by
  have hwords : ∀ w ∈ words.map UInt16.toNat, w < 2 ^ 16 :=
    List.forall_mem_map.mpr fun w _ => w.toNat_lt
  constructor
  · intro hexact
    by_cases hnone : ∀ w ∈ words, ¬(0xdd00 ≤ w.toNat ∧ w.toNat ≤ 0xdfff)
    · exact Or.inl hnone
    · right
      push Not at hnone
      obtain ⟨v, hv, hrange⟩ := hnone
      refine hexact.not_paired hwords (List.mem_map_of_mem hv) ?_ ?_
      · rw [Utf16.isLow_iff]
        omega
      · rw [← Bool.not_eq_true, testedLow_iff]
        omega
  · rintro (hnone | ⟨hill, hpaired⟩)
    · refine .of_tested hwords (List.forall_mem_map.mpr fun w hw => ?_)
      have hrange := hnone w hw
      rw [Bool.eq_iff_iff, Utf16.isLow_iff, testedLow_iff]
      omega
    · refine ⟨fun hwell => ?_, fun _ => utf16ToUtf8_of_not_paired hwords hpaired⟩
      rw [hill] at hwell
      cases hwell

/-- A well-formed pair and a low surrogate of its own, both with a word above `0xdcff`. -/
theorem utf16ToUtf8_highLow :
    wellFormed [0xd83d, 0xde00] = true ∧ utf16ToUtf8 [0xd83d, 0xde00] = [] ∧
      wellFormed [0xde00] = false ∧ utf16ToUtf8 [0xde00] = [0xed, 0xb8, 0x80] ∧
      ¬TranscodesExactly [0xd83d, 0xde00] ∧ ¬TranscodesExactly [0xde00] := by
  refine ⟨rfl, rfl, rfl, rfl, fun h => ?_, fun h => ?_⟩
  · obtain ⟨chars, hchars, hutf8⟩ := h.wellFormed rfl
    cases chars with
    | nil => cases hchars
    | cons c chars => exact String.utf8EncodeChar_ne_nil (List.append_eq_nil_iff.mp hutf8.symm).1
  · cases h.illFormed rfl

end DwarfExpr
