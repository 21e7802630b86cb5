import Mathlib.Algebra.Group.Nat.Defs
import Mathlib.Data.Int.Notation
import Mathlib.Data.List.DropRight

/-!
# Numbers in texts

Numbers are printed with a fixed number of hexadecimal digits. They are read as Python's
`int(text, base)` reads them: blanks around the number, a sign, a base prefix `0x` and
single underscores between digits are allowed. Of the decimal digits those of ASCII count.
-/

namespace NumberText

/-- The value of a digit among `0` to `9` and the letters. The decimal digits of other scripts,
which `int` reads too, are left out. -/
def digitValue (base : ℕ) (c : Char) : Option ℕ :=
  let d :=
    if '0' ≤ c ∧ c ≤ '9' then c.toNat - 48
    else if 'a' ≤ c ∧ c ≤ 'z' then c.toNat - 87
    else if 'A' ≤ c ∧ c ≤ 'Z' then c.toNat - 55
    else base
  if d < base then some d else none

/-- The number in digits after those of a first number; behind an underscore, and in front
of everything, a digit has to follow. -/
def digitsFrom (base : ℕ) : ℕ → Bool → List Char → Option ℕ
  | acc, gap, [] => if gap then none else some acc
  | acc, gap, c :: rest =>
    if c = '_' then if gap then none else digitsFrom base acc true rest
    else
      match digitValue base c with
      | none => none
      | some d => digitsFrom base (acc * base + d) false rest

/-- The characters that `int` skips around a number. -/
def isBlank (c : Char) : Bool :=
  c.toNat ∈ [0x09, 0x0a, 0x0b, 0x0c, 0x0d, 0x20, 0x85, 0xa0, 0x1680, 0x2000, 0x2001, 0x2002,
    0x2003, 0x2004, 0x2005, 0x2006, 0x2007, 0x2008, 0x2009, 0x200a, 0x2028, 0x2029, 0x202f,
    0x205f, 0x3000]

/-- Drop a kind of characters at both ends. -/
def strip (p : Char → Bool) (text : List Char) : List Char := (text.dropWhile p).rdropWhile p

/-- A sign in front, whether it is negative, and what follows it. -/
def splitSign : List Char → Bool × List Char
  | '-' :: rest => (true, rest)
  | '+' :: rest => (false, rest)
  | text => (false, text)

/-- Drop a prefix `0x`, with an underscore that may follow it. -/
def dropPrefix : List Char → List Char
  | '0' :: 'x' :: '_' :: rest => rest
  | '0' :: 'X' :: '_' :: rest => rest
  | '0' :: 'x' :: rest => rest
  | '0' :: 'X' :: rest => rest
  | text => text

/-- `int(text, base)`; `none` is a `ValueError`. -/
def ofText (base : ℕ) (text : List Char) : Option ℤ :=
  let (negative, text) := splitSign (strip isBlank text)
  let text := if base = 16 then dropPrefix text else text
  (digitsFrom base 0 true text).map fun n => if negative then -(n : ℤ) else n

/-- The lowest digits of a number, as many as asked for. -/
def toHex : ℕ → ℕ → List Char
  | 0, _ => []
  | width + 1, n => toHex width (n / 16) ++ [Nat.digitChar (n % 16)]

@[simp] theorem length_toHex (width n : ℕ) : (toHex width n).length = width := by
  induction width generalizing n with
  | zero => rfl
  | succ width ih => simp [toHex, ih]

/-- A printed number has a digit. -/
theorem toHex_ne_nil {width : ℕ} (hwidth : width ≠ 0) (n : ℕ) : toHex width n ≠ [] := by
  intro hnil
  have hlength := length_toHex width n
  rw [hnil] at hlength
  exact hwidth hlength.symm

/-- What the sixteen digits have in common: each is read as its value, and none of them is
a blank, a sign, an underscore or the letter of a prefix. -/
theorem digitChar_spec : ∀ d : Fin 16, digitValue 16 (Nat.digitChar d) = some d.val ∧
    isBlank (Nat.digitChar d) = false ∧
      Nat.digitChar d ∉ [' ', '-', '+', '_', 'x', 'X', '=', '\n'] := by
  decide

/-- A character of a printed number is one of the sixteen digits. -/
theorem exists_of_mem_toHex {width n : ℕ} {c : Char} (h : c ∈ toHex width n) :
    ∃ d : Fin 16, c = Nat.digitChar d := by
  induction width generalizing n with
  | zero => cases h
  | succ width ih =>
    rw [toHex, List.mem_append, List.mem_singleton] at h
    rcases h with h | h
    · exact ih h
    · exact ⟨⟨n % 16, Nat.mod_lt _ (by decide)⟩, h⟩

/-- No character of a printed number is special. -/
theorem ne_of_mem_toHex {width n : ℕ} {c : Char} (h : c ∈ toHex width n) :
    isBlank c = false ∧ c ∉ [' ', '-', '+', '_', 'x', 'X', '=', '\n'] := by
  obtain ⟨d, rfl⟩ := exists_of_mem_toHex h
  exact (digitChar_spec d).2

/-- A printed number has no blank in it. -/
theorem blank_not_mem_toHex (width n : ℕ) : ' ' ∉ toHex width n := fun hmem =>
  (ne_of_mem_toHex hmem).2 (by simp)

/-- The digits of a printed number are read back. Induction on their number. -/
theorem digitsFrom_toHex (width n acc : ℕ) (gap : Bool) (rest : List Char) :
    digitsFrom 16 acc gap (toHex width n ++ rest) =
      digitsFrom 16 (acc * 16 ^ width + n % 16 ^ width) (if width = 0 then gap else false)
        rest := by
  induction width generalizing n acc rest with
  | zero => simp [toHex, Nat.mod_one]
  | succ width ih =>
    have hdigit := digitChar_spec ⟨n % 16, Nat.mod_lt _ (by decide)⟩
    have hunderscore : Nat.digitChar (n % 16) ≠ '_' := by
      intro h
      have hmem := hdigit.2.2
      simp only [h] at hmem
      exact hmem (by decide)
    have hmod : n % 16 ^ (width + 1) = n % 16 + 16 * (n / 16 % 16 ^ width) := by
      rw [pow_succ', Nat.mod_mul]
    have hvalue : (acc * 16 ^ width + n / 16 % 16 ^ width) * 16 + n % 16 =
        acc * 16 ^ (width + 1) + n % 16 ^ (width + 1) := by
      rw [hmod, pow_succ, Nat.add_mul, Nat.mul_assoc]
      omega
    rw [toHex, List.append_assoc, ih, List.singleton_append, digitsFrom, if_neg hunderscore,
      hdigit.1, if_neg (Nat.succ_ne_zero width)]
    simp only [hvalue]

/-- What is dropped at both ends, when what is between them has other ends. -/
theorem strip_append {p : Char → Bool} {front text back : List Char}
    (hfront : ∀ c ∈ front, p c = true) (hback : ∀ c ∈ back, p c = true)
    (hhead : ∀ c ∈ text.head?, p c = false) (hlast : ∀ c ∈ text.getLast?, p c = false) :
    strip p (front ++ (text ++ back)) = text := by
  rw [strip, List.dropWhile_append_of_pos hfront]
  cases text with
  | nil =>
    rw [List.nil_append, List.dropWhile_eq_nil_iff.mpr hback]
    rfl
  | cons c rest =>
    have hbackR : ∀ c ∈ back.reverse, p c = true := fun c hc => hback c (List.mem_reverse.mp hc)
    have hkept : (c :: rest).rdropWhile p = c :: rest := by
      rw [List.rdropWhile_eq_self_iff]
      intro hne
      simp [hlast _ (List.getLast_mem_getLast? hne)]
    rw [List.cons_append, List.dropWhile_cons_of_neg (by simp [hhead c rfl]), ← List.cons_append,
      List.rdropWhile, List.reverse_append, List.dropWhile_append_of_pos hbackR]
    exact hkept

/-- Nothing is dropped from a text in which nothing is of that kind. -/
theorem strip_eq_self {p : Char → Bool} {text : List Char} (h : ∀ c ∈ text, p c = false) :
    strip p text = text := by
  have hstrip := @strip_append p [] text [] (by simp) (by simp)
    (fun c hc => h c (List.mem_of_mem_head? hc)) (fun c hc => h c (List.mem_of_getLast? hc))
  simpa using hstrip

/-- A text that begins with no sign has none. -/
theorem splitSign_eq_self {text : List Char} (h : ∀ c ∈ text.head?, c ≠ '-' ∧ c ≠ '+') :
    splitSign text = (false, text) := by
  unfold splitSign
  split
  · exact absurd rfl (h '-' rfl).1
  · exact absurd rfl (h '+' rfl).2
  · rfl

/-- A text without the letter of a prefix has none. -/
theorem dropPrefix_eq_self {text : List Char} (h : ∀ c ∈ text, c ≠ 'x' ∧ c ≠ 'X') :
    dropPrefix text = text := by
  unfold dropPrefix
  split
  · exact absurd rfl (h 'x' (by simp)).1
  · exact absurd rfl (h 'X' (by simp)).2
  · exact absurd rfl (h 'x' (by simp)).1
  · exact absurd rfl (h 'X' (by simp)).2
  · rfl

/-- A printed number is read back. -/
theorem ofText_toHex {width n : ℕ} (hwidth : width ≠ 0) (hn : n < 16 ^ width) :
    ofText 16 (toHex width n) = some (n : ℤ) := by
  have hspecial {c : Char} (hc : c ∈ toHex width n) := ne_of_mem_toHex hc
  have hsign : splitSign (toHex width n) = (false, toHex width n) := by
    apply splitSign_eq_self
    intro c hc
    have h := (hspecial (List.mem_of_mem_head? hc)).2
    simp only [List.mem_cons, not_or] at h
    exact ⟨h.2.1, h.2.2.1⟩
  have hletter : dropPrefix (toHex width n) = toHex width n := by
    apply dropPrefix_eq_self
    intro c hc
    have h := (hspecial hc).2
    simp only [List.mem_cons, not_or] at h
    exact ⟨h.2.2.2.2.1, h.2.2.2.2.2.1⟩
  have hdigits := digitsFrom_toHex width n 0 true []
  rw [List.append_nil, Nat.zero_mul, Nat.zero_add, Nat.mod_eq_of_lt hn, if_neg hwidth] at hdigits
  rw [ofText, strip_eq_self fun c hc => (hspecial hc).1, hsign]
  simp [hletter, hdigits, digitsFrom]

/-- A number printed behind `0x` is read back. -/
theorem ofText_prefix_toHex {width n : ℕ} (hwidth : width ≠ 0) (hn : n < 16 ^ width) :
    ofText 16 ('0' :: 'x' :: toHex width n) = some (n : ℤ) := by
  have hblank : ∀ c ∈ '0' :: 'x' :: toHex width n, isBlank c = false := by
    simp only [List.forall_mem_cons]
    exact ⟨by decide, by decide, fun c hc => (ne_of_mem_toHex hc).1⟩
  have hletter : dropPrefix ('0' :: 'x' :: toHex width n) = toHex width n := by
    cases htext : toHex width n with
    | nil => rfl
    | cons c rest =>
      have hc : c ∈ toHex width n := by rw [htext]; simp
      have h := (ne_of_mem_toHex hc).2
      simp only [List.mem_cons, not_or] at h
      unfold dropPrefix
      split
      · rename_i heq
        exact absurd (List.cons.inj (List.cons.inj (List.cons.inj heq).2).2).1 h.2.2.2.1
      · rename_i heq
        exact absurd (List.cons.inj (List.cons.inj heq).2).1 (by decide)
      · rename_i heq
        exact (List.cons.inj (List.cons.inj heq).2).2.symm
      · rename_i heq
        exact absurd (List.cons.inj (List.cons.inj heq).2).1 (by decide)
      · rename_i hno _
        exact absurd rfl (hno (c :: rest))
  have hdigits := digitsFrom_toHex width n 0 true []
  rw [List.append_nil, Nat.zero_mul, Nat.zero_add, Nat.mod_eq_of_lt hn, if_neg hwidth] at hdigits
  rw [ofText, strip_eq_self hblank, splitSign_eq_self (by rintro c ⟨⟩; decide)]
  simp [hletter, hdigits, digitsFrom]

/-- What the decimal digits have in common: they are no blanks, signs or underscores. -/
theorem special_of_isDigit {c : Char} (hc : c.isDigit = true) :
    isBlank c = false ∧ c ∉ [' ', '-', '+', '_', '\n'] := by
  have hspecial : ∀ n ∈ [0x09, 0x0a, 0x0b, 0x0c, 0x0d, 0x20, 0x85, 0xa0, 0x1680, 0x2000, 0x2001,
      0x2002, 0x2003, 0x2004, 0x2005, 0x2006, 0x2007, 0x2008, 0x2009, 0x200a, 0x2028, 0x2029,
      0x202f, 0x205f, 0x3000], (Char.ofNat n).isDigit = false := by
    decide
  constructor
  · rw [Bool.eq_false_iff]
    intro hblank
    have hno := hspecial c.toNat (of_decide_eq_true hblank)
    rw [Char.ofNat_toNat, hc] at hno
    exact absurd hno (by decide)
  · simp only [List.mem_cons, List.not_mem_nil, or_false]
    rintro (rfl | rfl | rfl | rfl | rfl) <;> exact absurd hc (by decide)

/-- A decimal number is read back. Induction on the number of its digits. -/
theorem digitsFrom_toDigits (n : ℕ) (gap : Bool) (rest : List Char) :
    digitsFrom 10 0 gap (Nat.toDigits 10 n ++ rest) = digitsFrom 10 n false rest := by
  have hdigit : ∀ d : Fin 10, digitValue 10 (Nat.digitChar d) = some d.val ∧
      Nat.digitChar d ≠ '_' := by
    decide
  induction n using Nat.strongRecOn generalizing gap rest with
  | _ n ih =>
    rw [Nat.toDigits_eq_if (by decide)]
    by_cases hn : n < 10
    · obtain ⟨hvalue, hunderscore⟩ := hdigit ⟨n, hn⟩
      rw [if_pos hn, List.singleton_append, digitsFrom, if_neg hunderscore, hvalue]
      simp only [Nat.zero_mul, Nat.zero_add]
    · obtain ⟨hvalue, hunderscore⟩ := hdigit ⟨n % 10, Nat.mod_lt _ (by decide)⟩
      have hsum : n / 10 * 10 + n % 10 = n := Nat.div_add_mod' n 10
      rw [if_neg hn, List.append_assoc, ih (n / 10) (by omega), List.singleton_append, digitsFrom,
        if_neg hunderscore, hvalue]
      simp only [hsum]

/-- A decimal number is read back, whatever blanks follow it. -/
theorem ofText_toDigits (n : ℕ) {back : List Char} (hback : ∀ c ∈ back, isBlank c = true) :
    ofText 10 (Nat.toDigits 10 n ++ back) = some (n : ℤ) := by
  have hspecial {c : Char} (hc : c ∈ Nat.toDigits 10 n) :=
    special_of_isDigit (Nat.isDigit_of_mem_toDigits (by decide) (by decide) hc)
  have hstrip : strip isBlank (Nat.toDigits 10 n ++ back) = Nat.toDigits 10 n := by
    apply @strip_append isBlank []
    · simp
    · exact hback
    · exact fun c hc => (hspecial (List.mem_of_mem_head? hc)).1
    · exact fun c hc => (hspecial (List.mem_of_getLast? hc)).1
  have hsign : splitSign (Nat.toDigits 10 n) = (false, Nat.toDigits 10 n) := by
    apply splitSign_eq_self
    intro c hc
    have h := (hspecial (List.mem_of_mem_head? hc)).2
    simp only [List.mem_cons, not_or] at h
    exact ⟨h.2.1, h.2.2.1⟩
  have hdigits := digitsFrom_toDigits n true []
  rw [List.append_nil] at hdigits
  rw [ofText, hstrip, hsign]
  simp [hdigits, digitsFrom]

/-- A number is printed on one line. Induction on the number of its digits. -/
theorem newline_not_mem_toDigits {base : ℕ} (hbase : 1 < base) (hbase' : base ≤ 16) (n : ℕ) :
    '\n' ∉ Nat.toDigits base n := by
  have hdigit {d : ℕ} (hd : d < base) : '\n' ∉ [Nat.digitChar d] := by
    obtain ⟨-, -, hspecial⟩ := digitChar_spec ⟨d, by omega⟩
    rw [List.mem_singleton]
    intro hnewline
    exact hspecial (hnewline ▸ by decide)
  induction n using Nat.strongRecOn with
  | _ n ih =>
    rw [Nat.toDigits_eq_if hbase]
    by_cases hn : n < base
    · rw [if_pos hn]
      exact hdigit hn
    · have hlt : n / base < n := Nat.div_lt_self (by omega) hbase
      rw [if_neg hn, List.mem_append, not_or]
      exact ⟨ih _ hlt, hdigit (Nat.mod_lt _ (by omega))⟩

end NumberText
