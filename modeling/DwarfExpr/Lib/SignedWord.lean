import Mathlib.Algebra.Group.Int.Defs
import Mathlib.Data.Int.Notation
import Mathlib.Data.Nat.Notation

/-!
# Signed and unsigned readings of a word

A word of `w` bits has an unsigned and a signed reading. Sums, differences and products
of the two readings agree modulo `2 ^ w`; shifts to the right and remainders agree only
on some operands.
-/

namespace SignedWord

variable {w : ℕ}

/-- A word is read as a number that is not negative exactly if its top bit is clear. -/
theorem toInt_nonneg_iff (x : BitVec w) : 0 ≤ x.toInt ↔ x.msb = false := by
  rw [BitVec.msb_eq_toInt]
  simp

/-- The unsigned reading is the representative of the signed one. -/
theorem toNat_eq_toInt_emod (x : BitVec w) : (x.toNat : ℤ) = x.toInt % 2 ^ w := by
  have hword := congrArg BitVec.toNat (BitVec.ofInt_toInt (x := x))
  have hpos : (0 : ℤ) < 2 ^ w := Int.pow_pos (by decide)
  have hnonneg := Int.emod_nonneg x.toInt (show (2 : ℤ) ^ w ≠ 0 by omega)
  rw [BitVec.toNat_ofInt] at hword
  rw [← hword, Int.natCast_pow]
  exact Int.toNat_of_nonneg hnonneg

/-- The word of an unsigned reading. -/
theorem ofInt_toNat (x : BitVec w) : BitVec.ofInt w (x.toNat : ℤ) = x := by
  rw [BitVec.ofInt_natCast, BitVec.ofNat_toNat, BitVec.setWidth_eq]

/-- The arithmetic and the logical shift to the right agree exactly on words whose top bit
is clear and for a count of zero. -/
theorem sshiftRight_eq_ushiftRight_iff (x : BitVec w) (n : ℕ) :
    x.sshiftRight n = x >>> n ↔ 0 ≤ x.toInt ∨ n = 0 := by
  rw [toInt_nonneg_iff]
  constructor
  · intro hsame
    by_cases hzero : n = 0
    · exact Or.inr hzero
    · left
      have hmsb := congrArg BitVec.msb hsame
      rwa [BitVec.msb_sshiftRight, BitVec.msb_ushiftRight, decide_eq_true (by omega),
        Bool.not_true, Bool.false_and] at hmsb
  · rintro (hmsb | rfl)
    · exact BitVec.sshiftRight_eq_of_msb_false hmsb
    · simp

/-- The representative of a number from `[-m, m)` modulo `2 * m`. -/
theorem emod_two_mul {m a : ℤ} (ha : -m ≤ a ∧ a < m) :
    a % (2 * m) = if 0 ≤ a then a else a + 2 * m := by
  obtain ⟨hlow, hhigh⟩ := ha
  by_cases hsign : 0 ≤ a
  · rw [if_pos hsign, Int.emod_eq_of_lt hsign (by omega)]
  · rw [if_neg hsign, ← Int.add_emod_right, Int.emod_eq_of_lt (by omega) (by omega)]

/-- The truncated remainder by a number that is not negative keeps the sign of the dividend. -/
theorem tmod_of_neg {a b : ℤ} (ha : a < 0) : a.tmod b = -(-a % b) := by
  rw [← Int.tmod_eq_emod_of_nonneg (by omega), Int.neg_tmod, Int.neg_neg]

/-- The representatives of `a` and `b` modulo `2 * m` have the truncated remainder of `a`
and `b` as their remainder, modulo `2 * m`. -/
def RemainderAgrees (m a b : ℤ) : Prop :=
  a.tmod b % (2 * m) = a % (2 * m) % (b % (2 * m))

/-- The remainders of two numbers that are not negative agree. -/
theorem remainderAgrees_of_nonneg {m a b : ℤ} (ha : -m ≤ a ∧ a < m)
    (hb : -m ≤ b ∧ b < m) (hasign : 0 ≤ a) (hbsign : 0 < b) :
    RemainderAgrees m a b := by
  have hlow := Int.emod_nonneg a (show b ≠ 0 by omega)
  have hhigh := Int.emod_lt_of_pos a hbsign
  rw [RemainderAgrees, emod_two_mul ha, emod_two_mul hb, if_pos hasign,
    if_pos (Int.le_of_lt hbsign), Int.tmod_eq_emod_of_nonneg hasign,
    Int.emod_eq_of_lt hlow (by omega)]

/-- A negative divisor stands for one above every dividend. -/
theorem remainderAgrees_iff_of_neg_right {m a b : ℤ} (ha : -m ≤ a ∧ a < m)
    (hb : -m ≤ b ∧ b < m) (hasign : 0 ≤ a) (hbsign : b < 0) :
    RemainderAgrees m a b ↔ a < -b := by
  have hlow := Int.emod_nonneg a (show -b ≠ 0 by omega)
  have hhigh := Int.emod_lt_of_pos a (show 0 < -b by omega)
  rw [RemainderAgrees, emod_two_mul ha, emod_two_mul hb, if_pos hasign, if_neg (by omega),
    ← Int.tmod_neg, Int.tmod_eq_emod_of_nonneg hasign, Int.emod_eq_of_lt hlow (by omega),
    Int.emod_eq_of_lt (b := b + 2 * m) hasign (by omega)]
  constructor
  · intro hsame
    omega
  · exact Int.emod_eq_of_lt hasign

/-- A negative dividend and a positive divisor: both remainders have to be zero. -/
theorem remainderAgrees_iff_of_neg_left {m a b : ℤ} (ha : -m ≤ a ∧ a < m)
    (hb : -m ≤ b ∧ b < m) (hasign : a < 0) (hbsign : 0 < b) :
    RemainderAgrees m a b ↔ b ∣ a ∧ b ∣ 2 * m := by
  have hlow := Int.emod_nonneg (-a) (show b ≠ 0 by omega)
  have hhigh := Int.emod_lt_of_pos (-a) hbsign
  have hlow' := Int.emod_nonneg (a + 2 * m) (show b ≠ 0 by omega)
  have hhigh' := Int.emod_lt_of_pos (a + 2 * m) hbsign
  rw [RemainderAgrees, tmod_of_neg hasign, emod_two_mul ha, emod_two_mul hb,
    if_neg (by omega), if_pos (Int.le_of_lt hbsign), emod_two_mul (by omega)]
  by_cases hdvd : b ∣ a
  · have hzero : -a % b = 0 := Int.emod_eq_zero_of_dvd (Int.dvd_neg.mpr hdvd)
    rw [hzero, Int.neg_zero, if_pos (Int.le_refl 0), eq_comm, ← Int.dvd_iff_emod_eq_zero,
      Int.dvd_add_right hdvd]
    exact ⟨fun h => ⟨hdvd, h⟩, fun h => h.2⟩
  · have hpos : -a % b ≠ 0 := by
      intro hzero
      exact hdvd (Int.dvd_neg.mp (Int.dvd_of_emod_eq_zero hzero))
    rw [if_neg (by omega)]
    constructor
    · intro hsame
      omega
    · exact fun h => absurd h.1 hdvd

/-- Two negative numbers: the remainders agree only on equal ones. -/
theorem remainderAgrees_iff_of_neg {m a b : ℤ} (ha : -m ≤ a ∧ a < m)
    (hb : -m ≤ b ∧ b < m) (hasign : a < 0) (hbsign : b < 0) :
    RemainderAgrees m a b ↔ a = b := by
  have htmod : a.tmod b = -(-a % -b) := by
    rw [tmod_of_neg hasign, Int.emod_neg]
  have hlow := Int.emod_nonneg (-a) (show -b ≠ 0 by omega)
  have hhigh := Int.emod_lt_of_pos (-a) (show 0 < -b by omega)
  rw [RemainderAgrees, htmod, emod_two_mul ha, emod_two_mul hb, if_neg (by omega),
    if_neg (by omega)]
  rcases Int.lt_trichotomy a b with hless | rfl | hgreater
  · rw [Int.emod_eq_of_lt (a := a + 2 * m) (by omega) (by omega), emod_two_mul (by omega)]
    by_cases hzero : 0 ≤ -(-a % -b)
    · rw [if_pos hzero]
      omega
    · rw [if_neg hzero]
      omega
  · simp
  · have hrest : (a + 2 * m) % (b + 2 * m) = a - b := by
      rw [← Int.sub_emod_right, Int.emod_eq_of_lt (by omega) (by omega)]
      omega
    rw [Int.emod_eq_of_lt (a := -a) (by omega) (by omega), Int.neg_neg, emod_two_mul ha,
      if_neg (by omega), hrest]
    omega

/-- The operands on which the truncated and the unsigned remainder agree. -/
theorem remainderAgrees_iff {m a b : ℤ} (ha : -m ≤ a ∧ a < m)
    (hb : -m ≤ b ∧ b < m) (hne : b ≠ 0) :
    RemainderAgrees m a b ↔ (0 ≤ a ∧ (0 < b ∨ a < -b)) ∨
      (a < 0 ∧ ((0 < b ∧ b ∣ a ∧ b ∣ 2 * m) ∨ a = b)) := by
  rcases Int.lt_or_le a 0 with hasign | hasign
  · rcases Int.lt_or_le b 0 with hbsign | hbsign
    · rw [remainderAgrees_iff_of_neg ha hb hasign hbsign]
      omega
    · rw [remainderAgrees_iff_of_neg_left ha hb hasign (by omega)]
      constructor
      · intro h
        exact Or.inr ⟨hasign, Or.inl ⟨by omega, h⟩⟩
      · rintro (⟨hpos, -⟩ | ⟨-, ⟨-, h⟩ | rfl⟩)
        · omega
        · exact h
        · omega
  · rcases Int.lt_or_le b 0 with hbsign | hbsign
    · rw [remainderAgrees_iff_of_neg_right ha hb hasign hbsign]
      omega
    · have hagrees := remainderAgrees_of_nonneg ha hb hasign (by omega)
      simp only [hagrees, true_iff]
      exact Or.inl ⟨hasign, Or.inl (by omega)⟩

end SignedWord
