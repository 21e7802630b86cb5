import Mathlib.Data.Nat.Notation
import Mathlib.Algebra.Group.Nat.Defs

/-!
# Range checks in wrapping arithmetic

A request for some bytes at an address against a memory range, in exact arithmetic and
in words of a fixed width, where both ends wrap around. The two differ in two ways: a
range that reaches the end of the address space looks empty, and a request that reaches
it looks short.
-/

namespace AddressRange

variable {w : ℕ}

/-- The range has all bytes of the request. -/
def Covers (start len addr size : ℕ) : Prop :=
  start ≤ addr ∧ addr < start + len ∧ addr + size ≤ start + len

instance (start len addr size : ℕ) : Decidable (Covers start len addr size) :=
  inferInstanceAs (Decidable (_ ∧ _ ∧ _))

/-- The same comparison with sums of words. -/
def wrapCheck (start len addr size : BitVec w) : Bool :=
  start ≤ addr && addr < start + len && addr + size ≤ start + len

/-- A request that starts in the range and reaches the end of the address space. -/
def Overruns (w start len addr size : ℕ) : Prop :=
  start ≤ addr ∧ addr < start + len ∧ 2 ^ w ≤ addr + size

/-- A sum of words is exact or short by one turn. -/
theorem toNat_add_cases (x y : BitVec w) :
    (x + y).toNat = x.toNat + y.toNat ∧ x.toNat + y.toNat < 2 ^ w ∨
      (x + y).toNat + 2 ^ w = x.toNat + y.toNat := by
  have hx := x.isLt
  have hy := y.isLt
  rw [BitVec.toNat_add]
  by_cases hwrap : x.toNat + y.toNat < 2 ^ w
  · exact Or.inl ⟨Nat.mod_eq_of_lt hwrap, hwrap⟩
  · right
    rw [Nat.mod_eq_sub_mod (by omega), Nat.mod_eq_of_lt (by omega)]
    omega

/-- The check on words passes for ranges below the end of the address space, if the
request is covered or overruns. -/
theorem wrapCheck_iff (start len addr size : BitVec w) :
    wrapCheck start len addr size = true ↔ start.toNat + len.toNat < 2 ^ w ∧
      (Covers start.toNat len.toNat addr.toNat size.toNat ∨
        Overruns w start.toNat len.toNat addr.toNat size.toNat) := by
  have hstart := start.isLt
  have hlen := len.isLt
  have haddr := addr.isLt
  have hsize := size.isLt
  have hend := toNat_add_cases start len
  have hlast := toNat_add_cases addr size
  simp only [wrapCheck, Covers, Overruns, Bool.and_eq_true, decide_eq_true_eq, BitVec.le_def,
    BitVec.lt_def]
  omega

/-- The check on words is right about a request exactly if the range ends within the
address space and the request does not overrun, or the range wraps and does not cover the
request. -/
theorem wrapCheck_exact_iff (start len addr size : BitVec w) :
    (wrapCheck start len addr size = true ↔
        Covers start.toNat len.toNat addr.toNat size.toNat) ↔
      (start.toNat + len.toNat < 2 ^ w →
          ¬Overruns w start.toNat len.toNat addr.toNat size.toNat) ∧
        (2 ^ w ≤ start.toNat + len.toNat →
          ¬Covers start.toNat len.toNat addr.toNat size.toNat) := by
  rw [wrapCheck_iff]
  unfold Covers Overruns
  omega

/-- A request that the check lets pass is covered if it ends within the address space. -/
theorem covers_of_wrapCheck {start len addr size : BitVec w}
    (hcheck : wrapCheck start len addr size = true) (hend : addr.toNat + size.toNat < 2 ^ w) :
    Covers start.toNat len.toNat addr.toNat size.toNat := by
  obtain ⟨-, hcovers | ⟨-, -, hoverruns⟩⟩ := (wrapCheck_iff start len addr size).mp hcheck
  · exact hcovers
  · omega

/-- A request that the check lets pass starts in the range, without wrapping around. -/
theorem toNat_sub_of_wrapCheck {start len addr size : BitVec w}
    (hcheck : wrapCheck start len addr size = true) :
    (addr - start).toNat = addr.toNat - start.toNat ∧ addr.toNat - start.toNat < len.toNat := by
  have hstarts : start.toNat ≤ addr.toNat ∧ addr.toNat < start.toNat + len.toNat := by
    obtain ⟨-, ⟨hle, hlt, -⟩ | ⟨hle, hlt, -⟩⟩ := (wrapCheck_iff start len addr size).mp hcheck
    · exact ⟨hle, hlt⟩
    · exact ⟨hle, hlt⟩
  refine ⟨BitVec.toNat_sub_of_le hstarts.1, ?_⟩
  omega

end AddressRange
