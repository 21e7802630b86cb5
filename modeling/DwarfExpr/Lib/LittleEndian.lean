import Mathlib.Algebra.BigOperators.Group.Finset.Basic
import Mathlib.Data.Nat.Digits.Defs
import Mathlib.Data.Nat.Notation

/-!
# Little-endian numbers

Fixed-width numbers are written lowest byte first. Decoding is the base-256
reading of the bytes, so its general facts are those of `Nat.ofDigits`.
-/

namespace LittleEndian

/-- The number written by a list of bytes, lowest byte first. -/
def decode (bytes : List UInt8) : ℕ := Nat.ofDigits 256 (bytes.map UInt8.toNat)

/-- The lowest `width` bytes of a number, lowest byte first. -/
def encode : ℕ → ℕ → List UInt8
  | 0, _ => []
  | width + 1, value => UInt8.ofNat value :: encode width (value / 256)

/-- An encoding has exactly the requested width. -/
@[simp] theorem length_encode (width value : ℕ) : (encode width value).length = width := by
  induction width generalizing value with
  | zero => rfl
  | succ width ih => simp [encode, ih]

/-- The lowest bytes of an encoding are the encoding with their number for width. -/
theorem take_encode {n width : ℕ} (hn : n ≤ width) (value : ℕ) :
    (encode width value).take n = encode n value := by
  induction n generalizing width value with
  | zero => rfl
  | succ n ih =>
    obtain ⟨width, rfl⟩ : ∃ w, width = w + 1 := ⟨width - 1, by omega⟩
    rw [encode, encode, List.take_succ_cons, ih (by omega)]

@[simp] theorem decode_nil : decode [] = 0 := rfl

/-- The first byte is the lowest digit. -/
theorem decode_cons (b : UInt8) (bytes : List UInt8) :
    decode (b :: bytes) = b.toNat + 256 * decode bytes := by
  simp [decode, Nat.ofDigits_cons]

/-- A number that fits the width is read back from its encoding. -/
theorem decode_encode {width value : ℕ} (hfits : value < 256 ^ width) :
    decode (encode width value) = value := by
  induction width generalizing value with
  | zero => simp only [encode, decode_nil]; omega
  | succ width ih =>
    have hdiv : value / 256 < 256 ^ width := by
      rw [Nat.div_lt_iff_lt_mul (by decide)]
      rwa [pow_succ] at hfits
    rw [encode, decode_cons, ih hdiv, UInt8.toNat_ofNat']
    omega

/-- Two numbers of one width at the start of a sequence are told apart. -/
theorem encode_append_inj {width a b : ℕ} {r s : List UInt8} (ha : a < 256 ^ width)
    (hb : b < 256 ^ width) (h : encode width a ++ r = encode width b ++ s) : a = b ∧ r = s := by
  obtain ⟨hbytes, hrest⟩ := List.append_inj h (by simp)
  have hvalue := congrArg decode hbytes
  rw [decode_encode ha, decode_encode hb] at hvalue
  exact ⟨hvalue, hrest⟩

/-- A decoded number fits the width of its bytes. -/
theorem decode_lt (bytes : List UInt8) : decode bytes < 256 ^ bytes.length := by
  induction bytes with
  | nil => simp
  | cons b bytes ih =>
    rw [decode_cons, List.length_cons, pow_succ]
    have hb := b.toNat_lt
    omega

/-- The first bytes are the number modulo their range. -/
theorem decode_take (bytes : List UInt8) (n : ℕ) :
    decode (bytes.take n) = decode bytes % 256 ^ n := by
  unfold decode
  rw [Nat.ofDigits_mod_pow_eq_ofDigits_take n (by decide), List.map_take]
  intro digit hdigit
  obtain ⟨b, -, rfl⟩ := List.mem_map.mp hdigit
  exact b.toNat_lt

/-- The number written by the bytes of a sequence is the sum of their weighted values. -/
theorem decode_map_range (f : ℕ → UInt8) (n : ℕ) :
    decode ((List.range n).map f) = ∑ i ∈ Finset.range n, (f i).toNat * 256 ^ i := by
  induction n with
  | zero => rfl
  | succ n ih =>
    have hlast : decode ((List.range (n + 1)).map f) =
        decode ((List.range n).map f) + 256 ^ n * (f n).toNat := by
      unfold decode
      rw [List.range_succ, List.map_append, List.map_append, Nat.ofDigits_append]
      simp
    rw [hlast, ih, Finset.sum_range_succ, Nat.mul_comm]

/-- Only zero bytes are read as zero. -/
theorem decode_eq_zero_iff {bytes : List UInt8} :
    decode bytes = 0 ↔ bytes = List.replicate bytes.length 0 := by
  induction bytes with
  | nil => simp
  | cons b bytes ih =>
    have hb : b.toNat = 0 ↔ b = 0 := UInt8.toNat_inj (b := 0)
    rw [decode_cons, List.length_cons, List.replicate_succ, List.cons.injEq, ← ih, ← hb]
    omega

end LittleEndian
