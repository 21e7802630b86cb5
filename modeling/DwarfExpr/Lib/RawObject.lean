import Mathlib.Data.List.Basic
import DwarfExpr.Lib.LittleEndian

/-!
# Objects of plain data as bytes

A C structure of fixed layout, seen as the bytes of its memory on a little-endian
machine: the form in which such structures are read from files. The size is part of
the type.
-/

/-- The memory of an object with the given number of bytes. -/
structure RawObject (size : ℕ) where
  bytes : List UInt8
  length_eq : bytes.length = size
  deriving DecidableEq, Repr

namespace RawObject

variable {size : ℕ}

/-- Two objects with the same bytes are equal. -/
@[ext] theorem ext {a b : RawObject size} (h : a.bytes = b.bytes) : a = b := by
  cases a
  cases b
  simp only at h
  subst h
  rfl

/-- The zero-initialized object. -/
def zero (size : ℕ) : RawObject size := ⟨List.replicate size 0, List.length_replicate⟩

/-- Store bytes from an offset on. Bytes that would not fit are not stored at all. -/
def store (obj : RawObject size) (off : ℕ) (data : List UInt8) : RawObject size :=
  if h : off + data.length ≤ size then
    ⟨obj.bytes.take off ++ data ++ obj.bytes.drop (off + data.length), by
      have := obj.length_eq
      simp only [List.length_append, List.length_take, List.length_drop]
      omega⟩
  else obj

/-- The bytes of the field at an offset. -/
def part (obj : RawObject size) (off width : ℕ) : List UInt8 := (obj.bytes.drop off).take width

/-- The unsigned field at an offset. -/
def word (obj : RawObject size) (off width : ℕ) : ℕ := LittleEndian.decode (obj.part off width)

/-- A field has at most its width in bytes. -/
theorem length_part_le (obj : RawObject size) (off width : ℕ) :
    (obj.part off width).length ≤ width := by
  simp only [part, List.length_take]
  omega

/-- A field inside the object has its full width. -/
theorem length_part {obj : RawObject size} {off width : ℕ} (h : off + width ≤ size) :
    (obj.part off width).length = width := by
  have hlength := obj.length_eq
  simp only [part, List.length_take, List.length_drop]
  omega

/-- A field is bounded by its width. -/
theorem word_lt (obj : RawObject size) (off width : ℕ) : obj.word off width < 256 ^ width := by
  have hlt := LittleEndian.decode_lt (obj.part off width)
  have hle := Nat.pow_le_pow_right (show 0 < 256 by decide) (obj.length_part_le off width)
  exact Nat.lt_of_lt_of_le hlt hle

/-- Bytes stored at the beginning are the first bytes of the object. -/
theorem take_store_zero {obj : RawObject size} {data : List UInt8} (h : data.length ≤ size) :
    (obj.store 0 data).bytes.take data.length = data := by
  have hfits : 0 + data.length ≤ size := by omega
  simp only [store, dif_pos hfits, List.take_zero, List.nil_append, List.take_left]

/-- Storing a whole object replaces all its bytes. -/
theorem store_zero_bytes {obj : RawObject size} {data : List UInt8} (h : data.length = size) :
    (obj.store 0 data).bytes = data := by
  have hfits : 0 + data.length ≤ size := by omega
  have hrest : obj.bytes.drop (0 + data.length) = [] :=
    List.drop_eq_nil_of_le (by rw [obj.length_eq]; omega)
  simp only [store, dif_pos hfits, hrest, List.take_zero, List.nil_append, List.append_nil]

/-- A field among stored bytes is read from these bytes. -/
theorem part_store_inside {obj : RawObject size} {data : List UInt8} {off k width : ℕ}
    (hfits : off + data.length ≤ size) (hk : k + width ≤ data.length) :
    (obj.store off data).part (off + k) width = (data.drop k).take width := by
  have hoff : (obj.bytes.take off).length = off := by
    have hlength := obj.length_eq
    rw [List.length_take]
    omega
  have hdrop : ((obj.bytes.take off ++ data) ++ obj.bytes.drop (off + data.length)).drop (off + k) =
      data.drop k ++ obj.bytes.drop (off + data.length) := by
    rw [List.append_assoc, ← List.drop_drop, List.drop_left' hoff,
      List.drop_append_of_le_length (by omega)]
  have hwidth : width ≤ (data.drop k).length := by
    rw [List.length_drop]
    omega
  simp only [part, store, dif_pos hfits]
  rw [hdrop, List.take_append_of_le_length hwidth]

/-- The stored bytes are read back. -/
theorem part_store_self {obj : RawObject size} {data : List UInt8} {off width : ℕ}
    (hfits : off + data.length ≤ size) (hwidth : data.length = width) :
    (obj.store off data).part off width = data := by
  have hpart := @part_store_inside size obj data off 0 width hfits (by omega)
  rw [Nat.add_zero, List.drop_zero, ← hwidth, List.take_length] at hpart
  rw [← hwidth, hpart]

/-- A field in front of stored bytes is not changed by them. -/
theorem part_store_before {obj : RawObject size} {data : List UInt8} {off k width : ℕ}
    (hk : k + width ≤ off) : (obj.store off data).part k width = obj.part k width := by
  by_cases hfits : off + data.length ≤ size
  · have hlength := obj.length_eq
    have hwidth : width ≤ ((obj.bytes.take off).drop k).length := by
      simp only [List.length_drop, List.length_take]
      omega
    simp only [part, store, dif_pos hfits]
    rw [List.append_assoc, List.drop_append_of_le_length (by rw [List.length_take]; omega),
      List.take_append_of_le_length hwidth, List.drop_take, List.take_take,
      Nat.min_eq_left (by omega)]
  · rw [store, dif_neg hfits]

/-- A field behind stored bytes is not changed by them. -/
theorem part_store_behind {obj : RawObject size} {data : List UInt8} {off k width : ℕ}
    (hk : off + data.length ≤ k) : (obj.store off data).part k width = obj.part k width := by
  by_cases hfits : off + data.length ≤ size
  · have hlength := obj.length_eq
    have hfront : (obj.bytes.take off ++ data).length = off + data.length := by
      rw [List.length_append, List.length_take]
      omega
    obtain ⟨j, rfl⟩ : ∃ j, k = off + data.length + j := ⟨k - (off + data.length), by omega⟩
    simp only [part, store, dif_pos hfits]
    rw [← List.drop_drop, List.drop_left' hfront, List.drop_drop]
  · rw [store, dif_neg hfits]

/-- A number stored in the whole object is read back. -/
theorem word_store_encode (obj : RawObject size) {value : ℕ} (h : value < 256 ^ size) :
    (obj.store 0 (LittleEndian.encode size value)).word 0 size = value := by
  have hbytes := @store_zero_bytes size obj (LittleEndian.encode size value)
    (LittleEndian.length_encode size value)
  have hall : (LittleEndian.encode size value).take size = LittleEndian.encode size value :=
    List.take_of_length_le (LittleEndian.length_encode size value).le
  rw [word, part, hbytes, List.drop_zero, hall, LittleEndian.decode_encode h]

/-- A number among the bytes of an object is the field at its place. -/
theorem word_of_bytes {obj : RawObject size} {before after : List UInt8} {off width value : ℕ}
    (hbytes : obj.bytes = before ++ (LittleEndian.encode width value ++ after))
    (hoff : before.length = off) (h : value < 256 ^ width) : obj.word off width = value := by
  have htake : (LittleEndian.encode width value ++ after).take width =
      LittleEndian.encode width value := List.take_left' (LittleEndian.length_encode width value)
  rw [word, part, hbytes, List.drop_left' hoff, htake, LittleEndian.decode_encode h]

/-- Storing at the beginning changes nothing exactly when the object begins with these
bytes already. -/
theorem store_zero_eq_self_iff {obj : RawObject size} {data : List UInt8}
    (h : data.length ≤ size) : obj.store 0 data = obj ↔ data <+: obj.bytes := by
  constructor
  · intro hsame
    have htake := @take_store_zero size obj data h
    rw [hsame] at htake
    rw [← htake]
    exact List.take_prefix _ _
  · rintro ⟨rest, hrest⟩
    have hfits : 0 + data.length ≤ size := by omega
    apply RawObject.ext
    simp only [store, dif_pos hfits, List.take_zero, List.nil_append]
    rw [Nat.zero_add, ← hrest, List.drop_left]

end RawObject
