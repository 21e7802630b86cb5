import Mathlib.Data.Int.Notation
import Mathlib.Data.List.Basic
import Mathlib.Data.Nat.Notation

/-!
# Input streams with sticky error bits

The documented behaviour of a seekable `std::istream` over a file of fixed
contents (C++14). A read that comes up short sets `eofbit` and `failbit`; a read
on a stream that is not good extracts nothing and sets `failbit`; `seekg` clears
only `eofbit`, does nothing while `failbit` is set, and sets `failbit` when the
offset is negative. Seeking past the end succeeds.
-/

/-- A stream over the bytes of a file: its position and its two error bits. -/
structure InputStream where
  image : List UInt8
  pos : ℕ
  eofbit : Bool
  failbit : Bool
  deriving DecidableEq, Repr

namespace InputStream

/-- A freshly opened stream. -/
def ofImage (image : List UInt8) : InputStream := ⟨image, 0, false, false⟩

/-- A stream without error bits at a position. -/
def openAt (image : List UInt8) (pos : ℕ) : InputStream := ⟨image, pos, false, false⟩

/-- `good()`: no error bit is set. -/
def good (s : InputStream) : Bool := !s.eofbit && !s.failbit

/-- `read(buf, n)`: the bytes stored into the buffer (their number is `gcount()`)
and the stream afterwards. -/
def read (s : InputStream) (n : ℕ) : List UInt8 × InputStream :=
  if s.good then
    let got := (s.image.drop s.pos).take n
    if got.length = n then (got, { s with pos := s.pos + n })
    else (got, { s with pos := s.pos + got.length, eofbit := true, failbit := true })
  else ([], { s with failbit := true })

/-- `seekg(off, beg)`. -/
def seekg (s : InputStream) (off : ℤ) : InputStream :=
  if s.failbit then { s with eofbit := false }
  else if off < 0 then { s with eofbit := false, failbit := true }
  else { s with eofbit := false, pos := off.toNat }

/-- `seekg(0, end)`. -/
def seekgEnd (s : InputStream) : InputStream :=
  if s.failbit then { s with eofbit := false }
  else { s with eofbit := false, pos := s.image.length }

/-- `tellg()`: the position, or -1 on a failed stream. -/
def tellg (s : InputStream) : ℤ := if s.failbit then -1 else s.pos

/-- The `n` bytes of the file at an offset, as far as the file has them. -/
def slice (image : List UInt8) (off n : ℕ) : List UInt8 := (image.drop off).take n

/-- A slice is never longer than requested. -/
theorem length_slice_le (image : List UInt8) (off n : ℕ) : (slice image off n).length ≤ n :=
  List.length_take_le n _

/-- A slice that lies inside the file has the requested length. -/
theorem length_slice {image : List UInt8} {off n : ℕ} (h : off + n ≤ image.length) :
    (slice image off n).length = n := by
  simp only [slice, List.length_take, List.length_drop]
  omega

/-- A slice has its full length only when it is empty or lies inside the file. -/
theorem length_slice_eq_iff {image : List UInt8} {off n : ℕ} :
    (slice image off n).length = n ↔ n = 0 ∨ off + n ≤ image.length := by
  simp only [slice, List.length_take, List.length_drop]
  omega

/-- A slice of a slice is a slice of the file. -/
theorem slice_slice {image : List UInt8} {off n k width : ℕ} (hk : k + width ≤ n) :
    slice (slice image off n) k width = slice image (off + k) width := by
  rw [slice, slice, slice, List.drop_take, List.drop_drop, List.take_take,
    Nat.min_eq_left (by omega)]

/-- The slice of a part of the file is that part. -/
theorem slice_append (before part after : List UInt8) :
    slice (before ++ part ++ after) before.length part.length = part := by
  rw [slice, List.append_assoc, List.drop_left, List.take_left]

/-- The length of a run of parts of one width. -/
theorem length_flatten_of_width {width : ℕ} {parts : List (List UInt8)}
    (hwidth : ∀ part ∈ parts, part.length = width) :
    parts.flatten.length = parts.length * width := by
  induction parts with
  | nil => simp
  | cons part rest ih =>
    have hrest := ih fun p hp => hwidth p (by simp [hp])
    have hpart := hwidth part (by simp)
    simp only [List.flatten_cons, List.length_append, List.length_cons, Nat.add_mul, Nat.one_mul]
    omega

/-- In a run of parts of one width, each part is the slice at its multiple of the width.
Induction on the parts. -/
theorem slice_flatten {width : ℕ} {before after : List UInt8} {parts : List (List UInt8)}
    (hwidth : ∀ part ∈ parts, part.length = width) {i : ℕ} (hi : i < parts.length) :
    slice (before ++ parts.flatten ++ after) (before.length + i * width) width = parts[i] := by
  induction parts generalizing before i with
  | nil => exact absurd hi (Nat.not_lt_zero i)
  | cons part rest ih =>
    have hpart : part.length = width := hwidth part (by simp)
    cases i with
    | zero =>
      have hslice := slice_append before part (rest.flatten ++ after)
      rw [hpart] at hslice
      simpa using hslice
    | succ i =>
      have hrest := @ih (before ++ part) (fun p hp => hwidth p (by simp [hp])) i (by simpa using hi)
      have hstart : (before ++ part).length + i * width = before.length + (i + 1) * width := by
        rw [List.length_append, hpart, Nat.add_mul, Nat.one_mul]
        omega
      rw [hstart] at hrest
      simpa using hrest

/-- On a good stream a read delivers the slice at the current position. -/
theorem read_fst_of_good {s : InputStream} (hgood : s.good = true) (n : ℕ) :
    (s.read n).1 = slice s.image s.pos n := by
  simp only [read, hgood, if_true, slice]
  split <;> rfl

/-- A complete read on a good stream only advances the position. -/
theorem read_snd_of_length {s : InputStream} {n : ℕ} (hgood : s.good = true)
    (hlen : (s.read n).1.length = n) : (s.read n).2 = { s with pos := s.pos + n } := by
  rw [read_fst_of_good hgood] at hlen
  simp only [read, hgood, if_true, slice] at hlen ⊢
  rw [if_pos hlen]

/-- A short read on a good stream sets the failure bit. -/
theorem read_failbit_of_short {s : InputStream} {n : ℕ} (hgood : s.good = true)
    (hlen : (s.read n).1.length ≠ n) : (s.read n).2.failbit = true := by
  rw [read_fst_of_good hgood] at hlen
  simp only [read, hgood, if_true, slice] at hlen ⊢
  rw [if_neg hlen]

/-- A stream that is not good stays failed after a read. -/
theorem read_of_not_good {s : InputStream} (hbad : s.good = false) (n : ℕ) :
    s.read n = ([], { s with failbit := true }) := by
  simp [read, hbad]

/-- A read delivers no more than the file has. -/
theorem length_read_le (s : InputStream) (n : ℕ) : (s.read n).1.length ≤ s.image.length := by
  by_cases hgood : s.good = true
  · rw [read_fst_of_good hgood, slice, List.length_take, List.length_drop]
    omega
  · rw [read_of_not_good (by simpa using hgood)]
    exact Nat.zero_le _

/-- The failure bit is sticky under reading. -/
theorem read_failbit_of_failbit {s : InputStream} (hfail : s.failbit = true) (n : ℕ) :
    (s.read n).2.failbit = true := by
  rw [read_of_not_good (by simp [good, hfail])]

/-- The failure bit is sticky under seeking: nothing in this interface clears it. -/
theorem seekg_failbit_of_failbit {s : InputStream} (hfail : s.failbit = true) (off : ℤ) :
    (s.seekg off).failbit = true := by
  simp [seekg, hfail]

/-- Reading does not change the file. -/
@[simp] theorem read_image (s : InputStream) (n : ℕ) : (s.read n).2.image = s.image := by
  unfold read
  split
  · dsimp only
    split <;> rfl
  · rfl

/-- Seeking does not change the file. -/
@[simp] theorem seekg_image (s : InputStream) (off : ℤ) : (s.seekg off).image = s.image := by
  unfold seekg
  split
  · rfl
  · split <;> rfl

/-- A seek to a nonnegative offset on an unfailed stream leaves it good there. -/
theorem seekg_natCast {s : InputStream} (hs : s.failbit = false) (off : ℕ) :
    s.seekg off = openAt s.image off := by
  obtain ⟨image, pos, eof, fail⟩ := s
  simp only at hs
  subst hs
  simp [seekg, openAt]

/-- What a stream keeps however it is used: its file, and its failure bit once set. -/
structure Later (s t : InputStream) : Prop where
  image_eq : t.image = s.image
  unfailed : t.failbit = false → s.failbit = false

theorem Later.refl (s : InputStream) : s.Later s := ⟨rfl, id⟩

theorem Later.trans {s t u : InputStream} (hst : s.Later t) (htu : t.Later u) : s.Later u :=
  ⟨htu.image_eq.trans hst.image_eq, fun hu => hst.unfailed (htu.unfailed hu)⟩

/-- Reading is a use of the stream. -/
theorem read_later (s : InputStream) (n : ℕ) : s.Later (s.read n).2 := by
  refine ⟨read_image s n, fun hclear => ?_⟩
  by_contra hfail
  rw [read_failbit_of_failbit (by simpa using hfail)] at hclear
  cases hclear

/-- Seeking is a use of the stream. -/
theorem seekg_later (s : InputStream) (off : ℤ) : s.Later (s.seekg off) := by
  refine ⟨seekg_image s off, fun hclear => ?_⟩
  by_contra hfail
  rw [seekg_failbit_of_failbit (by simpa using hfail)] at hclear
  cases hclear

/-- The stream is good and exactly these bytes are still ahead of it. -/
def Ahead (s : InputStream) (bytes : List UInt8) : Prop :=
  s.good = true ∧ s.image.drop s.pos = bytes

/-- Reading the length of the first of two parts delivers that part and leaves
the other ahead. -/
theorem Ahead.read {s : InputStream} {first rest : List UInt8}
    (h : s.Ahead (first ++ rest)) :
    (s.read first.length).1 = first ∧ (s.read first.length).2.Ahead rest := by
  obtain ⟨hgood, hdrop⟩ := h
  have hfst : (s.read first.length).1 = first := by
    rw [read_fst_of_good hgood, slice, hdrop, List.take_left]
  refine ⟨hfst, ?_⟩
  rw [read_snd_of_length hgood (by rw [hfst])]
  refine ⟨hgood, ?_⟩
  show s.image.drop (s.pos + first.length) = rest
  rw [← List.drop_drop, hdrop, List.drop_left]

/-- The same for a length that is known to be that of the first part. -/
theorem Ahead.read_eq {s : InputStream} {first rest : List UInt8} {n : ℕ}
    (h : s.Ahead (first ++ rest)) (hn : first.length = n) :
    ∃ s', s.read n = (first, s') ∧ s'.Ahead rest := by
  subst hn
  obtain ⟨hfirst, hrest⟩ := h.read
  exact ⟨(s.read first.length).2, Prod.ext hfirst rfl, hrest⟩

end InputStream
