import DwarfExpr.Lib.InputStream

/-!
# Parts laid out one behind the other

A file is often written as parts one behind the other, with references from one part to the
offset of another. What stands at an offset is a matter of the lengths of the parts in front
of it only, so offsets can be computed before the parts that refer to them are written.
-/

namespace Layout

open InputStream (slice)

/-- The file has these bytes at an offset. -/
def Holds (image : List UInt8) (off : ℕ) (bytes : List UInt8) : Prop :=
  ∃ before after, image = before ++ (bytes ++ after) ∧ before.length = off

variable {image bytes first rest : List UInt8} {off n : ℕ}

/-- They end inside the file. -/
theorem Holds.le (h : Holds image off bytes) : off + bytes.length ≤ image.length := by
  obtain ⟨before, after, rfl, rfl⟩ := h
  simp only [List.length_append]
  omega

/-- They are a slice of the file. -/
theorem Holds.slice_eq (h : Holds image off bytes) (hn : bytes.length = n) :
    slice image off n = bytes := by
  obtain ⟨before, after, rfl, rfl⟩ := h
  rw [slice, List.drop_left, List.take_left' hn]

/-- A slice of them is a slice of the file. -/
theorem Holds.slice_inside (h : Holds image off bytes) {k : ℕ} (hk : k + n ≤ bytes.length) :
    slice image (off + k) n = slice bytes k n := by
  have hbytes := h.slice_eq rfl
  rw [← InputStream.slice_slice hk, hbytes]

/-- The whole file stands at its beginning. -/
theorem holds_zero (image : List UInt8) : Holds image 0 image := ⟨[], [], by simp, rfl⟩

/-- The first of two parts stands where both do. -/
theorem Holds.left (h : Holds image off (first ++ rest)) : Holds image off first := by
  obtain ⟨before, after, rfl, rfl⟩ := h
  exact ⟨before, rest ++ after, by simp only [List.append_assoc], rfl⟩

/-- The second of two parts stands behind the first. -/
theorem Holds.right (h : Holds image off (first ++ rest)) (hfirst : first.length = n) :
    Holds image (off + n) rest := by
  obtain ⟨before, after, rfl, rfl⟩ := h
  exact ⟨before ++ first, after, by simp only [List.append_assoc], by
    rw [List.length_append, hfirst]⟩

variable {α : Type*} (part : α → List UInt8)

/-- Where the parts of things from an offset on stand. -/
def placed : ℕ → List α → List (α × ℕ)
  | _, [] => []
  | off, x :: xs => (x, off) :: placed (off + (part x).length) xs

@[simp] theorem map_fst_placed (off : ℕ) (xs : List α) :
    (placed part off xs).map Prod.fst = xs := by
  induction xs generalizing off with
  | nil => rfl
  | cons x xs ih => rw [placed, List.map_cons, ih]

@[simp] theorem length_placed (off : ℕ) (xs : List α) :
    (placed part off xs).length = xs.length := by
  rw [← List.length_map Prod.fst, map_fst_placed]

variable {part}

/-- Parts one behind the other stand at their places. Induction on the parts. -/
theorem Holds.of_mem_placed {xs : List α} (h : Holds image off (xs.flatMap part)) {x : α} {k : ℕ}
    (hx : (x, k) ∈ placed part off xs) : Holds image k (part x) := by
  induction xs generalizing off with
  | nil => cases hx
  | cons y ys ih =>
    rw [List.flatMap_cons] at h
    rcases List.mem_cons.mp hx with heq | hlater
    · obtain ⟨rfl, rfl⟩ := Prod.mk.inj heq
      exact h.left
    · exact ih (h.right rfl) hlater

end Layout
