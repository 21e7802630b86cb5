import Mathlib.Data.List.TakeWhile

/-!
# The first match in a list

A table that is searched from its first entry on answers with the first entry that
passes a test. Facts about such searches: when two tests find the same entry, when the
entry found has a further property, and which entry stands before the first one that fails.
-/

namespace FirstMatch

variable {α : Type*} {p q : α → Bool} {xs : List α}

/-- An entry that passes the test is the one found, or stands behind it. -/
theorem exists_le_of_getElem? {i : ℕ} {x : α} (hx : xs[i]? = some x) (hp : p x = true) :
    ∃ j ≤ i, ∃ y, xs.findIdx? p = some j ∧ xs[j]? = some y ∧ p y = true := by
  obtain ⟨hi, rfl⟩ := List.getElem?_eq_some_iff.mp hx
  cases hfound : xs.findIdx? p with
  | none =>
    have hall := List.findIdx?_eq_none_iff.mp hfound _ (List.getElem_mem hi)
    rw [hp] at hall
    cases hall
  | some j =>
    obtain ⟨hj, hpj, hbefore⟩ := List.findIdx?_eq_some_iff_getElem.mp hfound
    refine ⟨j, ?_, xs[j], rfl, List.getElem?_eq_getElem hj, hpj⟩
    by_contra hlt
    exact hbefore i (by omega) hp

/-- No entry in front of the one found passes the test. -/
theorem not_of_lt {i j : ℕ} {x : α} (hfound : xs.findIdx? p = some j) (hi : i < j)
    (hx : xs[i]? = some x) : p x = false := by
  obtain ⟨hj, _, hbefore⟩ := List.findIdx?_eq_some_iff_getElem.mp hfound
  obtain ⟨_, rfl⟩ := List.getElem?_eq_some_iff.mp hx
  simpa using hbefore i hi

/-- The entry found passes the test. -/
theorem of_findIdx? {j : ℕ} {x : α} (hfound : xs.findIdx? p = some j) (hx : xs[j]? = some x) :
    p x = true := by
  obtain ⟨hj, hpj, _⟩ := List.findIdx?_eq_some_iff_getElem.mp hfound
  obtain ⟨_, rfl⟩ := List.getElem?_eq_some_iff.mp hx
  exact hpj

/-- The search by index finds the entry that the search by value finds. -/
theorem find?_eq_bind : xs.find? p = (xs.findIdx? p).bind (xs[·]?) := by
  induction xs with
  | nil => rfl
  | cons x xs ih =>
    rw [List.find?_cons, List.findIdx?_cons]
    cases p x with
    | true => rfl
    | false =>
      rw [ih]
      cases xs.findIdx? p <;> rfl

/-- If each entry on which two tests differ stands behind one that passes both, the entry
that one test finds passes the other, which finds it or one in front of it. -/
theorem exists_le_of_findIdx?
    (hbehind : ∀ (i : ℕ) (x : α), xs[i]? = some x → p x ≠ q x →
      ∃ j < i, ∃ y, xs[j]? = some y ∧ p y = true ∧ q y = true)
    {i : ℕ} (hp : xs.findIdx? p = some i) : ∃ j ≤ i, xs.findIdx? q = some j := by
  obtain ⟨hi, hpi, _⟩ := List.findIdx?_eq_some_iff_getElem.mp hp
  have hx := List.getElem?_eq_getElem hi
  have hqi : q xs[i] = true := by
    by_contra hqi
    obtain ⟨j, hji, y, hy, hpy, _⟩ := hbehind i _ hx (by rw [hpi]; simpa using hqi)
    rw [not_of_lt hp hji hy] at hpy
    cases hpy
  obtain ⟨j, hji, _, hj, _⟩ := exists_le_of_getElem? hx hqi
  exact ⟨j, hji, hj⟩

/-- Tests that find an entry at or in front of each other's find the same. -/
theorem findIdx?_eq_of_le (hp : ∀ i, xs.findIdx? p = some i → ∃ j ≤ i, xs.findIdx? q = some j)
    (hq : ∀ i, xs.findIdx? q = some i → ∃ j ≤ i, xs.findIdx? p = some j) :
    xs.findIdx? p = xs.findIdx? q := by
  cases hfirst : xs.findIdx? p with
  | none =>
    cases hsecond : xs.findIdx? q with
    | none => rfl
    | some i =>
      obtain ⟨j, _, hj⟩ := hq i hsecond
      rw [hfirst] at hj
      cases hj
  | some i =>
    obtain ⟨j, hji, hsecond⟩ := hp i hfirst
    obtain ⟨k, hkj, hk⟩ := hq j hsecond
    have hki := Option.some.inj (hfirst.symm.trans hk)
    rw [hsecond]
    congr 1
    omega

/-- Two tests find the same entry exactly when each entry on which they differ stands
behind one that passes both. -/
theorem findIdx?_eq_iff :
    xs.findIdx? p = xs.findIdx? q ↔
      ∀ (i : ℕ) (x : α), xs[i]? = some x → p x ≠ q x →
        ∃ j < i, ∃ y, xs[j]? = some y ∧ p y = true ∧ q y = true := by
  constructor
  · intro hsame i x hx hdiffer
    have hone : p x = true ∨ q x = true := by
      cases hp : p x <;> cases hq : q x <;> simp_all
    obtain ⟨j, hji, y, hpj, hy⟩ : ∃ j ≤ i, ∃ y, xs.findIdx? p = some j ∧ xs[j]? = some y := by
      rcases hone with hp | hq
      · obtain ⟨j, hji, y, hfound, hy, _⟩ := exists_le_of_getElem? hx hp
        exact ⟨j, hji, y, hfound, hy⟩
      · obtain ⟨j, hji, y, hfound, hy, _⟩ := exists_le_of_getElem? hx hq
        exact ⟨j, hji, y, hsame.trans hfound, hy⟩
    have hpy := of_findIdx? hpj hy
    have hqy := of_findIdx? (hsame.symm.trans hpj) hy
    refine ⟨j, ?_, y, hy, hpy, hqy⟩
    by_contra hge
    obtain rfl : j = i := by omega
    obtain rfl := Option.some.inj (hx.symm.trans hy)
    exact hdiffer (hpy.trans hqy.symm)
  · intro hbehind
    apply findIdx?_eq_of_le
    · intro i hp
      exact exists_le_of_findIdx? hbehind hp
    · intro i hq
      refine exists_le_of_findIdx? (fun i x hx hdiffer => ?_) hq
      obtain ⟨j, hji, y, hy, hpy, hqy⟩ := hbehind i x hx hdiffer.symm
      exact ⟨j, hji, y, hy, hqy, hpy⟩

/-- The entry found has a property exactly when each entry that passes the test without
it stands behind one that passes with it. -/
theorem forall_found_iff {r : α → Prop} :
    (∀ (i : ℕ) (x : α), xs.findIdx? p = some i → xs[i]? = some x → r x) ↔
      ∀ (i : ℕ) (x : α), xs[i]? = some x → p x = true → ¬r x →
        ∃ j < i, ∃ y, xs[j]? = some y ∧ p y = true ∧ r y := by
  constructor
  · intro hfound i x hx hp hr
    obtain ⟨j, hji, y, hj, hy, hpy⟩ := exists_le_of_getElem? hx hp
    have hry := hfound j y hj hy
    refine ⟨j, ?_, y, hy, hpy, hry⟩
    by_contra hge
    obtain rfl : j = i := by omega
    obtain rfl := Option.some.inj (hx.symm.trans hy)
    exact hr hry
  · intro hbehind i x hi hx
    by_contra hr
    obtain ⟨j, hji, y, hy, hpy, _⟩ := hbehind i x hx (of_findIdx? hi hx) hr
    rw [not_of_lt hi hji hy] at hpy
    cases hpy

/-- Nothing is in front of the first entry that fails if that is the first of all. -/
theorem takeWhile_eq_nil_iff : xs.takeWhile p = [] ↔ ∀ a ∈ xs.head?, p a = false := by
  cases xs with
  | nil => simp
  | cons x rest => cases hx : p x <;> simp [hx]

/-- The last entry in front of the first one that fails the test. -/
theorem getLast?_takeWhile_eq_some_iff {x : α} :
    (xs.takeWhile p).getLast? = some x ↔
      ∃ before after, xs = before ++ x :: after ∧ (∀ a ∈ before, p a = true) ∧ p x = true ∧
        ∀ a ∈ after.head?, p a = false := by
  constructor
  · intro hlast
    obtain ⟨before, hbefore⟩ := List.getLast?_eq_some_iff.mp hlast
    have hpass (a : α) (ha : a ∈ before ++ [x]) : p a = true := by
      rw [← hbefore] at ha
      exact List.mem_takeWhile_imp ha
    refine ⟨before, xs.dropWhile p, ?_, fun a ha => hpass a (List.mem_append_left _ ha),
      hpass x (by simp), fun a ha => ?_⟩
    · have hsplit := @List.takeWhile_append_dropWhile α p xs
      rw [hbefore, List.append_assoc] at hsplit
      exact hsplit.symm
    · have hfails := List.head?_dropWhile_not p xs
      rw [Option.mem_def.mp ha] at hfails
      exact hfails
  · rintro ⟨before, after, rfl, hbefore, hx, hafter⟩
    have hstop := takeWhile_eq_nil_iff.mpr hafter
    rw [List.takeWhile_append_of_pos hbefore, List.takeWhile_cons_of_pos hx, hstop]
    simp

/-- The last entry in front of the first one that fails the test, which is not made for the
first of all. -/
theorem getLast?_cons_takeWhile_eq_some_iff {first x : α} :
    (first :: xs.takeWhile p).getLast? = some x ↔
      ∃ before after, first :: xs = before ++ x :: after ∧
        (∀ a ∈ (before ++ [x]).tail, p a = true) ∧ ∀ a ∈ after.head?, p a = false := by
  rw [List.getLast?_cons, Option.some.injEq]
  constructor
  · intro hx
    cases hlast : (xs.takeWhile p).getLast? with
    | none =>
      rw [hlast] at hx
      obtain rfl : first = x := hx
      rw [List.getLast?_eq_none_iff, takeWhile_eq_nil_iff] at hlast
      exact ⟨[], xs, rfl, by simp, hlast⟩
    | some last =>
      rw [hlast] at hx
      obtain rfl : last = x := hx
      obtain ⟨before, after, rfl, hbefore, hpass, hafter⟩ :=
        getLast?_takeWhile_eq_some_iff.mp hlast
      refine ⟨first :: before, after, rfl, fun a ha => ?_, hafter⟩
      rcases List.mem_append.mp ha with ha | ha
      · exact hbefore a ha
      · rw [List.mem_singleton.mp ha]
        exact hpass
  · rintro ⟨before, after, hxs, hpass, hafter⟩
    cases before with
    | nil =>
      obtain ⟨rfl, rfl⟩ := List.cons.inj hxs
      rw [takeWhile_eq_nil_iff.mpr hafter]
      rfl
    | cons b before =>
      obtain ⟨-, hrest⟩ := List.cons.inj hxs
      have hlast := getLast?_takeWhile_eq_some_iff.mpr ⟨before, after, hrest,
        fun a ha => hpass a (List.mem_append_left _ ha), hpass x (by simp), hafter⟩
      rw [hlast]
      rfl

end FirstMatch
