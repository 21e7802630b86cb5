import Mathlib.Data.List.Basic
import Mathlib.Data.Nat.Notation

/-!
# A list scanned again and again

A scan goes on from where the last one stopped, to the next entry with a property. At the end
of the list it answers with nothing and begins anew. So a series of scans lists the entries
with the property in order, then nothing, and then the same again.
-/

namespace CyclicScan

variable {α : Type*} (p : α → Bool) (all : List α)

/-- One scan, from the remaining entries: its answer, and what remains for the next scan. -/
def scan : List α → Option α × List α
  | [] => (none, all)
  | x :: rest => if p x then (some x, rest) else scan rest

/-- The answers of so many scans. -/
def answers : ℕ → List α → List (Option α)
  | 0, _ => []
  | n + 1, rest => (scan p all rest).1 :: answers n (scan p all rest).2

/-- What a series of scans answers before it begins anew. -/
def cycle : List (Option α) := (all.filter p).map some ++ [none]

variable {p all}

theorem scan_cons_of_pos {x : α} (hx : p x = true) (rest : List α) :
    scan p all (x :: rest) = (some x, rest) := if_pos hx

theorem scan_cons_of_neg {x : α} (hx : p x = false) (rest : List α) :
    scan p all (x :: rest) = scan p all rest := if_neg (by simp [hx])

/-- An entry without the property does not show in the answers. -/
theorem answers_cons_of_neg {x : α} (hx : p x = false) (n : ℕ) (rest : List α) :
    answers p all n (x :: rest) = answers p all n rest := by
  cases n with
  | zero => rfl
  | succ n => rw [answers, answers, scan_cons_of_neg hx]

/-- The scans of the remaining entries list those with the property, answer once with nothing
and begin anew. Induction on the remaining entries. -/
theorem answers_to_end (n : ℕ) (rest : List α) :
    answers p all ((cycle p rest).length + n) rest = cycle p rest ++ answers p all n all := by
  induction rest with
  | nil =>
    have hlength : (cycle p []).length + n = n + 1 := by
      simp only [cycle, List.filter_nil, List.map_nil, List.nil_append, List.length_singleton]
      omega
    rw [hlength]
    rfl
  | cons x rest ih =>
    by_cases hx : p x = true
    · have hcycle : cycle p (x :: rest) = some x :: cycle p rest := by
        simp [cycle, hx]
      have hlength : (some x :: cycle p rest).length + n = (cycle p rest).length + n + 1 := by
        rw [List.length_cons]
        omega
      rw [hcycle, hlength, answers, scan_cons_of_pos hx, ih, List.cons_append]
    · have hx' : p x = false := by simpa using hx
      have hcycle : cycle p (x :: rest) = cycle p rest := by
        simp [cycle, hx']
      rw [hcycle, answers_cons_of_neg hx', ih]

/-- A series of scans runs through the cycle so many times. Induction on the rounds. -/
theorem answers_rounds (k : ℕ) :
    answers p all (k * (cycle p all).length) all = (List.replicate k (cycle p all)).flatten := by
  induction k with
  | zero =>
    rw [Nat.zero_mul]
    rfl
  | succ k ih =>
    rw [Nat.succ_mul, Nat.add_comm, answers_to_end, ih, List.replicate_succ, List.flatten_cons]

end CyclicScan
