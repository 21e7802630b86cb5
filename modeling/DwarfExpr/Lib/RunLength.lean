import DwarfExpr.Lib.StepMachine

/-!
# How long a run can be

A machine whose states have a bounded rank can only make a bounded number of steps that
raise the rank in a row. Its runs are therefore as long as the number of other steps
allows, and a machine that never stalls halts as soon as that number is bounded.
-/

namespace StepMachine

variable {S R : Type*} {step : S → Step S R} {rank : S → ℕ}

/-- A run of `m` steps, of which `k` do not raise the rank. -/
inductive Run (step : S → Step S R) (rank : S → ℕ) : ℕ → ℕ → S → S → Prop
  | refl (s : S) : Run step rank 0 0 s s
  | raise {m k : ℕ} {s t u : S} (hstep : step s = .next t) (hrank : rank s < rank t)
      (hrest : Run step rank m k t u) : Run step rank (m + 1) k s u
  | back {m k : ℕ} {s t u : S} (hstep : step s = .next t) (hrank : rank t ≤ rank s)
      (hrest : Run step rank m k t u) : Run step rank (m + 1) (k + 1) s u

/-- A step in front of a run. -/
theorem Run.cons {m k : ℕ} {s t u : S} (hstep : step s = .next t) (hrest : Run step rank m k t u) :
    ∃ k', Run step rank (m + 1) k' s u := by
  rcases Nat.lt_or_ge (rank s) (rank t) with hlt | hge
  · exact ⟨k, .raise hstep hlt hrest⟩
  · exact ⟨k + 1, .back hstep hge hrest⟩

/-- The steps that do not raise the rank are some of the steps. -/
theorem Run.back_le {m k : ℕ} {s t : S} (hrun : Run step rank m k s t) : k ≤ m := by
  induction hrun with
  | refl => exact Nat.le_refl 0
  | raise _ _ _ ih => omega
  | back _ _ _ ih => omega

/-- A run with `k` steps that do not raise the rank has at most `k + 1` times as many
steps as there are ranks. Induction on the run. -/
theorem Run.length_le {n : ℕ} (hbound : ∀ s t, step s = .next t → rank s < n ∧ rank t ≤ n)
    {m k : ℕ} {s t : S} (hrun : Run step rank m k s t) (hs : rank s ≤ n) :
    m + rank s ≤ (k + 1) * n := by
  induction hrun with
  | refl s => omega
  | raise hstep hrank _ ih =>
    have hrest := ih (hbound _ _ hstep).2
    omega
  | @back m k s t u hstep _ _ ih =>
    obtain ⟨hlt, hle⟩ := hbound _ _ hstep
    have hrest := ih hle
    have hmore : (k + 1 + 1) * n = (k + 1) * n + n := Nat.succ_mul (k + 1) n
    omega

/-- A run cannot be longer than the halting one. -/
theorem Run.lt_of_runFor {n : ℕ} {r : R} {m k : ℕ} {s t : S} (hrun : Run step rank m k s t)
    (hhalts : runFor step n s = some r) : m < n := by
  induction hrun generalizing n with
  | refl s =>
    cases n with
    | zero => cases hhalts
    | succ n => exact Nat.succ_pos n
  | raise hstep _ _ ih | back hstep _ _ ih =>
    cases n with
    | zero => cases hhalts
    | succ n =>
      simp only [runFor, hstep] at hhalts
      have hlt := ih hhalts
      omega

/-- A machine that does not stall on its way halts within a number of steps or makes all
of them. -/
theorem halts_or_run (m : ℕ) {s : S} (hstall : ∀ t, Reaches step s t → step t ≠ .stall) :
    (∃ r, runFor step m s = some r) ∨ ∃ k t, Run step rank m k s t := by
  induction m generalizing s with
  | zero => exact Or.inr ⟨0, s, .refl s⟩
  | succ m ih =>
    cases hstep : step s with
    | next t =>
      rcases ih fun u hu => hstall u (Relation.ReflTransGen.head hstep hu) with
        ⟨r, hhalts⟩ | ⟨k, u, hrun⟩
      · exact Or.inl ⟨r, by simp only [runFor, hstep, hhalts]⟩
      · obtain ⟨k', hrun'⟩ := Run.cons hstep hrun
        exact Or.inr ⟨k', u, hrun'⟩
    | halt r => exact Or.inl ⟨r, by simp only [runFor, hstep]⟩
    | stall => exact absurd hstep (hstall s .refl)

/-- A machine that does not stall on its way and makes at most `k` steps that do not raise
the rank halts within `k + 1` times as many steps as there are ranks, and one more. -/
theorem halts_of_back_le {n k : ℕ} {s : S} (hstall : ∀ t, Reaches step s t → step t ≠ .stall)
    (hbound : ∀ s t, step s = .next t → rank s < n ∧ rank t ≤ n) (hs : rank s ≤ n)
    (hback : ∀ m k' t, Run step rank m k' s t → k' ≤ k) :
    ∃ r, runFor step ((k + 1) * n + 1) s = some r := by
  rcases @halts_or_run S R step rank ((k + 1) * n + 1) s hstall with hhalts | ⟨k', t, hrun⟩
  · exact hhalts
  · have hlength := hrun.length_le hbound hs
    have hmore : (k' + 1) * n ≤ (k + 1) * n :=
      Nat.mul_le_mul_right n (Nat.succ_le_succ (hback _ _ _ hrun))
    omega

end StepMachine
