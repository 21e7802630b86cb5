import Mathlib.Data.Fintype.Pigeonhole
import Mathlib.Logic.Function.Iterate
import Mathlib.Logic.Relation

/-!
# Deterministic step machines

A machine is a function that, from a state, moves to a next state, halts with
a result, or stalls because something outside it does not answer. Bounded
execution is computable; the statements about unbounded runs quantify over the
bound, and monotonicity in the bound makes their results unique.
-/

namespace StepMachine

variable {S R : Type*}

/-- What one step of a machine does. -/
inductive Step (S R : Type*) where
  | next (s : S)
  | halt (r : R)
  | stall
  deriving DecidableEq, Repr

/-- Execute at most `n` steps and return the result of a halting run. -/
def runFor (step : S → Step S R) : ℕ → S → Option R
  | 0, _ => none
  | n + 1, s =>
    match step s with
    | .next t => runFor step n t
    | .halt r => some r
    | .stall => none

/-- The step with its next state renamed. -/
def Step.map {S' : Type*} (f : S → S') : Step S R → Step S' R
  | next s => next (f s)
  | halt r => halt r
  | stall => stall

/-- A machine that makes the steps of another under other names gives its results. -/
theorem runFor_map {S' : Type*} {step : S → Step S R} {step' : S' → Step S' R} {f : S → S'}
    (hmap : ∀ s, step' (f s) = (step s).map f) (n : ℕ) (s : S) :
    runFor step' n (f s) = runFor step n s := by
  induction n generalizing s with
  | zero => rfl
  | succ n ih =>
    unfold runFor
    rw [hmap s]
    cases step s with
    | next t => exact ih t
    | halt r => rfl
    | stall => rfl

/-- Runs whose first steps agree give the same result. -/
theorem runFor_congr_start {step : S → Step S R} {s t : S} (hfirst : step s = step t) (n : ℕ) :
    runFor step n s = runFor step n t := by
  cases n with
  | zero => rfl
  | succ n =>
    unfold runFor
    rw [hfirst]

/-- The state `t` occurs in the run from `s`. -/
abbrev Reaches (step : S → Step S R) : S → S → Prop :=
  Relation.ReflTransGen fun s t => step s = .next t

/-- A property that holds initially and is kept by every step holds in each state
of the run. -/
theorem Reaches.invariant {step : S → Step S R} {P : S → Prop} {s t : S}
    (hreach : Reaches step s t) (hinit : P s)
    (hstep : ∀ a b, P a → step a = .next b → P b) : P t := by
  induction hreach with
  | refl => exact hinit
  | tail _ hlast ih => exact hstep _ _ ih hlast

/-- One machine answers whenever the other does: it agrees with the other except
in states where the other stalls. -/
def Refines (step step' : S → Step S R) : Prop :=
  ∀ s, step s = .stall ∨ step s = step' s

/-- The run from a state after at most `n` steps: the state it is in, or its end. -/
def after (step : S → Step S R) : ℕ → S → Step S R
  | 0, s => .next s
  | n + 1, s =>
    match step s with
    | .next t => after step n t
    | .halt r => .halt r
    | .stall => .stall

/-- Two machines make the same run from a state. -/
def SameRun (step step' : S → Step S R) (s : S) : Prop := ∀ n, after step n s = after step' n s

/-- The run begins with its first step. -/
theorem after_of_next {step : S → Step S R} {s t : S} (hfirst : step s = .next t) (n : ℕ) :
    after step (n + 1) s = after step n t := by
  rw [after, hfirst]

/-- After one step the run is where the step leads. -/
theorem after_one (step : S → Step S R) (s : S) : after step 1 s = step s := by
  unfold after
  cases step s <;> rfl

/-- The last step of a run that goes on. Induction on the steps. -/
theorem exists_of_after_succ {step : S → Step S R} {n : ℕ} {s t : S}
    (hafter : after step (n + 1) s = .next t) :
    ∃ u, after step n s = .next u ∧ step u = .next t := by
  induction n generalizing s with
  | zero => exact ⟨s, rfl, by rwa [after_one] at hafter⟩
  | succ n ih =>
    rw [after] at hafter
    cases hfirst : step s with
    | next u =>
      rw [hfirst] at hafter
      obtain ⟨v, hv, hlast⟩ := ih hafter
      exact ⟨v, by rw [after_of_next hfirst, hv], hlast⟩
    | halt r =>
      rw [hfirst] at hafter
      cases hafter
    | stall =>
      rw [hfirst] at hafter
      cases hafter

/-- What each step changes in one and the same way does not depend on the rest of the state.
Induction on the steps. -/
theorem after_eq_iterate {α : Type*} {step : S → Step S R} {part : S → α} {f : α → α}
    (hstep : ∀ s t, step s = .next t → part t = f (part s)) {n : ℕ} {s t : S}
    (hafter : after step n s = .next t) : part t = f^[n] (part s) := by
  induction n generalizing t with
  | zero =>
    obtain rfl : s = t := by simpa [after] using hafter
    rfl
  | succ n ih =>
    obtain ⟨u, hu, hlast⟩ := exists_of_after_succ hafter
    rw [hstep u t hlast, ih hu, Function.iterate_succ_apply']

/-- Before its last step a run has been in a state from which it made one. Induction on the
steps. -/
theorem exists_of_after_lt {step : S → Step S R} {k n : ℕ} (hk : k < n) {s t : S}
    (hafter : after step n s = .next t) :
    ∃ u, after step k s = .next u ∧ ∃ v, step u = .next v := by
  induction n generalizing t with
  | zero => omega
  | succ n ih =>
    obtain ⟨u, hu, hlast⟩ := exists_of_after_succ hafter
    by_cases hkn : k = n
    · rw [hkn]
      exact ⟨u, hu, t, hlast⟩
    · exact ih (by omega) hu

/-- Who leaves the numbers below a bound by one and the same rule has not been at one of them
twice, for then he would stay. -/
theorem le_of_iterate_leaves {f : ℕ → ℕ} {bound n i : ℕ} (hbefore : ∀ k < n, f^[k] i < bound)
    (hleaves : bound ≤ f^[n] i) : n ≤ bound := by
  by_contra hmore
  have hnever {a b : ℕ} (hab : a < b) (hb : b < n) : f^[a] i ≠ f^[b] i := by
    intro hsame
    have hback : f^[n] i = f^[n - b + a] i := by
      calc
        f^[n] i = f^[n - b + b] i := by rw [Nat.sub_add_cancel hb.le]
        _ = f^[n - b] (f^[a] i) := by rw [Function.iterate_add_apply, hsame]
        _ = f^[n - b + a] i := by rw [Function.iterate_add_apply]
    have hbound := hbefore (n - b + a) (by omega)
    omega
  obtain ⟨a, b, hne, hsame⟩ := Fintype.exists_ne_map_eq_of_card_lt
    (fun k : Fin n => (⟨f^[k] i, hbefore k k.isLt⟩ : Fin bound)) (by simpa using hmore)
  have hplaces : f^[a] i = f^[b] i := Fin.mk.inj hsame
  rcases Nat.lt_or_gt_of_ne (Fin.val_ne_of_ne hne) with hlt | hlt
  · exact hnever hlt b.isLt hplaces
  · exact hnever hlt a.isLt hplaces.symm

/-- A common run begins with a common step. -/
theorem SameRun.step_eq {step step' : S → Step S R} {s : S} (hsame : SameRun step step' s) :
    step s = step' s := by
  rw [← after_one step, ← after_one step', hsame 1]

/-- A common run is common from its next state on. -/
theorem SameRun.tail {step step' : S → Step S R} {s t : S} (hsame : SameRun step step' s)
    (hfirst : step s = .next t) : SameRun step step' t := by
  intro n
  have hfirst' : step' s = .next t := by rw [← hsame.step_eq, hfirst]
  rw [← after_of_next hfirst, ← after_of_next hfirst', hsame (n + 1)]

/-- Two machines make the same run exactly if they agree in each of its states. -/
theorem sameRun_iff {step step' : S → Step S R} {s : S} :
    SameRun step step' s ↔ ∀ t, Reaches step s t → step t = step' t := by
  constructor
  · intro hsame t hreach
    induction hreach using Relation.ReflTransGen.head_induction_on with
    | refl => exact hsame.step_eq
    | head hfirst _ ih => exact ih (hsame.tail hfirst)
  · intro hagree n
    induction n generalizing s with
    | zero => rfl
    | succ n ih =>
      unfold after
      rw [← hagree s .refl]
      cases hs : step s with
      | next t => exact ih fun u hu => hagree u (Relation.ReflTransGen.head hs hu)
      | halt r => rfl
      | stall => rfl

/-- The result of a run that has halted. -/
def Step.result : Step S R → Option R
  | halt r => some r
  | _ => none

/-- Bounded execution gives the result of the run so far. -/
theorem runFor_eq_result_after (step : S → Step S R) (n : ℕ) (s : S) :
    runFor step n s = (after step n s).result := by
  induction n generalizing s with
  | zero => rfl
  | succ n ih =>
    unfold runFor after
    cases step s with
    | next t => exact ih t
    | halt r => rfl
    | stall => rfl

/-- Machines that agree in every state of the run from `s` give the same result. -/
theorem runFor_congr {step step' : S → Step S R} {s : S}
    (hagree : ∀ t, Reaches step s t → step t = step' t) (n : ℕ) :
    runFor step n s = runFor step' n s := by
  rw [runFor_eq_result_after, runFor_eq_result_after, sameRun_iff.mpr hagree n]

/-- A machine that makes every step of the run from `s` reaches its states. -/
theorem Reaches.congr {step step' : S → Step S R} {s t : S} (hreach : Reaches step s t)
    (hagree : ∀ a b, Reaches step s a → step a = .next b → step' a = .next b) :
    Reaches step' s t := by
  induction hreach with
  | refl => exact .refl
  | tail hfirst hlast ih => exact ih.tail (hagree _ _ hfirst hlast)

/-- Answering more often is transitive. -/
theorem Refines.trans {step step' step'' : S → Step S R} (h : Refines step step')
    (h' : Refines step' step'') : Refines step step'' := by
  intro s
  rcases h s with hstall | hsame
  · exact Or.inl hstall
  · rw [hsame]
    exact h' s

/-- A machine that answers more often makes the steps that the other makes. -/
theorem Refines.next {step step' : S → Step S R} (href : Refines step step') {s t : S}
    (hnext : step s = .next t) : step' s = .next t := by
  rcases href s with hstall | hsame
  · rw [hstall] at hnext
    cases hnext
  · rw [← hsame, hnext]

/-- A machine that answers more often reaches the same states and more. -/
theorem Reaches.mono_of_refines {step step' : S → Step S R} (href : Refines step step') {s t : S}
    (hreach : Reaches step s t) : Reaches step' s t :=
  Relation.ReflTransGen.mono (fun _ _ hnext => href.next hnext) s t hreach

/-- A machine that answers more often halts where the other does. -/
theorem Refines.halt {step step' : S → Step S R} (href : Refines step step') {s : S} {r : R}
    (hhalt : step s = .halt r) : step' s = .halt r := by
  rcases href s with hstall | hsame
  · rw [hstall] at hhalt
    cases hhalt
  · rw [← hsame, hhalt]

/-- A result found within a bound is found within every larger bound, also when
the machine is replaced by one that stalls in fewer states. -/
theorem runFor_mono_of_refines {step step' : S → Step S R} (href : Refines step step')
    {m n : ℕ} (hmn : m ≤ n) {s : S} {r : R} (hrun : runFor step m s = some r) :
    runFor step' n s = some r := by
  induction m generalizing n s with
  | zero => simp [runFor] at hrun
  | succ m ih =>
    obtain ⟨k, rfl⟩ : ∃ k, n = k + 1 := ⟨n - 1, by omega⟩
    rcases href s with hstall | hsame
    · simp [runFor, hstall] at hrun
    · unfold runFor at hrun ⊢
      rw [← hsame]
      cases hs : step s with
      | next t => rw [hs] at hrun; exact ih (by omega) hrun
      | halt a => rw [hs] at hrun; exact hrun
      | stall => simp [hs] at hrun

/-- A machine that halts has not stalled in any state that one that answers more often
comes to on the way. -/
theorem Refines.ne_stall_of_runFor {step step' : S → Step S R} (href : Refines step step') {n : ℕ}
    {s t : S} {r : R} (hrun : runFor step n s = some r) (hreach : Reaches step' s t) :
    step t ≠ .stall := by
  induction n generalizing s with
  | zero => cases hrun
  | succ n ih =>
    unfold runFor at hrun
    rcases Relation.ReflTransGen.cases_head hreach with rfl | ⟨u, hfirst, hrest⟩
    · intro hstall
      rw [hstall] at hrun
      cases hrun
    · cases hs : step s with
      | next v =>
        rw [href.next hs] at hfirst
        cases hfirst
        rw [hs] at hrun
        exact ih hrun hrest
      | halt a =>
        rw [href.halt hs] at hfirst
        cases hfirst
      | stall =>
        rw [hs] at hrun
        cases hrun

/-- Bounded execution finds exactly the results at which the run halts. -/
theorem exists_runFor_iff {step : S → Step S R} {s : S} {r : R} :
    (∃ n, runFor step n s = some r) ↔ ∃ t, Reaches step s t ∧ step t = .halt r := by
  constructor
  · rintro ⟨n, hrun⟩
    induction n generalizing s with
    | zero => simp [runFor] at hrun
    | succ n ih =>
      unfold runFor at hrun
      cases hs : step s with
      | next t =>
        rw [hs] at hrun
        obtain ⟨u, hreach, hhalt⟩ := ih hrun
        exact ⟨u, Relation.ReflTransGen.head hs hreach, hhalt⟩
      | halt a =>
        rw [hs] at hrun
        have har : a = r := Option.some.inj hrun
        exact ⟨s, Relation.ReflTransGen.refl, by rw [hs, har]⟩
      | stall => simp [hs] at hrun
  · rintro ⟨t, hreach, hhalt⟩
    induction hreach using Relation.ReflTransGen.head_induction_on with
    | refl => exact ⟨1, by simp [runFor, hhalt]⟩
    | head hfirst _ ih =>
      obtain ⟨n, hn⟩ := ih
      exact ⟨n + 1, by simp [runFor, hfirst, hn]⟩

end StepMachine
