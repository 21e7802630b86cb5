import DwarfExpr.Lib.StepMachine

/-!
# Computations under a growing bound

A computation that gives up when its fuel runs out is a function from fuel to an
optional answer. It settles when an answer, once given, stays the same for every
larger amount of fuel; what it returns can then be stated without the fuel. Settling
computations compose, and so do step machines whose steps settle. An answer may also
be the report of a failure, which ends a sequence of computations.
-/

namespace Fuel

open StepMachine (Step Reaches Refines runFor)

variable {α β S R : Type*}

/-- An answer given with some fuel is given with all larger amounts of fuel. -/
def Settles (f : ℕ → Option α) : Prop :=
  ∀ ⦃m n : ℕ⦄, m ≤ n → f m = none ∨ f m = f n

/-- With enough fuel the computation gives this answer. -/
def Returns (f : ℕ → Option α) (a : α) : Prop := ∃ n, f n = some a

/-- A computation that needs no fuel settles. -/
theorem settles_const (x : Option α) : Settles fun _ => x := fun _ _ _ => Or.inr rfl

/-- An answer given with some fuel is given with more. -/
theorem Settles.eq_some {f : ℕ → Option α} (hf : Settles f) {m n : ℕ} (hmn : m ≤ n) {a : α}
    (hfm : f m = some a) : f n = some a := by
  rcases hf hmn with hnone | hsame
  · rw [hnone] at hfm
    cases hfm
  · rw [← hsame, hfm]

/-- A settling computation returns at most one answer. -/
theorem Settles.unique {f : ℕ → Option α} (hf : Settles f) {a b : α} (ha : Returns f a)
    (hb : Returns f b) : a = b := by
  obtain ⟨m, hm⟩ := ha
  obtain ⟨n, hn⟩ := hb
  have hfirst := hf.eq_some (Nat.le_max_left m n) hm
  have hsecond := hf.eq_some (Nat.le_max_right m n) hn
  exact Option.some.inj (hfirst.symm.trans hsecond)

open Classical in
/-- The answer that the computation gives with enough fuel, if it gives one at all. -/
noncomputable def limit (f : ℕ → Option α) : Option α :=
  if h : ∃ a, Returns f a then some h.choose else none

/-- The limit of a settling computation is what it returns. -/
theorem Settles.limit_eq_some_iff {f : ℕ → Option α} (hf : Settles f) {a : α} :
    limit f = some a ↔ Returns f a := by
  unfold limit
  constructor
  · intro hlimit
    split at hlimit
    · rename_i h
      rw [← Option.some.inj hlimit]
      exact h.choose_spec
    · cases hlimit
  · intro hreturns
    have h : ∃ a, Returns f a := ⟨a, hreturns⟩
    rw [dif_pos h, hf.unique h.choose_spec hreturns]

/-- With some fuel a settling computation has not answered or has given its limit. -/
theorem Settles.eq_none_or_eq_limit {f : ℕ → Option α} (hf : Settles f) (n : ℕ) :
    f n = none ∨ f n = limit f := by
  cases hn : f n with
  | none => exact Or.inl rfl
  | some a => exact Or.inr (hf.limit_eq_some_iff.mpr ⟨n, hn⟩).symm

/-- With enough fuel a settling computation gives its limit, also if that is none. -/
theorem Settles.exists_eq_limit {f : ℕ → Option α} (hf : Settles f) : ∃ n, f n = limit f := by
  cases hlimit : limit f with
  | some a => exact hf.limit_eq_some_iff.mp hlimit
  | none =>
    rcases hf.eq_none_or_eq_limit 0 with hnone | heq
    · exact ⟨0, hnone⟩
    · exact ⟨0, by rw [heq, hlimit]⟩

/-- A step machine whose steps settle as the fuel for their own work grows. -/
def SettlingSteps (step : ℕ → S → Step S R) : Prop :=
  ∀ ⦃m n : ℕ⦄, m ≤ n → Refines (step m) (step n)

/-- Run the machine from `s` with one bound for the steps and for the work in each. -/
def halting (step : ℕ → S → Step S R) (s : S) : ℕ → Option R := fun n => runFor (step n) n s

/-- The run of a machine with settling steps settles. -/
theorem SettlingSteps.settles {step : ℕ → S → Step S R} (hstep : SettlingSteps step) (s : S) :
    Settles (halting step s) := by
  intro m n hmn
  cases hrun : halting step s m with
  | none => exact Or.inl rfl
  | some r =>
    right
    exact (StepMachine.runFor_mono_of_refines (hstep hmn) hmn hrun).symm

/-- A run halts with a result at its first step, or its first step leads to a state
from which it halts with that result. -/
theorem SettlingSteps.returns_iff {step : ℕ → S → Step S R} (hstep : SettlingSteps step) {s : S}
    {r : R} :
    Returns (halting step s) r ↔
      (∃ n, step n s = .halt r) ∨ ∃ n t, step n s = .next t ∧ Returns (halting step t) r := by
  constructor
  · rintro ⟨n, hrun⟩
    cases n with
    | zero => simp [halting, runFor] at hrun
    | succ n =>
      unfold halting runFor at hrun
      cases hs : step (n + 1) s with
      | next t =>
        simp only [hs] at hrun
        refine Or.inr ⟨n + 1, t, hs, n + 1, ?_⟩
        exact StepMachine.runFor_mono_of_refines (fun _ => Or.inr rfl) (Nat.le_succ n) hrun
      | halt a =>
        simp only [hs, Option.some.injEq] at hrun
        exact Or.inl ⟨n + 1, by rw [hs, hrun]⟩
      | stall => simp only [hs, reduceCtorEq] at hrun
  · rintro (⟨n, hs⟩ | ⟨n, t, hs, k, hrun⟩)
    · refine ⟨n + 1, ?_⟩
      have hlarger := (hstep (Nat.le_succ n)).halt hs
      simp [halting, runFor, hlarger]
    · refine ⟨max n k + 1, ?_⟩
      have hlarger := (hstep (show n ≤ max n k + 1 by omega)).next hs
      simp only [halting, runFor, hlarger]
      exact StepMachine.runFor_mono_of_refines (hstep (show k ≤ max n k + 1 by omega))
        (Nat.le_max_right n k) hrun

/-- A run gives the results that it gives from each state it comes to. -/
theorem SettlingSteps.returns_iff_of_reaches {step : ℕ → S → Step S R}
    (hstep : SettlingSteps step) {k : ℕ} {s t : S} (hreach : Reaches (step k) s t) {r : R} :
    Returns (halting step s) r ↔ Returns (halting step t) r := by
  induction hreach using Relation.ReflTransGen.head_induction_on with
  | refl => exact Iff.rfl
  | @head s u hfirst _ ih =>
    rw [← ih, hstep.returns_iff]
    constructor
    · rintro (⟨n, hhalt⟩ | ⟨n, v, hnext, hrun⟩)
      · have hlater := (hstep (Nat.le_max_left n k)).halt hhalt
        rw [(hstep (Nat.le_max_right n k)).next hfirst] at hlater
        cases hlater
      · have hlater := (hstep (Nat.le_max_left n k)).next hnext
        rw [(hstep (Nat.le_max_right n k)).next hfirst] at hlater
        cases hlater
        exact hrun
    · exact fun hrun => Or.inr ⟨k, u, hfirst, hrun⟩

/-- A bounded call that may fail: `none` while it has not returned. -/
abbrev Bounded (ε α : Type*) := Option (Except ε α)

/-- Go on with the answer of a bounded call; a failure ends the sequence. -/
def Bounded.andThen {ε : Type*} (x : Bounded ε α) (f : α → Bounded ε β) : Bounded ε β :=
  x.bind fun
    | .ok a => f a
    | .error e => some (.error e)

@[simp] theorem Bounded.andThen_ok {ε : Type*} (a : α) (f : α → Bounded ε β) :
    Bounded.andThen (some (.ok a)) f = f a := rfl

@[simp] theorem Bounded.andThen_error {ε : Type*} (e : ε) (f : α → Bounded ε β) :
    Bounded.andThen (some (.error e)) f = some (.error e) := rfl

@[simp] theorem Bounded.andThen_none {ε : Type*} (f : α → Bounded ε β) :
    Bounded.andThen (none : Bounded ε α) f = none := rfl

/-- A sequence of calls that has succeeded has succeeded in both parts. -/
theorem Bounded.exists_of_andThen {ε : Type*} {x : Bounded ε α} {f : α → Bounded ε β} {b : β}
    (h : x.andThen f = some (.ok b)) : ∃ a, x = some (.ok a) ∧ f a = some (.ok b) := by
  rcases x with _ | _ | a
  · cases h
  · cases Option.some.inj h
  · exact ⟨a, rfl, h⟩

/-- Sequences of calls may be grouped either way. -/
theorem Bounded.andThen_assoc {ε γ : Type*} (x : Bounded ε α) (f : α → Bounded ε β)
    (g : β → Bounded ε γ) : (x.andThen f).andThen g = x.andThen fun a => (f a).andThen g := by
  rcases x with _ | _ | _ <;> rfl

/-- Continuing a settling call with settling calls settles. -/
theorem Settles.andThen {ε : Type*} {f : ℕ → Bounded ε α} {g : α → ℕ → Bounded ε β}
    (hf : Settles f) (hg : ∀ a, Settles (g a)) :
    Settles fun n => (f n).andThen fun a => g a n := by
  intro m n hmn
  unfold Bounded.andThen
  cases hfm : f m with
  | none => exact Or.inl (by simp only [hfm, Option.bind_none])
  | some x =>
    have hfn := hf.eq_some hmn hfm
    simp only [hfm, hfn, Option.bind_some]
    cases x with
    | ok a => exact hg a hmn
    | error e => exact Or.inr rfl

/-- A sequence of calls returns what the second returns on an answer of the first. -/
theorem returns_andThen_iff {ε : Type*} {f : ℕ → Bounded ε α} {g : α → ℕ → Bounded ε β}
    (hf : Settles f) (hg : ∀ a, Settles (g a)) {b : β} :
    Returns (fun n => (f n).andThen fun a => g a n) (.ok b) ↔
      ∃ a, Returns f (.ok a) ∧ Returns (g a) (.ok b) := by
  constructor
  · rintro ⟨n, hn⟩
    obtain ⟨x, hx, hb⟩ := Option.bind_eq_some_iff.mp hn
    cases x with
    | ok a => exact ⟨a, ⟨n, hx⟩, ⟨n, hb⟩⟩
    | error e => cases hb
  · rintro ⟨a, ⟨m, hm⟩, ⟨n, hn⟩⟩
    refine ⟨max m n, Option.bind_eq_some_iff.mpr ⟨.ok a, ?_, ?_⟩⟩
    · exact hf.eq_some (Nat.le_max_left m n) hm
    · exact (hg a).eq_some (Nat.le_max_right m n) hn

/-- A sequence of calls fails as its first does, or as the second on an answer of the first. -/
theorem returns_andThen_error_iff {ε : Type*} {f : ℕ → Bounded ε α} {g : α → ℕ → Bounded ε β}
    (hf : Settles f) (hg : ∀ a, Settles (g a)) {e : ε} :
    Returns (fun n => (f n).andThen fun a => g a n) (.error e) ↔
      Returns f (.error e) ∨ ∃ a, Returns f (.ok a) ∧ Returns (g a) (.error e) := by
  constructor
  · rintro ⟨n, hn⟩
    obtain ⟨x, hx, he⟩ := Option.bind_eq_some_iff.mp hn
    cases x with
    | ok a => exact Or.inr ⟨a, ⟨n, hx⟩, ⟨n, he⟩⟩
    | error e' =>
      obtain rfl := Except.error.inj (Option.some.inj he)
      exact Or.inl ⟨n, hx⟩
  · rintro (⟨n, hn⟩ | ⟨a, ⟨m, hm⟩, ⟨n, hn⟩⟩)
    · exact ⟨n, by simp only [hn, Bounded.andThen_error]⟩
    · refine ⟨max m n, ?_⟩
      have hfirst := hf.eq_some (Nat.le_max_left m n) hm
      have hsecond := (hg a).eq_some (Nat.le_max_right m n) hn
      simp only [hfirst, Bounded.andThen_ok, hsecond]

/-- A constant answer is returned. -/
theorem returns_const_iff {a b : α} : Returns (fun _ => some a) b ↔ a = b :=
  ⟨fun ⟨_, h⟩ => Option.some.inj h, fun h => ⟨0, by rw [h]⟩⟩

/-- One round of a loop as a step: it goes on with a state, ends with a result, fails or
waits. -/
def Bounded.toStep {ε : Type*} : Bounded ε (S ⊕ R) → Step S (Except ε R)
  | none => .stall
  | some (.error e) => .halt (.error e)
  | some (.ok (.inl s)) => .next s
  | some (.ok (.inr r)) => .halt (.ok r)

/-- A loop whose rounds settle is a machine with settling steps. -/
theorem settlingSteps_of_rounds {ε : Type*} {round : S → ℕ → Bounded ε (S ⊕ R)}
    (hround : ∀ s, Settles (round s)) : SettlingSteps fun n s => (round s n).toStep := by
  intro m n hmn s
  rcases hround s hmn with h | h
  · exact Or.inl (by simp only [h, Bounded.toStep])
  · exact Or.inr (by simp only [h])

/-- A loop returns a result exactly when its first round does, or goes on with a state
from which the loop returns it. -/
theorem returns_loop_iff {ε : Type*} {round : S → ℕ → Bounded ε (S ⊕ R)}
    (hround : ∀ s, Settles (round s)) {s : S} {r : R} :
    Returns (halting (fun n s => (round s n).toStep) s) (.ok r) ↔
      Returns (round s) (.ok (.inr r)) ∨
        ∃ t, Returns (round s) (.ok (.inl t)) ∧
          Returns (halting (fun n s => (round s n).toStep) t) (.ok r) := by
  have hhalt (n : ℕ) : (round s n).toStep = .halt (.ok r) ↔ round s n = some (.ok (.inr r)) := by
    rcases round s n with _ | _ | _ | _ <;> simp [Bounded.toStep]
  have hnext (n : ℕ) (t : S) : (round s n).toStep = .next t ↔ round s n = some (.ok (.inl t)) := by
    rcases round s n with _ | _ | _ | _ <;> simp [Bounded.toStep]
  rw [(settlingSteps_of_rounds hround).returns_iff]
  simp only [hhalt, hnext]
  constructor
  · rintro (h | ⟨n, t, hs, hrun⟩)
    · exact Or.inl h
    · exact Or.inr ⟨t, ⟨n, hs⟩, hrun⟩
  · rintro (h | ⟨t, ⟨n, hs⟩, hrun⟩)
    · exact Or.inl h
    · exact Or.inr ⟨n, t, hs, hrun⟩

/-- The computation gives an answer with enough fuel. -/
def Ends (f : ℕ → Option α) : Prop := ∃ a, Returns f a

/-- A computation that needs no fuel ends. -/
theorem ends_const {x : Option α} (hx : x ≠ none) : Ends fun _ => x := by
  obtain ⟨a, rfl⟩ := Option.ne_none_iff_exists'.mp hx
  exact ⟨a, 0, rfl⟩

/-- A sequence of calls ends exactly when the first does, and the second on its answer. -/
theorem ends_andThen_iff {ε : Type*} {f : ℕ → Bounded ε α} {g : α → ℕ → Bounded ε β}
    (hf : Settles f) (hg : ∀ a, Settles (g a)) :
    (Ends fun n => (f n).andThen fun a => g a n) ↔
      Ends f ∧ ∀ a, Returns f (.ok a) → Ends (g a) := by
  constructor
  · rintro ⟨y, n, hn⟩
    obtain ⟨x, hx, hrest⟩ := Option.bind_eq_some_iff.mp hn
    refine ⟨⟨x, n, hx⟩, fun a ha => ?_⟩
    obtain rfl := hf.unique ha ⟨n, hx⟩
    exact ⟨y, n, hrest⟩
  · rintro ⟨⟨x, m, hm⟩, hrest⟩
    cases x with
    | error e => exact ⟨.error e, m, by simp only [hm, Bounded.andThen_error]⟩
    | ok a =>
      obtain ⟨y, n, hn⟩ := hrest a ⟨m, hm⟩
      have hfirst := hf.eq_some (Nat.le_max_left m n) hm
      have hsecond := (hg a).eq_some (Nat.le_max_right m n) hn
      exact ⟨y, max m n, by simp only [hfirst, Bounded.andThen_ok, hsecond]⟩

/-- A step that does not wait is the step of a round that has ended. -/
theorem Bounded.toStep_ne_stall_iff {ε : Type*} {x : Bounded ε (S ⊕ R)} :
    x.toStep ≠ .stall ↔ x ≠ none := by
  rcases x with _ | _ | _ | _ <;> simp [toStep]

/-- A loop whose rounds lower a measure ends exactly when each round it comes to ends.
Induction on the measure. -/
theorem ends_loop_iff {ε : Type*} {round : S → ℕ → Bounded ε (S ⊕ R)}
    (hround : ∀ s, Settles (round s)) (measure : S → ℕ)
    (hlower : ∀ s t, Returns (round s) (.ok (.inl t)) → measure t < measure s) {s : S} :
    Ends (halting (fun n s => (round s n).toStep) s) ↔
      ∀ t, (∃ n, Reaches (fun s => (round s n).toStep) s t) → Ends (round t) := by
  have hsettle := settlingSteps_of_rounds hround
  constructor
  · rintro ⟨r, n, hrun⟩ t ⟨m, hreach⟩
    have hlater := StepMachine.Reaches.mono_of_refines (hsettle (Nat.le_max_right n m)) hreach
    have hrunning := (hsettle (Nat.le_max_left n m)).ne_stall_of_runFor hrun hlater
    obtain ⟨x, hx⟩ := Option.ne_none_iff_exists'.mp (Bounded.toStep_ne_stall_iff.mp hrunning)
    exact ⟨x, n, hx⟩
  intro hends
  induction hsize : measure s using Nat.strongRecOn generalizing s with
  | _ size ih =>
    obtain ⟨y, n, hn⟩ := hends s ⟨0, .refl⟩
    rcases y with e | t | r
    · exact ⟨.error e, hsettle.returns_iff.mpr (Or.inl ⟨n, by simp only [hn, Bounded.toStep]⟩)⟩
    · have hstep : (round s n).toStep = .next t := by simp only [hn, Bounded.toStep]
      have hsmaller := hlower s t ⟨n, hn⟩
      rw [hsize] at hsmaller
      have hrest (u : S) (hu : ∃ m, Reaches (fun s => (round s m).toStep) t u) :
          Ends (round u) := by
        obtain ⟨m, hreach⟩ := hu
        have hfirst := (hsettle (Nat.le_max_left n m)).next hstep
        have hlater := StepMachine.Reaches.mono_of_refines (hsettle (Nat.le_max_right n m)) hreach
        exact hends u ⟨max n m, Relation.ReflTransGen.head hfirst hlater⟩
      obtain ⟨r, hr⟩ := ih (measure t) hsmaller hrest rfl
      exact ⟨r, hsettle.returns_iff.mpr (Or.inr ⟨n, t, hstep, hr⟩)⟩
    · exact ⟨.ok r, hsettle.returns_iff.mpr (Or.inl ⟨n, by simp only [hn, Bounded.toStep]⟩)⟩

end Fuel
