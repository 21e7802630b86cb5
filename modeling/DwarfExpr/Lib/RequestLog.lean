import Mathlib.Data.List.Basic

/-!
# Sequences of requests on one stateful service

A service answers a request from its current state and moves on, or stops
altogether. Properties "before every request of the sequence" are stated along
the run, and independence of the past says that each answer equals the answer
the service would give after its hidden state has been renewed.
-/

namespace RequestLog

variable {S Q A : Type*}

/-- The relation holds between state and request at every request of the run. -/
def Along (serve : S → Q → A × Option S) (P : S → Q → Prop) : S → List Q → Prop
  | _, [] => True
  | s, q :: qs => P s q ∧ ∀ t, (serve s q).2 = some t → Along serve P t qs

/-- Every answer of the run equals the answer to the same request after the
hidden part of the state has been renewed. -/
def HistoryIndependent (serve : S → Q → A × Option S) (renew : S → S) : S → List Q → Prop :=
  Along serve fun s q => (serve s q).1 = (serve (renew s) q).1

/-- Two properties that agree wherever an invariant holds agree along every run
that starts in the invariant. -/
theorem Along.congr_of_invariant {serve : S → Q → A × Option S} {P R : S → Q → Prop}
    {Inv : S → Prop} (hiff : ∀ s q, Inv s → (P s q ↔ R s q))
    (hkeep : ∀ s q t, Inv s → (serve s q).2 = some t → Inv t)
    {s : S} {qs : List Q} (hs : Inv s) : Along serve P s qs ↔ Along serve R s qs := by
  induction qs generalizing s with
  | nil => exact Iff.rfl
  | cons q qs ih =>
    unfold Along
    rw [hiff s q hs]
    exact and_congr_right fun _ =>
      forall_congr' fun t => imp_congr_right fun ht => ih (hkeep s q t hs ht)

end RequestLog
