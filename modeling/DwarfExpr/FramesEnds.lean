import DwarfExpr.FramesCfa

/-!
# When `GetCfa` ends

Each round of the loop of `GetCfa` moves its position forward, so the loop comes to the
end of the FDE exactly when all expressions that it evaluates on the way return. These
expressions are those of the CFA rules at the positions of the loop, and those of the
register rules at the positions to which it moves after a success.
-/

namespace DwarfExpr

open StepMachine (Reaches)
open Fuel (Returns Ends)

/-- `GetReg` evaluates the expression of this rule. -/
def FdeInfo.Evaluates (info : FdeInfo) (e : DwarfExpression) : Prop :=
  (info.valueType = .expression ∨ info.valueType = .valExpression) ∧
    exprOfBlock info.block = some e

/-- The loop over the registers comes to evaluate an expression. -/
def RegsEvaluate (context : Context) (fde : Fde) (p : DwarfAddr) :
    List (Fin 33) → FdeInfo → DwarfExpression → Prop
  | [], _, _ => False
  | x :: xs, info, e =>
    match fde.infoForReg x p info with
    | none => RegsEvaluate context fde p xs info e
    | some info =>
      if info.rowPc ≠ p then RegsEvaluate context fde p xs info e
      else
        info.Evaluates e ∨
          ((∃ v, Returns (fun fuel => getReg fuel context (.reg x) p info) (.ok v)) ∧
            RegsEvaluate context fde p xs info e)

/-- A round of the loop comes to evaluate an expression at an address. -/
inductive RoundEvaluates (context : Context) (fde : Fde) (s : CfaLoop) :
    DwarfAddr → DwarfExpression → Prop
  | cfa {info : FdeInfo} {e : DwarfExpression} (hp : s.p < fde.highPc)
      (hinfo : fde.infoForCfa s.p = some info) (he : info.Evaluates e) :
      RoundEvaluates context fde s s.p e
  | reg {info : FdeInfo} {c : DwarfAddr} {e : DwarfExpression} (hp : s.p < fde.highPc)
      (hinfo : fde.infoForCfa s.p = some info)
      (hcfa : Returns (fun fuel => getReg fuel context .cfa s.p info) (.ok c))
      (hne : c ≠ maxDwarfAddr)
      (he : RegsEvaluate context fde (info.skipAhead s.p) (List.finRange 33)
        { info with cfa := c } e) :
      RoundEvaluates context fde s (info.skipAhead s.p) e

/-- `GetCfa` comes to evaluate an expression at an address. -/
def CfiEvaluates (dbg : FrameSections) (context : Context) (pc q : DwarfAddr)
    (e : DwarfExpression) : Prop :=
  ∃ fde s, getFdeAtPc (getAllFde dbg) pc = some fde ∧
    (∃ fuel, Reaches (fun s => (cfaRound context fde s fuel).toStep)
      ⟨fde.lowPc, maxDwarfAddr⟩ s) ∧ RoundEvaluates context fde s q e

section Ends

variable {context : Context} {fde : Fde} {pc : DwarfAddr} {info : FdeInfo}

/-- `readMemory` returns. -/
theorem Context.readAddr_ne_none (addr : DwarfAddr) : context.readAddr addr ≠ none := by
  unfold readAddr
  cases context.memory <;> simp

/-- A register plus an offset is computed without an evaluation. -/
theorem Context.registerPlus_ne_none (reg : RuleReg) (offset : DwarfUnsigned) :
    context.registerPlus reg offset ≠ none := by
  unfold registerPlus
  rcases context.registers with _ | registers <;> rcases reg with _ | _ | n
  all_goals simp only [ne_eq, reduceCtorEq, not_false_eq_true]
  cases registers (toCInt n) <;> simp only [reduceCtorEq, not_false_eq_true]

/-- `EvalExpr` ends exactly when the evaluation of its expression does. -/
theorem evalExpr_ends_iff :
    (Ends fun fuel => evalExpr fuel context pc info) ↔
      ∀ e, exprOfBlock info.block = some e → Ends fun fuel => evaluate fuel context pc e [] := by
  unfold evalExpr
  cases exprOfBlock info.block with
  | some e =>
    simp only [Fuel.ends_andThen_iff (evaluate_settles context pc e [])
      fun _ => Fuel.settles_const _]
    constructor
    · rintro ⟨hends, -⟩ e' he
      obtain rfl := Option.some.inj he
      exact hends
    · intro hends
      exact ⟨hends e rfl, fun _ _ => Fuel.ends_const (Option.some_ne_none _)⟩
  | none =>
    apply iff_of_true (Fuel.ends_const (Option.some_ne_none _))
    intro e he
    cases he

/-- `GetReg` ends exactly when the evaluation of the expression of the rule does. -/
theorem getReg_ends_iff (i : FrameColumn) :
    (Ends fun fuel => getReg fuel context i pc info) ↔
      ∀ e, info.Evaluates e → Ends fun fuel => evaluate fuel context pc e [] := by
  have hwithout {x : Bounded DwarfAddr} (hx : x ≠ none)
      (htype : ¬(info.valueType = .expression ∨ info.valueType = .valExpression)) :
      (Ends fun _ => x) ↔
        ∀ e, info.Evaluates e → Ends fun fuel => evaluate fuel context pc e [] :=
    iff_of_true (Fuel.ends_const hx) fun _ he => absurd he.1 htype
  have hwith (htype : info.valueType = .expression ∨ info.valueType = .valExpression) :
      (Ends fun fuel => evalExpr fuel context pc info) ↔
        ∀ e, info.Evaluates e → Ends fun fuel => evaluate fuel context pc e [] := by
    rw [evalExpr_ends_iff]
    exact ⟨fun h e he => h e he.2, fun h e he => h e ⟨htype, he⟩⟩
  unfold getReg
  by_cases hmark : (info.valueType = .offset ∨ info.valueType = .valOffset) ∧
      (info.reg = .undefinedVal ∨ info.reg = .sameVal)
  · simp only [if_pos hmark]
    apply hwithout (Option.some_ne_none _)
    rcases hmark.1 with htype | htype <;> simp [htype]
  · simp only [if_neg hmark]
    cases htype : info.valueType with
    | offset =>
      by_cases hrelevant : info.offsetRelevant ≠ 0 ∧ i ≠ .cfa
      · simp only [if_pos hrelevant]
        exact hwithout (Context.readAddr_ne_none _) (by simp [htype])
      · simp only [if_neg hrelevant]
        exact hwithout (Context.registerPlus_ne_none _ _) (by simp [htype])
    | valOffset => exact hwithout (Option.some_ne_none _) (by simp [htype])
    | expression =>
      simp only [Fuel.ends_andThen_iff (evalExpr_settles context pc info)
        fun _ => Fuel.settles_const _, hwith (Or.inl htype)]
      exact and_iff_left fun _ _ => Fuel.ends_const (Context.readAddr_ne_none _)
    | valExpression => exact hwith (Or.inr htype)
    | other => exact hwithout (Option.some_ne_none _) (by simp [htype])

/-- The loop over the registers ends exactly when the expressions it evaluates do.
Induction on the registers still to visit. -/
theorem otherRegs_ends_iff {p : DwarfAddr} {xs : List (Fin 33)} :
    (Ends fun fuel => otherRegs fuel context fde p xs info) ↔
      ∀ e, RegsEvaluate context fde p xs info e →
        Ends fun fuel => evaluate fuel context p e [] := by
  induction xs generalizing info with
  | nil => exact iff_of_true (Fuel.ends_const (Option.some_ne_none _)) fun _ he => he.elim
  | cons x xs ih =>
    unfold otherRegs RegsEvaluate
    cases hinfo : fde.infoForReg x p info with
    | none => exact ih
    | some info' =>
      by_cases hrow : info'.rowPc ≠ p
      · simp only [if_pos hrow]
        exact ih
      · simp only [if_neg hrow]
        rw [Fuel.ends_andThen_iff (getReg_settles context (.reg x) p info')
          fun _ => otherRegs_settles context fde p xs info', getReg_ends_iff, ih]
        constructor
        · rintro ⟨hreg, hrest⟩ e (he | ⟨⟨v, hv⟩, he⟩)
          · exact hreg e he
          · exact hrest v hv e he
        · intro hends
          exact ⟨fun e he => hends e (Or.inl he), fun v hv e he => hends e (Or.inr ⟨⟨v, hv⟩, he⟩)⟩

/-- The rest of a round ends exactly when the expressions do that the loop over the
registers evaluates after a success. -/
theorem roundAfterCfa_ends_iff {s : CfaLoop} {c : DwarfAddr} :
    Ends (roundAfterCfa context fde s info c) ↔
      (c ≠ maxDwarfAddr → ∀ e, RegsEvaluate context fde (info.skipAhead s.p) (List.finRange 33)
        { info with cfa := c } e →
          Ends fun fuel => evaluate fuel context (info.skipAhead s.p) e []) := by
  unfold roundAfterCfa
  by_cases hmax : c = maxDwarfAddr
  · simp only [if_pos hmax]
    exact iff_of_true (Fuel.ends_const (Option.some_ne_none _)) fun hne => absurd hmax hne
  · have hregs := otherRegs_settles context fde (info.skipAhead s.p) (List.finRange 33)
      { info with cfa := c }
    simp only [if_neg hmax, Fuel.ends_andThen_iff hregs fun _ => Fuel.settles_const _]
    rw [otherRegs_ends_iff]
    constructor
    · rintro ⟨hends, -⟩ -
      exact hends
    · intro hends
      exact ⟨hends hmax, fun _ _ => Fuel.ends_const (Option.some_ne_none _)⟩

/-- A round ends exactly when the expressions it evaluates do. -/
theorem cfaRound_ends_iff {s : CfaLoop} :
    Ends (cfaRound context fde s) ↔
      ∀ q e, RoundEvaluates context fde s q e →
        Ends fun fuel => evaluate fuel context q e [] := by
  have hnothing {x : Bounded (CfaLoop ⊕ DwarfAddr)} (hx : x ≠ none)
      (hround : ∀ q e, ¬RoundEvaluates context fde s q e) :
      (Ends fun _ => x) ↔ ∀ q e, RoundEvaluates context fde s q e →
        Ends fun fuel => evaluate fuel context q e [] :=
    iff_of_true (Fuel.ends_const hx) fun q e he => absurd he (hround q e)
  by_cases hp : s.p < fde.highPc
  · cases hinfo : fde.infoForCfa s.p with
    | none =>
      rw [cfaRound_of_noInfo hp hinfo]
      apply hnothing (Option.some_ne_none _)
      rintro q e (⟨_, hinfo', _⟩ | ⟨_, hinfo', _⟩)
      all_goals
        rw [hinfo] at hinfo'
        cases hinfo'
    | some info =>
      rw [cfaRound_eq hp hinfo, Fuel.ends_andThen_iff (getReg_settles context .cfa s.p info)
        (roundAfterCfa_settles context fde s info), getReg_ends_iff]
      constructor
      · rintro ⟨hrule, hrest⟩ q e he
        cases he with
        | cfa _ hinfo' he =>
          obtain rfl := Option.some.inj (hinfo.symm.trans hinfo')
          exact hrule e he
        | reg _ hinfo' hcfa hne he =>
          obtain rfl := Option.some.inj (hinfo.symm.trans hinfo')
          exact roundAfterCfa_ends_iff.mp (hrest _ hcfa) hne e he
      · intro hends
        refine ⟨fun e he => hends _ e (.cfa hp hinfo he), fun c hc => ?_⟩
        rw [roundAfterCfa_ends_iff]
        exact fun hne e he => hends _ e (.reg hp hinfo hc hne he)
  · rw [cfaRound_of_not_lt hp]
    apply hnothing (Option.some_ne_none _)
    rintro q e (⟨hp', _, _⟩ | ⟨hp', _, _⟩)
    all_goals exact hp hp'

/-- The position after a success lies behind the current one. -/
theorem FdeInfo.lt_skipAhead_succ (info : FdeInfo) {p : DwarfAddr} {bound : ℕ}
    (hp : p.toNat < bound) (hbound : bound < 2 ^ 64) :
    p.toNat < (info.skipAhead p + 1).toNat := by
  unfold skipAhead
  by_cases hskip : p < info.subsequentPc
  · rw [if_pos hskip, BitVec.sub_add_cancel]
    exact BitVec.lt_def.mp hskip
  · rw [if_neg hskip, toNat_succ hp hbound]
    omega

/-- A round that goes on stands before the end of the FDE and moves forward. -/
theorem cfaRound_forward {s t : CfaLoop} (h : Returns (cfaRound context fde s) (.ok (.inl t))) :
    s.p.toNat < fde.highPc.toNat ∧ s.p.toNat < t.p.toNat := by
  obtain ⟨fuel, hround⟩ := h
  by_cases hp : s.p < fde.highPc
  · have hpos := BitVec.lt_def.mp hp
    have hsucc := toNat_succ hpos fde.highPc.isLt
    refine ⟨hpos, ?_⟩
    cases hinfo : fde.infoForCfa s.p with
    | none =>
      rw [cfaRound_of_noInfo hp hinfo] at hround
      cases hround
      simp only [hsucc]
      omega
    | some info =>
      rw [cfaRound_eq hp hinfo] at hround
      obtain ⟨x, -, hrest⟩ := Option.bind_eq_some_iff.mp hround
      rcases x with e | c
      · cases hrest
      · simp only [roundAfterCfa] at hrest
        by_cases hmax : c = maxDwarfAddr
        · simp only [if_pos hmax] at hrest
          cases hrest
          simp only [hsucc]
          omega
        · simp only [if_neg hmax] at hrest
          obtain ⟨y, -, hend⟩ := Option.bind_eq_some_iff.mp hrest
          rcases y with e | _
          · cases hend
          · by_cases hmore : info.hasMoreRows = true
            · simp only [if_pos hmore] at hend
              cases hend
              exact info.lt_skipAhead_succ hpos fde.highPc.isLt
            · simp only [if_neg hmore] at hend
              cases hend
  · rw [cfaRound_of_not_lt hp] at hround
    cases hround

/-- `GetCfa` ends exactly when the expressions it evaluates do. -/
theorem getCfa_ends_iff {dbg : FrameSections} :
    Ends (getCfa dbg context pc) ↔
      ∀ q e, CfiEvaluates dbg context pc q e →
        Ends fun fuel => evaluate fuel context q e [] := by
  unfold getCfa
  cases hfde : getFdeAtPc (getAllFde dbg) pc with
  | none =>
    apply iff_of_true (Fuel.ends_const (Option.some_ne_none _))
    rintro q e ⟨fde, s, hfde', _⟩
    rw [hfde] at hfde'
    cases hfde'
  | some fde =>
    have hlower (s t : CfaLoop) (hnext : Returns (cfaRound context fde s) (.ok (.inl t))) :
        fde.highPc.toNat - t.p.toNat < fde.highPc.toNat - s.p.toNat := by
      have hforward := cfaRound_forward hnext
      omega
    rw [Fuel.ends_loop_iff (cfaRound_settles context fde)
      (fun s => fde.highPc.toNat - s.p.toNat) hlower]
    constructor
    · rintro hends q e ⟨fde', s, hfde', hreach, he⟩
      obtain rfl := Option.some.inj (hfde.symm.trans hfde')
      exact cfaRound_ends_iff.mp (hends s hreach) q e he
    · intro hends s hreach
      exact cfaRound_ends_iff.mpr fun q e he => hends q e ⟨fde, s, hfde, hreach, he⟩

end Ends

end DwarfExpr
