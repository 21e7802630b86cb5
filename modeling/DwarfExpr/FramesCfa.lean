import DwarfExpr.Frames

/-!
# Which row of the unwind table `GetCfa` uses

The loop of `GetCfa` starts at the low pc of the FDE and never compares its position
with the requested pc. It works through all rows, keeps the CFA computed last, and so
returns the CFA of the last row. In a row it tries the rule at successive addresses
until one attempt succeeds.
-/

namespace DwarfExpr

open Fuel (Settles Returns)

/-- The meaning of a CFA rule in a context at a pc: an address, or nothing if the rule
cannot be evaluated. -/
def CfaRule.eval (context : Context) (pc : DwarfAddr) (rule : CfaRule) (fuel : ℕ) :
    Bounded (Option DwarfAddr) :=
  match rule with
  | registerOffset (.number n) offset =>
    match context.registers with
    | some registers => some (.ok ((registers (toCInt n)).map (· + offset)))
    | none => some (.error .nullProvider)
  | registerOffset _ _ => some (.ok none)
  | expression block =>
    match exprOfBlock block with
    | some expr =>
      Fuel.Bounded.andThen (evaluate fuel context pc expr []) fun outcome =>
        some (.ok outcome.1.validValue)
    | none => some (.ok none)

/-- The rule has the value `v` at the pc; `none` is a rule that cannot be evaluated. -/
def CfaRule.HasValue (context : Context) (pc : DwarfAddr) (rule : CfaRule)
    (v : Option DwarfAddr) : Prop := Returns (rule.eval context pc) (.ok v)

/-- The evaluation of a rule settles. -/
theorem CfaRule.eval_settles (context : Context) (pc : DwarfAddr) (rule : CfaRule) :
    Settles (rule.eval context pc) := by
  cases rule with
  | registerOffset reg offset => cases reg <;> exact Fuel.settles_const _
  | expression block =>
    simp only [funext (CfaRule.eval.eq_def context pc _)]
    cases exprOfBlock block with
    | some expr =>
      exact (evaluate_settles context pc expr []).andThen fun _ => Fuel.settles_const _
    | none => exact Fuel.settles_const _

/-- `GetReg` computes the CFA rule of a row, with `MAX_DWARF_ADDR` for a failure. -/
theorem getReg_cfa (fuel : ℕ) (context : Context) (fde : Fde) (row : UnwindRow)
    (next : Option UnwindRow) (cfa pc : DwarfAddr) :
    getReg fuel context .cfa pc (fde.info row next cfa row.cfaRule.toRegRule) =
      (row.cfaRule.eval context pc fuel).andThen fun v => some (.ok (v.getD maxDwarfAddr)) := by
  cases hrule : row.cfaRule with
  | registerOffset reg offset =>
    cases reg with
    | undefinedVal => simp [getReg, Fde.info, CfaRule.toRegRule, CfaRule.eval]
    | sameVal => simp [getReg, Fde.info, CfaRule.toRegRule, CfaRule.eval]
    | number n =>
      simp only [getReg, Fde.info, CfaRule.toRegRule, CfaRule.eval, Context.registerPlus]
      cases context.registers with
      | none => rfl
      | some registers => cases hvalue : registers (toCInt n) <;> simp [hvalue]
  | expression block =>
    simp only [getReg, Fde.info, CfaRule.toRegRule, CfaRule.eval, evalExpr]
    rw [if_neg (by simp)]
    cases exprOfBlock block with
    | some expr => simp only [Fuel.Bounded.andThen_assoc, Fuel.Bounded.andThen_ok]
    | none => rfl

/-- The evaluation of the expression of a rule settles. -/
theorem evalExpr_settles (context : Context) (pc : DwarfAddr) (info : FdeInfo) :
    Settles fun fuel => evalExpr fuel context pc info := by
  unfold evalExpr
  cases exprOfBlock info.block with
  | some expr =>
    exact (evaluate_settles context pc expr []).andThen fun _ => Fuel.settles_const _
  | none => exact Fuel.settles_const _

/-- Reading an address gives the same answer for every amount of fuel, and so does
everything that `GetReg` does except for evaluating an expression. -/
theorem getReg_settles (context : Context) (i : FrameColumn) (pc : DwarfAddr) (info : FdeInfo) :
    Settles fun fuel => getReg fuel context i pc info := by
  have hexpr := evalExpr_settles context pc info
  unfold getReg
  by_cases hmark : (info.valueType = .offset ∨ info.valueType = .valOffset) ∧
      (info.reg = .undefinedVal ∨ info.reg = .sameVal)
  · simp only [if_pos hmark]
    exact Fuel.settles_const _
  · simp only [if_neg hmark]
    cases info.valueType with
    | offset => exact Fuel.settles_const _
    | valOffset => exact Fuel.settles_const _
    | expression => exact hexpr.andThen fun _ => Fuel.settles_const _
    | valExpression => exact hexpr
    | other => exact Fuel.settles_const _

/-- The loop over the registers settles. Induction on the registers still to visit. -/
theorem otherRegs_settles (context : Context) (fde : Fde) (p : DwarfAddr) (xs : List (Fin 33))
    (info : FdeInfo) : Settles fun fuel => otherRegs fuel context fde p xs info := by
  induction xs generalizing info with
  | nil => exact Fuel.settles_const _
  | cons x xs ih =>
    unfold otherRegs
    cases fde.infoForReg x p info with
    | none => exact ih info
    | some info' =>
      by_cases hrow : info'.rowPc ≠ p
      · simpa only [if_pos hrow] using ih info'
      · simp only [if_neg hrow]
        exact (getReg_settles context (.reg x) p info').andThen fun _ => ih info'

/-- The rest of a round once `GetReg` has given the CFA. -/
def roundAfterCfa (context : Context) (fde : Fde) (s : CfaLoop) (info : FdeInfo)
    (cfa : DwarfAddr) (fuel : ℕ) : Bounded (CfaLoop ⊕ DwarfAddr) :=
  if cfa = maxDwarfAddr then some (.ok (.inl ⟨s.p + 1, cfa⟩))
  else
    (otherRegs fuel context fde (info.skipAhead s.p) (List.finRange 33)
      { info with cfa := cfa }).andThen fun _ =>
        some (.ok (if info.hasMoreRows then .inl ⟨info.skipAhead s.p + 1, cfa⟩ else .inr cfa))

/-- The rest of a round settles. -/
theorem roundAfterCfa_settles (context : Context) (fde : Fde) (s : CfaLoop) (info : FdeInfo)
    (cfa : DwarfAddr) : Settles (roundAfterCfa context fde s info cfa) := by
  unfold roundAfterCfa
  by_cases hmax : cfa = maxDwarfAddr
  · simp only [if_pos hmax]
    exact Fuel.settles_const _
  · simp only [if_neg hmax]
    exact (otherRegs_settles context fde _ _ _).andThen fun _ => Fuel.settles_const _

/-- A round at an address with a CFA rule is `GetReg` and the rest. -/
theorem cfaRound_eq {context : Context} {fde : Fde} {s : CfaLoop} {info : FdeInfo}
    (hp : s.p < fde.highPc) (hinfo : fde.infoForCfa s.p = some info) :
    cfaRound context fde s = fun fuel => (getReg fuel context .cfa s.p info).andThen fun cfa =>
      roundAfterCfa context fde s info cfa fuel := by
  funext fuel
  simp only [cfaRound, if_pos hp, hinfo]
  rfl

/-- A round at an address without a CFA rule goes on with the next address. -/
theorem cfaRound_of_noInfo {context : Context} {fde : Fde} {s : CfaLoop}
    (hp : s.p < fde.highPc) (hinfo : fde.infoForCfa s.p = none) :
    cfaRound context fde s = fun _ => some (.ok (.inl ⟨s.p + 1, s.cfa⟩)) := by
  funext fuel
  simp only [cfaRound, if_pos hp, hinfo]

/-- Behind the FDE the loop ends with what it has. -/
theorem cfaRound_of_not_lt {context : Context} {fde : Fde} {s : CfaLoop}
    (hp : ¬s.p < fde.highPc) : cfaRound context fde s = fun _ => some (.ok (.inr s.cfa)) := by
  funext fuel
  simp only [cfaRound, if_neg hp]

/-- Each round of the loop of `GetCfa` settles. -/
theorem cfaRound_settles (context : Context) (fde : Fde) (s : CfaLoop) :
    Settles (cfaRound context fde s) := by
  by_cases hp : s.p < fde.highPc
  · cases hinfo : fde.infoForCfa s.p with
    | none =>
      rw [cfaRound_of_noInfo hp hinfo]
      exact Fuel.settles_const _
    | some info =>
      rw [cfaRound_eq hp hinfo]
      exact (getReg_settles context .cfa s.p info).andThen
        (roundAfterCfa_settles context fde s info)
  · rw [cfaRound_of_not_lt hp]
    exact Fuel.settles_const _

/-- `GetCfa` settles. -/
theorem getCfa_settles (dbg : FrameSections) (context : Context) (pc : DwarfAddr) :
    Settles (getCfa dbg context pc) := by
  unfold getCfa
  cases getFdeAtPc (getAllFde dbg) pc with
  | none => exact Fuel.settles_const _
  | some fde => exact (Fuel.settlingSteps_of_rounds (cfaRound_settles context fde)).settles _

/-- The loop of `GetCfa`, entered in the state `s`, returns `c`. -/
def LoopReturns (context : Context) (fde : Fde) (s : CfaLoop) (c : DwarfAddr) : Prop :=
  Returns (Fuel.halting (fun fuel s => (cfaRound context fde s fuel).toStep) s) (.ok c)

/-- After the rule of the row gave the CFA `c` at `p`, the loop over the registers
comes to its end. -/
def RegsReturn (context : Context) (fde : Fde) (row : UnwindRow) (next : Option UnwindRow)
    (p c : DwarfAddr) : Prop :=
  let info := fde.info row next c row.cfaRule.toRegRule
  Returns (fun fuel => otherRegs fuel context fde (info.skipAhead p) (List.finRange 33) info)
    (.ok ())

/-- The rest of a round once the rule of the row has the value `v` at `p`. -/
def roundAfterRule (context : Context) (fde : Fde) (row : UnwindRow) (next : Option UnwindRow)
    (p : DwarfAddr) (v : Option DwarfAddr) (fuel : ℕ) : Bounded (CfaLoop ⊕ DwarfAddr) :=
  let cfa := v.getD maxDwarfAddr
  let info := fde.info row next cfa row.cfaRule.toRegRule
  if cfa = maxDwarfAddr then some (.ok (.inl ⟨p + 1, cfa⟩))
  else
    (otherRegs fuel context fde (info.skipAhead p) (List.finRange 33) info).andThen fun _ =>
      some (.ok (if next.isSome then .inl ⟨info.skipAhead p + 1, cfa⟩ else .inr cfa))

/-- It is the rest of the round with the CFA that `GetReg` makes of the value. -/
theorem roundAfterRule_eq (context : Context) (fde : Fde) (row : UnwindRow)
    (next : Option UnwindRow) (p x : DwarfAddr) (v : Option DwarfAddr) :
    roundAfterRule context fde row next p v =
      roundAfterCfa context fde ⟨p, x⟩ (fde.info row next 0 row.cfaRule.toRegRule)
        (v.getD maxDwarfAddr) := rfl

/-- At an address of a row, a round evaluates the rule of that row there. -/
theorem cfaRound_at_row {context : Context} {fde : Fde} {row : UnwindRow}
    {next : Option UnwindRow} {p : DwarfAddr} (hp : p < fde.highPc)
    (hquery : fde.query p = some (row, next)) (x : DwarfAddr) :
    cfaRound context fde ⟨p, x⟩ = fun fuel =>
      (row.cfaRule.eval context p fuel).andThen fun v =>
        roundAfterRule context fde row next p v fuel := by
  have hinfo : fde.infoForCfa p = some (fde.info row next 0 row.cfaRule.toRegRule) := by
    simp only [Fde.infoForCfa, hquery, Option.map_some]
  rw [cfaRound_eq hp hinfo]
  simp only [getReg_cfa, Fuel.Bounded.andThen_assoc, Fuel.Bounded.andThen_ok,
    roundAfterRule_eq context fde row next p x]

/-- The rest of a round settles. -/
theorem roundAfterRule_settles (context : Context) (fde : Fde) (row : UnwindRow)
    (next : Option UnwindRow) (p : DwarfAddr) (v : Option DwarfAddr) :
    Settles (roundAfterRule context fde row next p v) := by
  rw [roundAfterRule_eq context fde row next p 0 v]
  exact roundAfterCfa_settles _ _ _ _ _

/-- A round goes on with the next address when the rule fails, and otherwise leaves the
row once the registers have been visited. -/
theorem roundAfterRule_returns_iff {context : Context} {fde : Fde} {row : UnwindRow}
    {next : Option UnwindRow} {p : DwarfAddr} {v : Option DwarfAddr} {y : CfaLoop ⊕ DwarfAddr} :
    Returns (roundAfterRule context fde row next p v) (.ok y) ↔
      (v.getD maxDwarfAddr = maxDwarfAddr ∧ y = .inl ⟨p + 1, maxDwarfAddr⟩) ∨
        ∃ cfa, v = some cfa ∧ cfa ≠ maxDwarfAddr ∧ RegsReturn context fde row next p cfa ∧
          y = match next with
            | some later => .inl
                ⟨(if p < later.startPc then later.startPc - 1 else p) + 1, cfa⟩
            | none => .inr cfa := by
  unfold roundAfterRule
  by_cases hmax : v.getD maxDwarfAddr = maxDwarfAddr
  · simp only [hmax, if_true, Fuel.returns_const_iff, Except.ok.injEq, true_and]
    constructor
    · intro h
      exact Or.inl h.symm
    · rintro (h | ⟨cfa, rfl, hne, _⟩)
      · exact h.symm
      · exact absurd hmax hne
  · obtain ⟨cfa, rfl⟩ : ∃ cfa, v = some cfa := by
      cases v with
      | none => exact absurd rfl hmax
      | some cfa => exact ⟨cfa, rfl⟩
    have hsettle := otherRegs_settles context fde
      ((fde.info row next cfa row.cfaRule.toRegRule).skipAhead p) (List.finRange 33)
      (fde.info row next cfa row.cfaRule.toRegRule)
    simp only [Option.getD_some] at hmax ⊢
    simp only [hmax, if_false, false_and, false_or, Option.some.injEq, exists_eq_left',
      ne_eq, not_false_eq_true, true_and]
    rw [Fuel.returns_andThen_iff hsettle fun _ => Fuel.settles_const _]
    simp only [Fuel.returns_const_iff, Except.ok.injEq]
    constructor
    · rintro ⟨_, hregs, rfl⟩
      exact ⟨hregs, by cases next <;> rfl⟩
    · rintro ⟨hregs, rfl⟩
      exact ⟨(), hregs, by cases next <;> rfl⟩

/-- What the loop returns from an address of a row: it moves on by one address when the
rule fails there, and leaves the row when it succeeds. -/
theorem loopReturns_at_row {context : Context} {fde : Fde} {row : UnwindRow}
    {next : Option UnwindRow} {p : DwarfAddr} (hp : p < fde.highPc)
    (hquery : fde.query p = some (row, next)) (x c : DwarfAddr) :
    LoopReturns context fde ⟨p, x⟩ c ↔
      ∃ v, row.cfaRule.HasValue context p v ∧
        ((v.getD maxDwarfAddr = maxDwarfAddr ∧
            LoopReturns context fde ⟨p + 1, maxDwarfAddr⟩ c) ∨
          ∃ cfa, v = some cfa ∧ cfa ≠ maxDwarfAddr ∧ RegsReturn context fde row next p cfa ∧
            match next with
            | some later => LoopReturns context fde
                ⟨(if p < later.startPc then later.startPc - 1 else p) + 1, cfa⟩ c
            | none => cfa = c) := by
  have hrule := row.cfaRule.eval_settles context p
  have hafter := roundAfterRule_settles context fde row next p
  unfold LoopReturns
  rw [Fuel.returns_loop_iff (cfaRound_settles context fde), cfaRound_at_row hp hquery]
  simp only [Fuel.returns_andThen_iff hrule hafter, roundAfterRule_returns_iff]
  constructor
  · rintro (⟨v, hv, h | ⟨cfa, rfl, hne, hregs, hend⟩⟩ | ⟨t, ⟨v, hv, h⟩, hrun⟩)
    · cases h.2
    · refine ⟨some cfa, hv, Or.inr ⟨cfa, rfl, hne, hregs, ?_⟩⟩
      cases next with
      | some later => cases hend
      | none => exact (Sum.inr.inj hend).symm
    · refine ⟨v, hv, ?_⟩
      rcases h with ⟨hmax, ht⟩ | ⟨cfa, rfl, hne, hregs, hend⟩
      · obtain rfl := Sum.inl.inj ht
        exact Or.inl ⟨hmax, hrun⟩
      · refine Or.inr ⟨cfa, rfl, hne, hregs, ?_⟩
        cases next with
        | some later =>
          obtain rfl := Sum.inl.inj hend
          exact hrun
        | none => cases hend
  · rintro ⟨v, hv, ⟨hmax, hrun⟩ | ⟨cfa, rfl, hne, hregs, hrest⟩⟩
    · exact Or.inr ⟨_, ⟨v, hv, Or.inl ⟨hmax, rfl⟩⟩, hrun⟩
    · cases next with
      | some later =>
        exact Or.inr ⟨_, ⟨some cfa, hv, Or.inr ⟨cfa, rfl, hne, hregs, rfl⟩⟩, hrest⟩
      | none =>
        obtain rfl : cfa = c := hrest
        exact Or.inl ⟨some cfa, hv, Or.inr ⟨cfa, rfl, hne, hregs, rfl⟩⟩

/-- Behind the last address the loop returns the CFA it carries. -/
theorem loopReturns_at_end {context : Context} {fde : Fde} {p : DwarfAddr} (hp : ¬p < fde.highPc)
    (x c : DwarfAddr) : LoopReturns context fde ⟨p, x⟩ c ↔ x = c := by
  have hround : cfaRound context fde ⟨p, x⟩ = fun _ => some (.ok (.inr x)) :=
    cfaRound_of_not_lt hp
  unfold LoopReturns
  rw [Fuel.returns_loop_iff (cfaRound_settles context fde), hround]
  simp [Fuel.returns_const_iff]

/-- What the loop makes of a row, with `n` of its addresses left from `p` on: it tries
the rule at each of them until one attempt gives an address. -/
inductive RowYields (context : Context) (fde : Fde) (row : UnwindRow) (next : Option UnwindRow) :
    ℕ → DwarfAddr → DwarfAddr → Prop
  | exhausted (p : DwarfAddr) : RowYields context fde row next 0 p maxDwarfAddr
  | failed {n : ℕ} {p : DwarfAddr} {v : Option DwarfAddr} {c : DwarfAddr}
      (hvalue : row.cfaRule.HasValue context p v) (hmax : v.getD maxDwarfAddr = maxDwarfAddr)
      (hrest : RowYields context fde row next n (p + 1) c) :
      RowYields context fde row next (n + 1) p c
  | succeeded {n : ℕ} {p cfa : DwarfAddr} (hvalue : row.cfaRule.HasValue context p (some cfa))
      (hne : cfa ≠ maxDwarfAddr) (hregs : RegsReturn context fde row next p cfa) :
      RowYields context fde row next (n + 1) p cfa

/-- What the loop makes of the rows of a table from one of them on: all but the last
only have to come to an end, and the last one yields the CFA. -/
def RowsYield (context : Context) (fde : Fde) : List UnwindRow → DwarfAddr → Prop
  | [], _ => False
  | [row], c =>
    RowYields context fde row none (fde.highPc.toNat - row.startPc.toNat) row.startPc c
  | row :: later :: rest, c =>
    (∃ c', RowYields context fde row (some later) (later.startPc.toNat - row.startPc.toNat)
      row.startPc c') ∧ RowsYield context fde (later :: rest) c

/-- The next address is one further unless the address space ends. -/
theorem toNat_succ {p : DwarfAddr} {bound : ℕ} (hp : p.toNat < bound) (hbound : bound < 2 ^ 64) :
    (p + 1).toNat = p.toNat + 1 := by
  rw [BitVec.toNat_add]
  exact Nat.mod_eq_of_lt (by simp; omega)

/-- From an address of the last row on, the loop returns what that row yields. -/
theorem loopReturns_in_lastRow {context : Context} {fde : Fde} {row : UnwindRow} {n : ℕ}
    {p x c : DwarfAddr}
    (hquery : ∀ q : DwarfAddr, p.toNat ≤ q.toNat → q.toNat < p.toNat + n →
      fde.query q = some (row, none))
    (hend : p.toNat + n = fde.highPc.toNat) (hx : n = 0 → x = maxDwarfAddr) :
    LoopReturns context fde ⟨p, x⟩ c ↔ RowYields context fde row none n p c := by
  induction n generalizing p x with
  | zero =>
    have hp : ¬p < fde.highPc := by
      rw [BitVec.lt_def]
      omega
    rw [loopReturns_at_end hp, hx rfl]
    constructor
    · rintro rfl
      exact .exhausted p
    · intro hyields
      cases hyields
      rfl
  | succ n ih =>
    have hp : p < fde.highPc := by
      rw [BitVec.lt_def]
      omega
    have hsucc := toNat_succ (BitVec.lt_def.mp hp) fde.highPc.isLt
    have hnext : LoopReturns context fde ⟨p + 1, maxDwarfAddr⟩ c ↔
        RowYields context fde row none n (p + 1) c :=
      ih (fun q hlow hhigh => hquery q (by omega) (by omega)) (by omega) fun _ => rfl
    rw [loopReturns_at_row hp (hquery p (le_refl _) (by omega))]
    constructor
    · rintro ⟨v, hv, ⟨hmax, hrun⟩ | ⟨cfa, rfl, hne, hregs, rfl⟩⟩
      · exact .failed hv hmax (hnext.mp hrun)
      · exact .succeeded hv hne hregs
    · intro hyields
      cases hyields with
      | failed hv hmax hrest => exact ⟨_, hv, Or.inl ⟨hmax, hnext.mpr hrest⟩⟩
      | succeeded hv hne hregs => exact ⟨_, hv, Or.inr ⟨_, rfl, hne, hregs, rfl⟩⟩

/-- At an address of a row the CFA carried so far makes no difference. -/
theorem loopReturns_congr {context : Context} {fde : Fde} {p : DwarfAddr} (hp : p < fde.highPc)
    (hquery : (fde.query p).isSome = true) (x y c : DwarfAddr) :
    LoopReturns context fde ⟨p, x⟩ c ↔ LoopReturns context fde ⟨p, y⟩ c := by
  obtain ⟨⟨row, next⟩, hsome⟩ := Option.isSome_iff_exists.mp hquery
  rw [loopReturns_at_row hp hsome, loopReturns_at_row hp hsome]

/-- From an address of an inner row on, the loop returns what it returns from the next
row on, provided that the inner row comes to an end. -/
theorem loopReturns_in_innerRow {context : Context} {fde : Fde} {row later : UnwindRow} {n : ℕ}
    {p x c : DwarfAddr}
    (hquery : ∀ q : DwarfAddr, p.toNat ≤ q.toNat → q.toNat < p.toNat + n →
      fde.query q = some (row, some later))
    (hend : p.toNat + n = later.startPc.toNat) (hlater : later.startPc < fde.highPc)
    (hlaterQuery : (fde.query later.startPc).isSome = true) :
    LoopReturns context fde ⟨p, x⟩ c ↔
      (∃ c', RowYields context fde row (some later) n p c') ∧
        LoopReturns context fde ⟨later.startPc, maxDwarfAddr⟩ c := by
  induction n generalizing p x with
  | zero =>
    obtain rfl : p = later.startPc := BitVec.eq_of_toNat_eq hend
    rw [loopReturns_congr hlater hlaterQuery x maxDwarfAddr]
    exact ⟨fun h => ⟨⟨_, .exhausted _⟩, h⟩, fun h => h.2⟩
  | succ n ih =>
    have hlaterNat := BitVec.lt_def.mp hlater
    have hp : p < fde.highPc := by
      rw [BitVec.lt_def]
      omega
    have hbefore : p < later.startPc := by
      rw [BitVec.lt_def]
      omega
    have hsucc := toNat_succ (BitVec.lt_def.mp hp) fde.highPc.isLt
    have hskip (cfa : DwarfAddr) : LoopReturns context fde
        ⟨(if p < later.startPc then later.startPc - 1 else p) + 1, cfa⟩ c ↔
          LoopReturns context fde ⟨later.startPc, maxDwarfAddr⟩ c := by
      rw [if_pos hbefore, BitVec.sub_add_cancel]
      exact loopReturns_congr hlater hlaterQuery _ _ _
    have hnext : LoopReturns context fde ⟨p + 1, maxDwarfAddr⟩ c ↔
        (∃ c', RowYields context fde row (some later) n (p + 1) c') ∧
          LoopReturns context fde ⟨later.startPc, maxDwarfAddr⟩ c :=
      ih (fun q hlow hhigh => hquery q (by omega) (by omega)) (by omega)
    rw [loopReturns_at_row hp (hquery p (le_refl _) (by omega))]
    constructor
    · rintro ⟨v, hv, ⟨hmax, hrun⟩ | ⟨cfa, rfl, hne, hregs, hrun⟩⟩
      · obtain ⟨⟨c', hrest⟩, hreturns⟩ := hnext.mp hrun
        exact ⟨⟨c', .failed hv hmax hrest⟩, hreturns⟩
      · exact ⟨⟨cfa, .succeeded hv hne hregs⟩, (hskip cfa).mp hrun⟩
    · rintro ⟨⟨c', hyields⟩, hreturns⟩
      cases hyields with
      | failed hv hmax hrest =>
        exact ⟨_, hv, Or.inl ⟨hmax, hnext.mpr ⟨⟨c', hrest⟩, hreturns⟩⟩⟩
      | succeeded hv hne hregs =>
        exact ⟨_, hv, Or.inr ⟨_, rfl, hne, hregs, (hskip _).mpr hreturns⟩⟩

/-- In a sorted table the row covering an address is the one that starts at or before
it and whose successor starts behind it. Induction on the rows before it. -/
theorem rowCovering_append {before rest : List UnwindRow} {row : UnwindRow} {q : DwarfAddr}
    (hsorted : (before ++ row :: rest).Pairwise fun r later => r.startPc < later.startPc)
    (hrow : row.startPc ≤ q) (hnext : ∀ later ∈ rest.head?, q < later.startPc) :
    rowCovering q (before ++ row :: rest) = some (row, rest.head?) := by
  induction before with
  | nil =>
    have hnone : rowCovering q rest = none := by
      cases rest with
      | nil => rfl
      | cons later rest => rw [rowCovering, if_pos (hnext later rfl)]
    rw [List.nil_append, rowCovering, if_neg (BitVec.not_lt.mpr hrow), hnone, Option.none_or]
  | cons r before ih =>
    rw [List.cons_append, List.pairwise_cons] at hsorted
    have hr : r.startPc < row.startPc := hsorted.1 row (by simp)
    have hrq : ¬q < r.startPc := by
      rw [BitVec.lt_def] at hr ⊢
      rw [BitVec.le_def] at hrow
      omega
    rw [List.cons_append, rowCovering, if_neg hrq, ih hsorted.2, Option.some_or]

/-- No row of an FDE starts before its low pc. -/
theorem Fde.lowPc_le {fde : Fde} {row : UnwindRow} (hrow : row ∈ fde.rows) :
    fde.lowPc ≤ row.startPc := by
  have hstarts := fde.starts
  have hincreasing := fde.increasing
  cases hrows : fde.rows with
  | nil => rw [hrows] at hrow; cases hrow
  | cons first rest =>
    rw [hrows] at hstarts hincreasing hrow
    have hfirst : first.startPc = fde.lowPc := by simpa using hstarts
    rcases List.mem_cons.mp hrow with rfl | hrest
    · exact BitVec.le_of_eq hfirst.symm
    · have hlt := (List.pairwise_cons.mp hincreasing).1 row hrest
      rw [hfirst] at hlt
      exact BitVec.le_of_lt hlt

/-- A query inside the interval of a row is answered from that row. -/
theorem Fde.query_eq {fde : Fde} {before rest : List UnwindRow} {row : UnwindRow}
    {q : DwarfAddr} (hrows : fde.rows = before ++ row :: rest) (hrow : row.startPc ≤ q)
    (hq : q < fde.highPc) (hnext : ∀ later ∈ rest.head?, q < later.startPc) :
    fde.query q = some (row, rest.head?) := by
  have hlow : fde.lowPc ≤ q := BitVec.le_trans (fde.lowPc_le (by simp [hrows])) hrow
  have hsorted := fde.increasing
  rw [hrows] at hsorted
  rw [Fde.query, if_pos ⟨hlow, hq⟩, hrows, rowCovering_append hsorted hrow hnext]

/-- From the start of a row on, the loop returns what the rows from there on yield.
Induction on these rows. -/
theorem loopReturns_from_row {context : Context} {fde : Fde} {before rest : List UnwindRow}
    {row : UnwindRow} (hrows : fde.rows = before ++ row :: rest) (c : DwarfAddr) :
    LoopReturns context fde ⟨row.startPc, maxDwarfAddr⟩ c ↔
      RowsYield context fde (row :: rest) c := by
  induction rest generalizing before row with
  | nil =>
    have hbelow := BitVec.lt_def.mp (fde.below row (by simp [hrows]))
    refine loopReturns_in_lastRow (fun q hlow hhigh => ?_) (by omega) fun _ => rfl
    have hq : q < fde.highPc := by
      rw [BitVec.lt_def]
      omega
    exact fde.query_eq hrows (BitVec.le_def.mpr hlow) hq (by simp)
  | cons later rest ih =>
    have hlater := fde.below later (by simp [hrows])
    have hsorted := fde.increasing
    rw [hrows] at hsorted
    have horder : row.startPc < later.startPc := by
      have htail := (List.pairwise_append.mp hsorted).2.1
      exact (List.pairwise_cons.mp htail).1 later (by simp)
    have horderNat := BitVec.lt_def.mp horder
    have hrows' : fde.rows = (before ++ [row]) ++ later :: rest := by simp [hrows]
    have hlaterQuery : fde.query later.startPc = some (later, rest.head?) := by
      refine fde.query_eq hrows' (BitVec.le_refl _) hlater fun third hthird => ?_
      have htail := (List.pairwise_append.mp hsorted).2.1
      have htail' := (List.pairwise_cons.mp htail).2
      exact (List.pairwise_cons.mp htail').1 third (List.mem_of_mem_head? hthird)
    rw [RowsYield, ← ih hrows']
    refine loopReturns_in_innerRow (fun q hlow hhigh => ?_) (by omega) hlater
      (by simp [hlaterQuery])
    have hq : q < fde.highPc := by
      rw [BitVec.lt_def] at hlater ⊢
      omega
    refine fde.query_eq hrows (BitVec.le_def.mpr hlow) hq fun r hr => ?_
    obtain rfl : later = r := Option.some.inj hr
    rw [BitVec.lt_def]
    omega

/-- `GetCfa` returns what the rows of the FDE yield, whatever the requested pc. -/
theorem getCfa_returns_iff {dbg : FrameSections} {context : Context} {pc : DwarfAddr} {fde : Fde}
    (hfde : getFdeAtPc (getAllFde dbg) pc = some fde) (c : DwarfAddr) :
    Returns (getCfa dbg context pc) (.ok c) ↔ RowsYield context fde fde.rows c := by
  have hloop : Returns (getCfa dbg context pc) (.ok c) ↔
      LoopReturns context fde ⟨fde.lowPc, maxDwarfAddr⟩ c := by
    unfold getCfa LoopReturns
    rw [hfde]
  have hstarts := fde.starts
  rw [hloop]
  cases hrows : fde.rows with
  | nil => simp [hrows] at hstarts
  | cons row rest =>
    have hfirst : row.startPc = fde.lowPc := by simpa [hrows] using hstarts
    rw [← hfirst]
    exact @loopReturns_from_row context fde [] rest row hrows c

/-- The CFA rule of the row that covers the pc has the value `v` there. -/
def Fde.RuleValue (context : Context) (fde : Fde) (pc : DwarfAddr) (v : Option DwarfAddr) : Prop :=
  ∃ row next, rowCovering pc fde.rows = some (row, next) ∧ row.cfaRule.HasValue context pc v

/-- The rule of the covering row has at most one value. -/
theorem Fde.RuleValue.unique {context : Context} {fde : Fde} {pc : DwarfAddr}
    {v w : Option DwarfAddr} (hv : fde.RuleValue context pc v) (hw : fde.RuleValue context pc w) :
    v = w := by
  obtain ⟨row, next, hrow, hv⟩ := hv
  obtain ⟨row', next', hrow', hw⟩ := hw
  rw [hrow] at hrow'
  obtain ⟨rfl, rfl⟩ := Prod.mk.inj (Option.some.inj hrow')
  have heq := (row.cfaRule.eval_settles context pc).unique hv hw
  exact Except.ok.inj heq

/-- `GetCfa` returns the value of the rule of the covering row, and `MAX_DWARF_ADDR`
exactly when that rule cannot be evaluated. -/
def GetCfaUsesRow (dbg : FrameSections) (context : Context) (pc : DwarfAddr) (fde : Fde) : Prop :=
  ∃ c, Returns (getCfa dbg context pc) (.ok c) ∧
    ∀ v, fde.RuleValue context pc v → c = v.getD maxDwarfAddr ∧ (c = maxDwarfAddr ↔ v = none)

/-- `GetCfa` uses the row of the requested pc exactly when the value of its rule is not
the address `MAX_DWARF_ADDR` itself, all rows but the last come to an end, and the last
row yields the same value. -/
theorem getCfa_usesRow_iff {dbg : FrameSections} {context : Context} {pc : DwarfAddr} {fde : Fde}
    {v : Option DwarfAddr} (hfde : getFdeAtPc (getAllFde dbg) pc = some fde)
    (hvalue : fde.RuleValue context pc v) :
    GetCfaUsesRow dbg context pc fde ↔
      v ≠ some maxDwarfAddr ∧ RowsYield context fde fde.rows (v.getD maxDwarfAddr) := by
  constructor
  · rintro ⟨c, hreturns, hrow⟩
    obtain ⟨rfl, hmax⟩ := hrow v hvalue
    refine ⟨?_, (getCfa_returns_iff hfde _).mp hreturns⟩
    rintro rfl
    exact absurd (hmax.mp rfl) (by simp)
  · rintro ⟨hne, hyields⟩
    refine ⟨v.getD maxDwarfAddr, (getCfa_returns_iff hfde _).mpr hyields, fun w hw => ?_⟩
    obtain rfl := hvalue.unique hw
    refine ⟨rfl, fun hmax => ?_, fun hnone => by rw [hnone]; rfl⟩
    cases v with
    | none => rfl
    | some cfa =>
      rw [Option.getD_some] at hmax
      exact absurd (by rw [hmax]) hne

/-- A row whose CFA is register 7 plus an offset, without rules for other registers. -/
def sp7Row (startPc offset : BitVec 64) : UnwindRow :=
  ⟨startPc, .registerOffset (.number 7) offset, fun _ => .noEntry⟩

/-- An FDE with a prologue row at `0x1000` and a body row from `0x1004` on. -/
def prologueFde : Fde where
  lowPc := 0x1000
  highPc := 0x1010
  rows := [sp7Row 0x1000 8, sp7Row 0x1004 16]
  lastSubsequentPc := 0
  starts := rfl
  increasing := by decide
  below := by decide

/-- The frame sections with that FDE alone. -/
def prologueFrames : FrameSections := ⟨.ok [prologueFde], .noEntry⟩

/-- A context in which every register is `0x7000`. -/
def flatContext : Context := { emptyContext with registers := some fun _ => some 0x7000 }

/-- At the first address of the prologue the rule gives `0x7008`. -/
theorem prologueFde_ruleValue : prologueFde.RuleValue flatContext 0x1000 (some 0x7008) :=
  ⟨_, _, rfl, 0, rfl⟩

/-- For a pc in the prologue `GetCfa` returns the CFA of the body. -/
theorem getCfa_not_usesRow :
    getFdeAtPc (getAllFde prologueFrames) 0x1000 = some prologueFde ∧
      ¬GetCfaUsesRow prologueFrames flatContext 0x1000 prologueFde := by
  refine ⟨rfl, ?_⟩
  rintro ⟨c, hreturns, hrow⟩
  have hbody : Returns (getCfa prologueFrames flatContext 0x1000) (.ok 0x7010) := ⟨3, rfl⟩
  have hc := (getCfa_settles prologueFrames flatContext 0x1000).unique hreturns hbody
  obtain ⟨hval, _⟩ := hrow _ prologueFde_ruleValue
  rw [Except.ok.inj hc] at hval
  exact absurd hval (by decide)

/-- The characterization at the first address of the prologue. -/
theorem getCfa_usesRow_iff_prologue :
    GetCfaUsesRow prologueFrames flatContext 0x1000 prologueFde ↔
      (some 0x7008 : Option DwarfAddr) ≠ some maxDwarfAddr ∧
        RowsYield flatContext prologueFde prologueFde.rows 0x7008 :=
  getCfa_usesRow_iff rfl prologueFde_ruleValue

end DwarfExpr
